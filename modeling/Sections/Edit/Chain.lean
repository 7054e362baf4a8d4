import Sections.Edit.LineRule
import Sections.Edit.SectionEditor

namespace Sections

-- The rule of a line editor may wait for a number of turns before each of its answers.
inductive Editor where
  | lines (rule : LineRule) (separator : Text) (delay : Nat)
  | sections (editor : SectionEditor)

def Editor.separator : Editor → Text
  | .lines _ separator _ => separator
  | .sections editor => editor.separator

-- An editor with what it remembers.
structure Stage where
  editor : Editor
  memory : Memory

-- What the turns of a stage go to.
inductive Activity where
  | waiting (turns : Nat)
  | editing (tree : TreeEdit)

def Activity.ofTree? : Option TreeEdit → Activity
  | none => .waiting 0
  | some t => .editing t

-- One edit of one stage: its output, the stage after it and what it was busy with.
structure StageEdit where
  output : Except EditError (Option Text)
  stage : Stage
  activity : Activity

namespace Stage

def fresh (editor : Editor) : Stage := ⟨editor, .fresh⟩

def edit (stage : Stage) (text : Text) : StageEdit :=
  match stage.editor with
  | .lines rule separator delay =>
      let e := rule.edit separator text
      ⟨e.output, { stage with memory.lineNumber := e.lineNumber }, .waiting (delay * e.answers)⟩
  | .sections editor =>
      let e := editor.edit stage.memory text
      ⟨e.result.map fun tree => some (tree.render editor.separator),
        { stage with memory := e.memory }, .ofTree? e.activity⟩

-- A stage that was given no text.
def idle (stage : Stage) : Stage × Activity := (stage, .waiting 0)

end Stage

-- Stages are fed one after another, each with the output of the one before. A stage
-- without output ends the edit; so does a failure, which is the failure of the chain.
def editChain : List Stage → Text → Except EditError (Option Text) × List (Stage × Activity)
  | [], text => (.ok (some text), [])
  | stage :: rest, text =>
      let e := stage.edit text
      match e.output with
      | .error error => (.error error, (e.stage, e.activity) :: rest.map Stage.idle)
      | .ok none => (.ok none, (e.stage, e.activity) :: rest.map Stage.idle)
      | .ok (some output) =>
          let (final, others) := editChain rest output
          (final, (e.stage, e.activity) :: others)

end Sections
