import Sections.Edit.Chain
import Sections.Schedule.Shared

namespace Sections

open Schedule (Entry Straggler)

-- A section edit by the place of its editor in the chain and the name of the section.
structure EditLabel where
  place : Nat
  name : Option Text
  deriving Repr, DecidableEq

-- A chain of editors that one text after another goes through. Section edits of a text that
-- failed may be under way when the next one comes.
structure Session where
  stages : List Stage
  stragglers : List (Straggler EditLabel)

-- The output of one text, what each editor was busy with for it, and all that was logged
-- meanwhile.
structure SessionEdit where
  output : Except EditError (Option Text)
  activities : List Activity
  log : List (Entry EditLabel)
  after : Session

namespace Session

def fresh (editors : List Editor) : Session := ⟨editors.map Stage.fresh, []⟩

-- The activities of the editors one after another, with the stragglers that each one leaves.
def logFrom (place : Nat) : List Activity → List (Straggler EditLabel) →
    List (Entry EditLabel) × List (Straggler EditLabel)
  | [], stragglers => ([], stragglers)
  | .waiting turns :: rest, stragglers =>
      let (log, left) := Straggler.wait turns stragglers
      let (more, last) := logFrom (place + 1) rest left
      (log ++ more, last)
  | .editing t :: rest, stragglers =>
      let (log, left) := t.strategy.runAfter (fun i => ⟨place, t.nameAt i⟩) stragglers t.tasks
      let (more, last) := logFrom (place + 1) rest left
      (log ++ more, last)

-- One text, and then a number of turns in which nothing else is done.
def edit (s : Session) (turns : Nat) (text : Text) : SessionEdit :=
  let (output, results) := editChain s.stages text
  let activities := results.map (·.2)
  let (log, left) := logFrom 0 activities s.stragglers
  let (waited, last) := Straggler.wait turns left
  ⟨output, activities, log ++ waited, ⟨results.map (·.1), last⟩⟩

def underWayAt (s : Session) (place : Nat) : Nat :=
  (s.stragglers.filter (·.label.place = place)).length

-- The most sections of one editor under way at once during an edit of the session.
def peakAt (s : Session) (e : SessionEdit) (place : Nat) : Nat :=
  Entry.peak (s.underWayAt place) (e.log.filter (·.label.place = place))

end Session

end Sections
