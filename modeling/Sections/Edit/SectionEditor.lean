import Sections.Edit.Hook
import Sections.Schedule.Strategy
import Sections.Text.UnitOrder

namespace Sections

open Schedule (Run Strategy)

-- The edits of one section tree: its sections in document order, the task of each and how
-- the tasks are run, their run, and the tree with the edits that were done before it settled.
structure TreeEdit where
  slots : List Slot
  tasks : List (Schedule.Task EditError)
  strategy : Strategy
  run : Run EditError
  tree : Section

namespace TreeEdit

def failure? (hook : Hook) (slot : Slot) : Option EditError :=
  match hook.edit slot with
  | .ok _ => none
  | .error e => some e

-- One task for every section, the root included.
def tasksFor (hook : Hook) (slots : List Slot) : List (Schedule.Task EditError) :=
  slots.zipIdx.map fun entry => ⟨hook.delay entry.2 entry.1, failure? hook entry.1⟩

def edited (hook : Hook) (slot : Slot) : Content :=
  match hook.edit slot with
  | .ok content => content
  | .error _ => slot.content

def contents (hook : Hook) (done : List Nat) (slots : List Slot) : List Content :=
  slots.zipIdx.map fun entry => if entry.2 ∈ done then edited hook entry.1 else entry.1.content

-- A single section needs no strategy.
def strategyFor (strategy : Strategy) (slots : List Slot) : Strategy :=
  if 1 < slots.length then strategy else .sequential

def ofTree (strategy : Strategy) (hook : Hook) (root : Section) : TreeEdit :=
  let slots := root.slots
  let tasks := tasksFor hook slots
  let strategy := strategyFor strategy slots
  let run := strategy.run tasks
  ⟨slots, tasks, strategy, run, (root.refill (contents hook run.finishedInTime slots)).1⟩

def nameAt (t : TreeEdit) (i : Nat) : Option Text := t.slots[i]?.bind Slot.name

-- Names of the sections whose edit was started.
def present (t : TreeEdit) : List Text :=
  Text.distinct (t.run.started.filterMap t.nameAt)

end TreeEdit

-- What an editor remembers: the number of the last line it was given, the sections that
-- the text under way has open, and of earlier texts the names of the sections met and the
-- tree of the last one that was edited.
structure Memory where
  lineNumber : Nat
  pending : Option OpenStack
  present : List Text
  root : Option Section
  deriving Repr

namespace Memory

def fresh : Memory := ⟨0, none, [], none⟩

def isPresent (memory : Memory) (name : Text) : Bool := memory.present.contains name

def presentNames (memory : Memory) : List Text := Text.sorted memory.present

-- The first line of a text finds only the root open.
def stack (memory : Memory) : OpenStack := memory.pending.getD .initial

end Memory

structure SectionEditor where
  vocabulary : Vocabulary
  separator : Text
  strategy : Strategy
  hook : Hook

-- The result of one edit is the edited tree.
structure SectionEdit where
  result : Except EditError Section
  memory : Memory
  activity : Option TreeEdit

namespace SectionEditor

-- Takes in one line. A line with a bad marker ends the text under way.
def feed (editor : SectionEditor) (memory : Memory) (line : Text) :
    Except StructureError Unit × Memory :=
  let n := memory.lineNumber + 1
  match memory.stack.consume editor.vocabulary editor.separator n line with
  | .error e => (.error e, { memory with lineNumber := n, pending := none })
  | .ok next => (.ok (), { memory with lineNumber := n, pending := some next })

def feedAll (editor : SectionEditor) : List Text → Memory → Except StructureError Unit × Memory
  | [], memory => (.ok (), memory)
  | line :: rest, memory =>
      match editor.feed memory line with
      | (.error e, next) => (.error e, next)
      | (.ok (), next) => editor.feedAll rest next

-- Ends the text under way. A section left open spoils it; otherwise the names met from now
-- on are those of this text, and its tree is kept once all edits are done.
def close (editor : SectionEditor) (memory : Memory) : SectionEdit :=
  match memory.stack.finish memory.lineNumber with
  | .error e => ⟨.error (.markers e), { memory with pending := none }, none⟩
  | .ok root =>
      let t := TreeEdit.ofTree editor.strategy editor.hook root
      match t.run.result with
      | .error e => ⟨.error e, { memory with pending := none, present := t.present }, some t⟩
      | .ok () => ⟨.ok t.tree, ⟨memory.lineNumber, none, t.present, some t.tree⟩, some t⟩

def edit (editor : SectionEditor) (memory : Memory) (text : Text) : SectionEdit :=
  match editor.feedAll (Text.lines text) { memory with lineNumber := 0 } with
  | (.error e, after) => ⟨.error (.markers e), after, none⟩
  | (.ok (), after) => editor.close after

-- The edited text.
def editText (editor : SectionEditor) (memory : Memory) (text : Text) : Except EditError Text :=
  (editor.edit memory text).result.map (Section.render editor.separator)

end SectionEditor

-- How texts are read and written: the separator and the scheduling of edits.
structure Options where
  separator : Text
  strategy : Strategy
  deriving Repr

namespace Options

def editor (options : Options) (hook : Hook) : SectionEditor :=
  ⟨.standard, options.separator, options.strategy, hook⟩

-- The section tree of a text.
def readTree (options : Options) (text : Text) : Except EditError Section :=
  ((options.editor .identity).edit .fresh text).result

end Options

end Sections
