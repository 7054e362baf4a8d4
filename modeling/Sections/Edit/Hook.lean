import Sections.Edit.Error
import Sections.Table

namespace Sections

-- What is done to each section before the text is written again. An edit sees the
-- name, head and tail of one section and gives its new head and tail, or fails. The
-- delay of the edit, by the place of the section in document order, is a number of
-- turns; without a delay the edit is done within its call.
structure Hook where
  delay : Nat → Slot → Option Nat
  edit : Slot → Except EditError Content

namespace Hook

-- Changes nothing.
def identity : Hook := ⟨fun _ _ => none, fun slot => .ok slot.content⟩

-- A replacement ends with the separator, unless it is empty.
def terminated (separator content : Text) : Text :=
  if content.isEmpty || Text.endsWith content separator then content else content ++ separator

-- Every section whose name is in the table gets that text as its head.
def replacing (separator : Text) (replacements : Table) : Hook where
  delay _ _ := none
  edit slot :=
    match slot.name.bind replacements.get? with
    | none => .ok slot.content
    | some content => .ok { slot.content with head := terminated separator content }

-- Turns to wait by section name, nameless sections under a slash. A star gives the
-- turns of all other names.
def delayFrom (turns : List (Text × Nat)) (slot : Slot) : Nat :=
  match turns.lookup (StructureError.shownName slot.name) with
  | some n => n
  | none => (turns.lookup ['*'.unit]).getD 0

-- A hook that the program has not, such as its users may write: it adds a line to the head and the
-- tail of every named section, sets the head of the nameless ones, and refuses the sections of some
-- names.
structure Stamp where
  turns : Option (List (Text × Nat))
  refused : List Text
  marked : Bool
  body : Option Text
  deriving Repr

def stamping (separator : Text) (stamp : Stamp) : Hook where
  delay _ slot := stamp.turns.map (delayFrom · slot)
  edit slot :=
    match slot.name with
    | none => .ok { slot.content with head := stamp.body.getD slot.content.head }
    | some name =>
        if name ∈ stamp.refused then .error (.sectionRefused name)
        else if stamp.marked then
          .ok ⟨slot.content.head ++ name ++ " Head".units ++ separator,
            slot.content.tail ++ name ++ " Tail".units ++ separator⟩
        else .ok slot.content

end Hook

end Sections
