import Sections.Number.Notation
import Sections.Section
import Sections.Text.UnitOrder

namespace Sections

-- The named sections below a section.
structure Outline where
  name : Text
  children : List Outline
  deriving Repr, Inhabited

mutual

-- A nameless section adds no entry and no level: its children take its place.
def Section.outline : Section → List Outline
  | ⟨_, _, _, children, _, _⟩ => outlineOf children

def outlineOf : List Section → List Outline
  | [] => []
  | child :: rest =>
      (match child.name with
        | none => child.outline
        | some name => [⟨name, child.outline⟩]) ++ outlineOf rest

end

namespace Outline

mutual

-- The names in document order with their levels, each one level below its parent.
def entries (level : Nat) : Outline → List (Nat × Text)
  | ⟨name, children⟩ => (level, name) :: entriesOf (level + 1) children

def entriesOf (level : Nat) : List Outline → List (Nat × Text)
  | [] => []
  | entry :: rest => entry.entries level ++ entriesOf level rest

end

-- Two spaces for each level.
def indent (level : Nat) : Text := List.replicate (2 * level) ' '.unit

-- One line for each entry.
def lines (outline : List Outline) : List Text :=
  (entriesOf 0 outline).map fun entry => indent entry.1 ++ entry.2

inductive Error where
  | badDepth (depth : Number)
  | tooLong
  deriving Repr, DecidableEq

def Error.message : Error → Text
  | .badDepth depth => "Invalid count value: ".units ++ depth.text
  | .tooLong => "Invalid string length".units

-- The units that a text may have. The limit matters here because the depth is a number of the
-- caller's: a short outline can ask for any indentation. Elsewhere, as where sections are rendered
-- and documents are printed, a text is about as long as what it is made from, and no limit is
-- modelled.
def longest : Nat := Nat.pow 2 29 - 24

-- A line at a depth that need not be whole: its fraction does not count. A depth of minus
-- one or less has no indentation.
def lineAt (depth : Number) (name : Text) : Except Error Text :=
  match depth.truncate? with
  | none => .error (.badDepth depth)
  | some level =>
      if level < 0 then .error (.badDepth depth)
      else if longest < 2 * level.toNat + name.length then .error .tooLong
      else .ok (indent level.toNat ++ name)

-- The depth some levels down, one added at a time.
def deeper (depth : Number) : Nat → Number
  | 0 => depth
  | levels + 1 => (deeper depth levels).add (.ofNat 1)

-- The lines of an outline that starts at a depth, or what is wrong with the first bad one.
def format (depth : Number) (outline : List Outline) : Except Error (List Text) :=
  (entriesOf 0 outline).mapM fun entry => lineAt (deeper depth entry.1) entry.2

end Outline

end Sections
