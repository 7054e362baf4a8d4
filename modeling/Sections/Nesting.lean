import Sections.Marker
import Sections.Section
import Sections.Text.Lines

namespace Sections

-- Why a text has no section tree. Lines are counted from one.
inductive StructureError where
  | malformed (lineNumber : Nat) (line : Text)
  | unmatchedEnd (lineNumber : Nat) (line : Text)
  | unterminated (lineNumber : Nat) (name : Option Text)
  deriving Repr, DecidableEq

namespace StructureError

def lineNumber : StructureError → Nat
  | .malformed n _ => n
  | .unmatchedEnd n _ => n
  | .unterminated n _ => n

-- A nameless section is shown as a slash.
def shownName (name : Option Text) : Text := name.getD ['/'.unit]

def message : StructureError → Text
  | .malformed n line =>
      "Malformed section start marker at line ".units ++ Text.ofNat n ++ ": ".units ++
        Text.quoted line
  | .unmatchedEnd n _ =>
      "Unexpected end of section at line ".units ++ Text.ofNat n ++
        ": no open section to close".units
  | .unterminated n name =>
      "Unexpected end of input at line ".units ++ Text.ofNat n ++ ": section ".units ++
        Text.quoted (shownName name) ++ " is not closed".units

end StructureError

-- Where the plain lines of an open section go: to the head until its first child
-- opens, to the tail for good after that.
inductive Mode where
  | head
  | tail
  deriving Repr, DecidableEq

-- A section that is not closed yet. Its children are those already closed.
structure OpenSection where
  name : Option Text
  startLine : Option Text
  mode : Mode
  head : Text
  children : List Section
  tail : Text
  deriving Repr

namespace OpenSection

def root : OpenSection := ⟨none, none, .head, [], [], []⟩

def opened (name : Option Text) (line : Text) : OpenSection := ⟨name, some line, .head, [], [], []⟩

-- Keeps the text between two siblings, with the second of them as its only child.
def wrapper (text : Text) : OpenSection := ⟨none, none, .tail, text, [], []⟩

def write (o : OpenSection) (text : Text) : OpenSection :=
  match o.mode with
  | .head => { o with head := o.head ++ text }
  | .tail => { o with tail := o.tail ++ text }

def close (o : OpenSection) (endLine : Option Text) : Section :=
  ⟨o.name, o.startLine, o.head, o.children, o.tail, endLine⟩

def attach (o : OpenSection) (child : Section) : OpenSection :=
  { o with children := o.children ++ [child] }

end OpenSection

-- The open sections, the innermost on top. The root is never closed by a line, so
-- the stack is never empty.
structure OpenStack where
  top : OpenSection
  below : List OpenSection
  deriving Repr

namespace OpenStack

def initial : OpenStack := ⟨.root, []⟩

def write (st : OpenStack) (text : Text) : OpenStack := { st with top := st.top.write text }

-- Text that already stands in the tail moves into a wrapper around the new section.
def push (st : OpenStack) (name : Option Text) (line : Text) : OpenStack :=
  if st.top.mode = .tail ∧ st.top.tail ≠ [] then
    ⟨.opened name line, .wrapper st.top.tail :: { st.top with tail := [] } :: st.below⟩
  else ⟨.opened name line, { st.top with mode := .tail } :: st.below⟩

-- A nameless section other than the root ends with its child: a wrapper holds no
-- other section.
def endWrapper (st : OpenStack) : OpenStack :=
  match st.top.name, st.below with
  | none, outer :: rest => ⟨outer.attach (st.top.close none), rest⟩
  | _, _ => st

-- No section is left to close when only the root is open.
def pop? (st : OpenStack) (line : Text) : Option OpenStack :=
  match st.below with
  | [] => none
  | parent :: rest => some (endWrapper ⟨parent.attach (st.top.close (some line)), rest⟩)

def consume (v : Vocabulary) (separator : Text) (n : Nat) (line : Text) (st : OpenStack) :
    Except StructureError OpenStack :=
  match v.opening line with
  | .malformed => .error (.malformed n line)
  | .opens name => .ok (st.push name line)
  | .none =>
      if v.closes line then
        match st.pop? line with
        | none => .error (.unmatchedEnd n line)
        | some next => .ok next
      else .ok (st.write (line ++ separator))

-- Lines from number n on.
def consumeAll (v : Vocabulary) (separator : Text) :
    Nat → List Text → OpenStack → Except StructureError OpenStack
  | _, [], st => .ok st
  | n, line :: rest, st =>
      match st.consume v separator n line with
      | .error e => .error e
      | .ok next => consumeAll v separator (n + 1) rest next

-- All sections but the root must be closed at the end of input.
def finish (lineCount : Nat) (st : OpenStack) : Except StructureError Section :=
  match st.below with
  | [] => .ok (st.top.close none)
  | _ :: _ => .error (.unterminated lineCount st.top.name)

end OpenStack

namespace Section

def ofLines (v : Vocabulary) (separator : Text) (ls : List Text) : Except StructureError Section :=
  match OpenStack.consumeAll v separator 1 ls .initial with
  | .error e => .error e
  | .ok st => st.finish ls.length

-- The section tree of a text, or the first thing wrong with its markers.
def parse (v : Vocabulary) (separator : Text) (text : Text) : Except StructureError Section :=
  ofLines v separator (Text.lines text)

end Section

end Sections
