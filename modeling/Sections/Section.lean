import Sections.Text

namespace Sections

-- A section with the marker lines that open and close it. The root and the
-- wrappers that keep text between siblings in place have neither name nor marker
-- lines. Head and tail hold their separators, marker lines do not.
structure Section where
  name : Option Text
  startLine : Option Text
  head : Text
  children : List Section
  tail : Text
  endLine : Option Text
  deriving Repr, Inhabited

namespace Section

def anonymous (s : Section) : Bool := s.name.isNone

end Section

-- A marker line followed by the separator, or nothing.
def markerText (separator : Text) : Option Text → Text
  | none => []
  | some line => line ++ separator

mutual

-- Start line, head, children, tail, end line.
def Section.render (separator : Text) : Section → Text
  | ⟨_, startLine, head, children, tail, endLine⟩ =>
      markerText separator startLine ++ head ++ renderAll separator children ++ tail ++
        markerText separator endLine

def renderAll (separator : Text) : List Section → Text
  | [] => []
  | child :: rest => child.render separator ++ renderAll separator rest

end

mutual

-- The first section of the name in document order, the section itself included.
def Section.find? (wanted : Text) : Section → Option Section
  | ⟨name, startLine, head, children, tail, endLine⟩ =>
      if name = some wanted then some ⟨name, startLine, head, children, tail, endLine⟩
      else findIn? wanted children

def findIn? (wanted : Text) : List Section → Option Section
  | [] => none
  | child :: rest =>
      match child.find? wanted with
      | some found => some found
      | none => findIn? wanted rest

end

-- The text that an edit may change.
structure Content where
  head : Text
  tail : Text
  deriving Repr, DecidableEq

-- A section as an edit sees it.
structure Slot where
  name : Option Text
  content : Content
  deriving Repr, DecidableEq

mutual

-- Every section once, a section before its children, children in order.
def Section.slots : Section → List Slot
  | ⟨name, _, head, children, tail, _⟩ => ⟨name, ⟨head, tail⟩⟩ :: slotsOf children

def slotsOf : List Section → List Slot
  | [] => []
  | child :: rest => child.slots ++ slotsOf rest

end

mutual

-- Puts new contents, listed in the order of the slots, into a section. What is
-- left of the list is returned; a section for which nothing is left stays as it is.
def Section.refill : Section → List Content → Section × List Content
  | ⟨name, startLine, head, children, tail, endLine⟩, [] =>
      (⟨name, startLine, head, children, tail, endLine⟩, [])
  | ⟨name, startLine, _, children, _, endLine⟩, content :: contents =>
      let filled := refillAll children contents
      (⟨name, startLine, content.head, filled.1, content.tail, endLine⟩, filled.2)

def refillAll : List Section → List Content → List Section × List Content
  | [], contents => ([], contents)
  | child :: rest, contents =>
      let first := child.refill contents
      let others := refillAll rest first.2
      (first.1 :: others.1, others.2)

end

end Sections
