import Sections.Text.Blank

namespace Sections

-- What a line says about the start of a section. A section may be nameless.
inductive Opening where
  | none
  | opens (name : Option Text)
  | malformed
  deriving Repr, DecidableEq

-- The marker language of a text. A line that opens a section is never read as
-- one that closes it.
structure Vocabulary where
  opening : Text → Opening
  closes : Text → Bool

namespace Marker

def startMark : Text := "SECTION-START[".units

def endMark : Text := "SECTION-END".units

-- The name is what stands between the first start mark and the first bracket
-- after it. A start mark without that bracket is malformed.
def opening (line : Text) : Opening :=
  match Text.after? startMark line with
  | none => .none
  | some rest =>
      match Text.before? ']'.unit rest with
      | none => .malformed
      | some name => .opens (some name)

def closes (line : Text) : Bool := Text.contains line endMark

end Marker

-- Marks may stand anywhere in a line.
def Vocabulary.standard : Vocabulary := ⟨Marker.opening, Marker.closes⟩

-- Markers that the program has not, such as its users may choose.
namespace CommentMarker

def nameless : Text := "<!-- begin -->".units

def lead : Text := "<!-- begin ".units

def trail : Text := " -->".units

def closing : Text := "<!-- end -->".units

-- A name between the lead and the trail has no blanks and is not empty.
def opening (line : Text) : Opening :=
  if line = nameless then .opens none
  else if Text.startsWith line lead && Text.endsWith line trail then
    let name := (line.drop lead.length).take (line.length - (lead.length + trail.length))
    if name.isEmpty || name.any Text.isBlank then .none else .opens (some name)
  else .none

end CommentMarker

-- Marks are comments that fill their line, and a section may be nameless.
def Vocabulary.comments : Vocabulary :=
  ⟨CommentMarker.opening, fun line => line = CommentMarker.closing⟩

end Sections
