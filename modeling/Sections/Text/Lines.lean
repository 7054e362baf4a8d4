import Sections.Text

namespace Sections.Text

-- Adds a unit to the first piece.
def consFirst (c : CodeUnit) : List Text → List Text
  | [] => [[c]]
  | piece :: pieces => (c :: piece) :: pieces

-- The pieces between line terminators. A carriage return, 13, directly followed by a line feed, 10,
-- is one terminator.
def pieces : Text → List Text
  | [] => [[]]
  | 13 :: 10 :: rest => [] :: pieces rest
  | c :: rest =>
      if c = '\r'.unit ∨ c = '\n'.unit then [] :: pieces rest else consFirst c (pieces rest)

-- A terminator at the very end starts no further line, and the empty text is
-- one empty line.
def lines (text : Text) : List Text :=
  if text.isEmpty then [[]]
  else if (pieces text).getLast? = some [] then (pieces text).dropLast
  else pieces text

-- Every line followed by the separator.
def unlines (separator : Text) (ls : List Text) : Text :=
  (ls.map (· ++ separator)).flatten

end Sections.Text
