import Sections.Text.Letters
import Sections.Text.Lines

namespace Sections.Text

def upperHex (n : Nat) : CodeUnit := UInt16.ofNat (if n < 10 then 48 + n else 55 + n)

-- Control characters are shown by name or number, halves of a pair that stand alone by number, the
-- quote and the backslash after a backslash.
def shownLetter (quote : Char) : Letter → Text
  | .half u => numbered u.toNat
  | .char c =>
      if c = quote || c = '\\' then '\\'.unit :: c.units
      else if c = '\n' then ['\\'.unit, 'n'.unit]
      else if c = '\r' then ['\\'.unit, 'r'.unit]
      else if c = '\t' then ['\\'.unit, 't'.unit]
      else if c.toNat = 8 then ['\\'.unit, 'b'.unit]
      else if c.toNat = 12 then ['\\'.unit, 'f'.unit]
      else if c.toNat < 0x20 || (0x7F ≤ c.toNat && c.toNat < 0xA0) then
        ['\\'.unit, 'x'.unit, upperHex (c.toNat / 16), upperHex (c.toNat % 16)]
      else c.units

-- A quote that does not occur: a single one, a double one or a grave accent, in that order.
-- A dollar before a brace counts as an accent. Where all occur it is the single one.
def quoteFor (text : Text) : Char :=
  let grave := Char.ofNat 0x60
  if '\''.unit ∉ text then '\''
  else if '"'.unit ∉ text then '"'
  else if grave.unit ∉ text ∧ !Text.contains text ['$'.unit, '\x7b'.unit] then grave
  else '\''

def shownPiece (text : Text) : Text :=
  let quote := quoteFor text
  quote.unit :: (letters text).flatMap (shownLetter quote) ++ [quote.unit]

-- A text cut behind each line feed.
def fedPieces : Text → List Text
  | [] => []
  | c :: rest => if c = '\n'.unit then [c] :: fedPieces rest else consFirst c (fedPieces rest)

-- The units that a text on one line may have, the ones that are looked at, and the ones
-- that are shown.
def lineLimit : Nat := 76

def lookLimit : Nat := 10000

def showLimit : Nat := 128

-- A text between quotes as a message shows it. A long one is shown as the sum of its lines,
-- each between quotes of its own, and cut where it gets too long.
def shown (text : Text) : Text :=
  let seen := text.take lookLimit
  let whole :=
    if lineLimit < seen.length then
      " +\n  ".units.intercalate ((fedPieces seen).map shownPiece)
    else shownPiece seen
  if showLimit < whole.length then whole.take showLimit ++ "...".units else whole

end Sections.Text
