import Sections.Text

namespace Sections.Text

def isHigh (u : CodeUnit) : Bool := 0xD800 ≤ u.toNat && u.toNat < 0xDC00

def isLow (u : CodeUnit) : Bool := 0xDC00 ≤ u.toNat && u.toNat < 0xE000

-- A character of a text, or a half of a pair that stands alone.
inductive Letter where
  | char (c : Char)
  | half (u : CodeUnit)
  deriving Repr, DecidableEq

def Letter.units : Letter → Text
  | .char c => c.units
  | .half u => [u]

-- A unit that is not read together with the one behind it.
def Letter.single (u : CodeUnit) : Letter :=
  if isHigh u || isLow u then .half u else .char (Char.ofNat u.toNat)

def Letter.pair (high low : CodeUnit) : Letter :=
  .char (Char.ofNat (0x10000 + (high.toNat - 0xD800) * 0x400 + (low.toNat - 0xDC00)))

-- A high half directly before a low one makes a character with it.
def letters : Text → List Letter
  | [] => []
  | [u] => [.single u]
  | u :: v :: rest =>
      if isHigh u && isLow v then .pair u v :: letters rest else .single u :: letters (v :: rest)

-- Stands for what is no character.
def replacement : Char := Char.ofNat 0xFFFD

def Letter.toChar : Letter → Char
  | .char c => c
  | .half _ => replacement

-- The characters of a text.
def chars (text : Text) : List Char := (letters text).map Letter.toChar

-- The text with every half that stands alone replaced.
def toWellFormed (text : Text) : Text := ofChars (chars text)

def hexDigit (n : Nat) : CodeUnit := UInt16.ofNat (if n < 10 then 48 + n else 87 + n)

-- A unit as it is written by its number.
def numbered (n : Nat) : Text :=
  ['\\'.unit, 'u'.unit, hexDigit (n / 0x1000), hexDigit (n / 0x100 % 16), hexDigit (n / 16 % 16),
    hexDigit (n % 16)]

end Sections.Text
