namespace Sections

-- The 16-bit units that texts are made of.
abbrev CodeUnit := UInt16

-- Lines, section names and file contents are lists of units, so every function on them is a
-- recursion and every law about them an induction. Any units make a text, halves of a pair that
-- stand alone included.
abbrev Text := List CodeUnit

instance : LawfulBEq Text := inferInstanceAs (LawfulBEq (List UInt16))

end Sections

-- The unit of a character up to U+FFFF.
def Char.unit (c : Char) : Sections.CodeUnit := UInt16.ofNat c.toNat

-- A character beyond takes two.
def Char.units (c : Char) : Sections.Text :=
  if c.toNat < 0x10000 then [c.unit]
  else [UInt16.ofNat (0xD800 + (c.toNat - 0x10000) / 0x400),
    UInt16.ofNat (0xDC00 + (c.toNat - 0x10000) % 0x400)]

def Sections.Text.ofChars (chars : List Char) : Sections.Text := chars.flatMap Char.units

-- A string as a text.
def String.units (s : String) : Sections.Text := Sections.Text.ofChars s.toList

@[simp] theorem Char.toNat_unit (c : Char) : c.unit.toNat = c.toNat % 0x10000 :=
  UInt16.toNat_ofNat'

-- Two characters up to U+FFFF have one unit only if they are the same.
@[simp] theorem Char.unit_inj {c d : Char} :
    c.unit = d.unit ↔ c.toNat % 0x10000 = d.toNat % 0x10000 := by
  rw [← UInt16.toNat_inj, Char.toNat_unit, Char.toNat_unit]

namespace Sections

namespace Text

-- What follows the first occurrence of a pattern, if the pattern occurs.
def after? (pattern : Text) : Text → Option Text
  | [] => if pattern.isEmpty then some [] else none
  | c :: rest =>
      if pattern.isPrefixOf (c :: rest) then some ((c :: rest).drop pattern.length)
      else after? pattern rest

-- What precedes the first occurrence of a unit, if the unit occurs.
def before? (stop : CodeUnit) : Text → Option Text
  | [] => none
  | c :: rest => if c = stop then some [] else (before? stop rest).map (c :: ·)

def contains (text pattern : Text) : Bool := (after? pattern text).isSome

def startsWith (text pattern : Text) : Bool := pattern.isPrefixOf text

def endsWith (text pattern : Text) : Bool := pattern.isSuffixOf text

-- The decimal numeral of a natural number.
def ofNat (n : Nat) : Text := ofChars (Nat.toDigits 10 n)

def quoted (text : Text) : Text := '"'.unit :: text ++ ['"'.unit]

-- Keeps the first of equal elements and the order of the rest.
def distinct {α : Type} [DecidableEq α] : List α → List α
  | [] => []
  | x :: xs => x :: (distinct xs).filter (· ≠ x)

end Text

end Sections
