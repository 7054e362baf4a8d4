import Sections.Number
import Sections.Text.Blank

namespace Sections.Number

-- The value of a digit in a base up to sixteen, letters in either case.
def digit? (base : Nat) (c : CodeUnit) : Option Nat :=
  let value :=
    if '0'.unit ≤ c ∧ c ≤ '9'.unit then some (c.toNat - '0'.toNat)
    else if 'a'.unit ≤ c ∧ c ≤ 'f'.unit then some (c.toNat - 'a'.toNat + 10)
    else if 'A'.unit ≤ c ∧ c ≤ 'F'.unit then some (c.toNat - 'A'.toNat + 10)
    else none
  value.filter (· < base)

def isDigit (c : CodeUnit) : Bool := (digit? 10 c).isSome

-- The value of a numeral all of whose units are digits of the base.
def natural? (base : Nat) (digits : Text) : Option Nat :=
  digits.foldl (fun value c => do return (← value) * base + (← digit? base c)) (some 0)

-- A numeral of at least one digit.
def numeral? (base : Nat) (digits : Text) : Option Nat :=
  if digits.isEmpty then none else natural? base digits

-- What follows a unit, if the text starts with it.
def behind? (c : CodeUnit) : Text → Option Text
  | [] => none
  | d :: rest => if d = c then some rest else none

-- A numeral that may have a sign.
def signed? (text : Text) : Option Int :=
  match behind? '-'.unit text, behind? '+'.unit text with
  | some digits, _ => (numeral? 10 digits).map fun n => -(n : Int)
  | none, some digits => (numeral? 10 digits).map Int.ofNat
  | none, none => (numeral? 10 text).map Int.ofNat

-- The exponent part, `e` and a signed numeral, which must fill the text.
def exponent? : Text → Option Int
  | [] => some 0
  | mark :: rest => if mark = 'e'.unit ∨ mark = 'E'.unit then signed? rest else none

-- Whole digits, fraction digits and exponent of an unsigned decimal.
structure Decimal where
  whole : Text
  fraction : Text
  exponent : Int
  deriving Repr, DecidableEq

def Decimal.toNumber (d : Decimal) (negative : Bool) : Number :=
  ofDecimal negative ((natural? 10 (d.whole ++ d.fraction)).getD 0)
    (d.exponent - d.fraction.length)

-- Splits an unsigned decimal; a part may be empty, a point without digits after it
-- is accepted here.
def decimal? (text : Text) : Option Decimal :=
  let whole := text.takeWhile isDigit
  let rest := text.dropWhile isDigit
  match behind? '.'.unit rest with
  | some rest => (exponent? (rest.dropWhile isDigit)).map (⟨whole, rest.takeWhile isDigit, ·⟩)
  | none => (exponent? rest).map (⟨whole, [], ·⟩)

-- A magnitude needs a digit before or after the point.
def magnitude (negative : Bool) (text : Text) : Number :=
  if text = "Infinity".units then .infinite negative
  else
    match decimal? text with
    | none => .nan
    | some d => if d.whole.isEmpty && d.fraction.isEmpty then .nan else d.toNumber negative

-- An unsigned numeral in base sixteen, eight or two is announced by its letter.
def inBase (base : Nat) (digits : Text) : Number :=
  match numeral? base digits with
  | none => .nan
  | some n => ofNat n

-- The base that a letter behind a zero announces.
def baseOf? (c : CodeUnit) : Option Nat :=
  if c = 'x'.unit ∨ c = 'X'.unit then some 16
  else if c = 'o'.unit ∨ c = 'O'.unit then some 8
  else if c = 'b'.unit ∨ c = 'B'.unit then some 2
  else none

def unsigned (text : Text) : Number :=
  match text with
  | zero :: c :: rest =>
      match if zero = '0'.unit then baseOf? c else none with
      | some base => inBase base rest
      | none => magnitude false text
  | _ => magnitude false text

-- Reads a text between blanks as a number; anything but a number is not a number,
-- and nothing at all is zero.
def ofText (text : Text) : Number :=
  let text := Text.trim text
  match behind? '-'.unit text, behind? '+'.unit text with
  | some rest, _ => magnitude true rest
  | none, some rest => magnitude false rest
  | none, none => if text.isEmpty then zero false else unsigned text

end Sections.Number
