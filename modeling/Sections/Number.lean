import Sections.Text

namespace Sections

-- The numbers of 64-bit binary floating point. A finite number is its mantissa
-- times two to the exponent. Mantissas stay below 2 ^ 53, and below 2 ^ 52 only at
-- the least exponent -1074, so every number has one form.
inductive Number where
  | nan
  | infinite (negative : Bool)
  | finite (negative : Bool) (mantissa : Nat) (exponent : Int)
  deriving Repr, DecidableEq, Inhabited

namespace Number

def zero (negative : Bool) : Number := .finite negative 0 (-1074)

-- The quotient rounded to the nearest natural number, a tie to the even one.
def roundHalfEven (num den : Nat) : Nat :=
  let quotient := num / den
  let twice := 2 * (num % den)
  if den < twice ∨ (twice = den ∧ quotient % 2 = 1) then quotient + 1 else quotient

-- The quotient of num and den * 2 ^ shift, as a fraction.
def scaled (num den : Nat) (shift : Int) : Nat × Nat :=
  (num * Nat.pow 2 (-shift).toNat, den * Nat.pow 2 shift.toNat)

-- The greatest power of two that is at most num / den, for positive num and den.
def binaryExponent (num den : Nat) : Int :=
  let estimate : Int := (num.log2 : Int) - (den.log2 : Int)
  let (n, d) := scaled num den estimate
  if d ≤ n then estimate else estimate - 1

-- The nearest number to a fraction, a tie to the even mantissa. Fractions from
-- halfway above the greatest finite number on are infinite.
def ofRatio (negative : Bool) (num den : Nat) : Number :=
  if num = 0 then zero negative
  else
    let exponent := max (binaryExponent num den - 52) (-1074)
    let (n, d) := scaled num den exponent
    let mantissa := roundHalfEven n d
    let (mantissa, exponent) :=
      if mantissa = Nat.pow 2 53 then (Nat.pow 2 52, exponent + 1) else (mantissa, exponent)
    if 971 < exponent then .infinite negative else .finite negative mantissa exponent

def decimalLength (n : Nat) : Nat := (Nat.toDigits 10 n).length

-- The nearest number to digits * 10 ^ exponent. Exponents far out of range are
-- settled without computing the power.
def ofDecimal (negative : Bool) (digits : Nat) (exponent : Int) : Number :=
  let size := (decimalLength digits : Int) + exponent
  if digits = 0 then zero negative
  else if 400 < size then .infinite negative
  else if size < -400 then zero negative
  else ofRatio negative (digits * Nat.pow 10 exponent.toNat) (Nat.pow 10 (-exponent).toNat)

def ofNat (n : Nat) : Number := ofDecimal false n 0

-- The natural number that is the magnitude of the number, if there is one.
def wholeMagnitude? : Number → Option Nat
  | .finite _ mantissa exponent =>
      if mantissa % Nat.pow 2 (-exponent).toNat = 0 then
        some (mantissa / Nat.pow 2 (-exponent).toNat * Nat.pow 2 exponent.toNat)
      else none
  | _ => none

-- Below zero. Negative zero is not.
def isNegative : Number → Bool
  | .nan => false
  | .infinite negative => negative
  | .finite negative mantissa _ => negative && mantissa ≠ 0

-- Above zero.
def isPositive : Number → Bool
  | .nan => false
  | .infinite negative => !negative
  | .finite negative mantissa _ => !negative && mantissa ≠ 0

-- The natural number that the number is, if it is one. Both zeros are zero.
def toNat? (n : Number) : Option Nat :=
  if n.isNegative then none else n.wholeMagnitude?

def isZero : Number → Bool
  | .finite _ mantissa _ => mantissa = 0
  | _ => false

def signed (negative : Bool) (magnitude : Nat) : Int :=
  if negative then -(magnitude : Int) else magnitude

-- The exact sum of two finite numbers, rounded to the nearest number. It is a negative
-- zero only if both are.
def add : Number → Number → Number
  | .nan, _ => .nan
  | _, .nan => .nan
  | .infinite a, .infinite b => if a = b then .infinite a else .nan
  | .infinite a, _ => .infinite a
  | _, .infinite b => .infinite b
  | .finite a m e, .finite b n f =>
      let least := min e f
      let sum := signed a (m * Nat.pow 2 (e - least).toNat) +
        signed b (n * Nat.pow 2 (f - least).toNat)
      if sum = 0 then zero (a && b)
      else
        let (num, den) := scaled sum.natAbs 1 (-least)
        ofRatio (sum < 0) num den

-- The number without its fraction. What is not a number counts as zero, and an infinite
-- number has no whole part.
def truncate? : Number → Option Int
  | .nan => some 0
  | .infinite _ => none
  | .finite negative mantissa exponent =>
      some (signed negative
        (mantissa * Nat.pow 2 exponent.toNat / Nat.pow 2 (-exponent).toNat))

end Number

end Sections
