import Sections.Number

namespace Sections.Number

-- The place of the leading digit: 10 ^ (k - 1) ≤ num / den < 10 ^ k. No finite number
-- below one is a power of ten, so the reciprocal decides there.
def decimalPlace (num den : Nat) : Int :=
  if den ≤ num then decimalLength (num / den) else 1 - (decimalLength (den / num) : Int)

-- One of the two neighbours of num / den on the grid 10 ^ place that reads back as
-- the number, the nearer one if both do, and the even one on a tie.
def onGrid? (n : Number) (num den : Nat) (place : Int) : Option Nat :=
  let scaledNum := num * Nat.pow 10 (-place).toNat
  let scaledDen := den * Nat.pow 10 place.toNat
  let below := scaledNum / scaledDen
  let above := below + 1
  match decide (ofDecimal false below place = n), decide (ofDecimal false above place = n) with
  | false, false => none
  | true, false => some below
  | false, true => some above
  | true, true =>
      let twice := 2 * (scaledNum % scaledDen)
      if twice < scaledDen then some below
      else if scaledDen < twice then some above
      else if below % 2 = 0 then some below else some above

-- Digits and place of the shortest decimal that reads back as mantissa * 2 ^ exponent.
-- Seventeen digits always do; the exact decimal stands in for a search that fails.
def shortest (mantissa : Nat) (exponent : Int) : Nat × Int :=
  let num := mantissa * Nat.pow 2 exponent.toNat
  let den := Nat.pow 2 (-exponent).toNat
  let place := decimalPlace num den
  let found := (List.range 17).findSome? fun (length : Nat) =>
    let grid := place - ((length : Int) + 1)
    (onGrid? (.finite false mantissa exponent) num den grid).map (·, grid)
  found.getD (if 0 ≤ exponent then (num, 0) else (mantissa * Nat.pow 5 (-exponent).toNat, exponent))

def zeros (n : Nat) : Text := List.replicate n '0'.unit

-- Lays out digits whose point stands after the given number of them: positionally
-- from 10 ^ -6 up to 10 ^ 21, otherwise with a signed exponent.
def layout (digits : Text) (point : Int) : Text :=
  let length : Int := digits.length
  if length ≤ point ∧ point ≤ 21 then digits ++ zeros (point - length).toNat
  else if 0 < point ∧ point ≤ 21 then
    digits.take point.toNat ++ '.'.unit :: digits.drop point.toNat
  else if -6 < point ∧ point ≤ 0 then '0'.unit :: '.'.unit :: zeros (-point).toNat ++ digits
  else
    let power := point - 1
    digits.take 1 ++ (if digits.length = 1 then [] else '.'.unit :: digits.drop 1) ++
      'e'.unit :: (if power < 0 then '-'.unit else '+'.unit) :: Text.ofNat power.natAbs

-- The text of a number. Both zeros are written alike.
def text : Number → Text
  | .nan => "NaN".units
  | .infinite negative => (if negative then ['-'.unit] else []) ++ "Infinity".units
  | .finite negative mantissa exponent =>
      if mantissa = 0 then ['0'.unit]
      else
        let (digits, place) := shortest mantissa exponent
        let written := Text.ofNat digits
        let kept := (written.reverse.dropWhile (· = '0'.unit)).reverse
        (if negative then ['-'.unit] else []) ++ layout kept ((written.length : Int) + place)

end Sections.Number
