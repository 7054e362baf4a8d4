import Sections.Text.Letters

namespace Sections

abbrev Bytes := List UInt8

namespace Text

-- The bytes of one character, the leading byte first.
def encodeChar (c : Char) : Bytes :=
  let n := c.toNat
  if n < 0x80 then [UInt8.ofNat n]
  else if n < 0x800 then [UInt8.ofNat (0xC0 + n / 0x40), UInt8.ofNat (0x80 + n % 0x40)]
  else if n < 0x10000 then
    [UInt8.ofNat (0xE0 + n / 0x1000), UInt8.ofNat (0x80 + n / 0x40 % 0x40),
     UInt8.ofNat (0x80 + n % 0x40)]
  else
    [UInt8.ofNat (0xF0 + n / 0x40000), UInt8.ofNat (0x80 + n / 0x1000 % 0x40),
     UInt8.ofNat (0x80 + n / 0x40 % 0x40), UInt8.ofNat (0x80 + n % 0x40)]

def encodeChars (chars : List Char) : Bytes := chars.flatMap encodeChar

def encode (text : Text) : Bytes := encodeChars (chars text)

-- A character of which some bytes are still missing: the bits read so far, the
-- number of bytes to come and the range that the next byte must fall in.
structure Partial where
  bits : Nat
  missing : Nat
  low : Nat
  high : Nat
  deriving Repr, DecidableEq

-- The first byte of a character fixes its length. The range of the second byte
-- keeps out overlong forms, surrogates and values above U+10FFFF.
def openByte (b : Nat) : List Char × Option Partial :=
  if b < 0x80 then ([Char.ofNat b], none)
  else if 0xC2 ≤ b ∧ b ≤ 0xDF then ([], some ⟨b - 0xC0, 1, 0x80, 0xBF⟩)
  else if 0xE0 ≤ b ∧ b ≤ 0xEF then
    ([], some ⟨b - 0xE0, 2, if b = 0xE0 then 0xA0 else 0x80, if b = 0xED then 0x9F else 0xBF⟩)
  else if 0xF0 ≤ b ∧ b ≤ 0xF4 then
    ([], some ⟨b - 0xF0, 3, if b = 0xF0 then 0x90 else 0x80, if b = 0xF4 then 0x8F else 0xBF⟩)
  else ([replacement], none)

-- A byte out of range ends the unfinished character, and is read afresh.
def continueByte (p : Partial) (b : Nat) : List Char × Option Partial :=
  if p.low ≤ b ∧ b ≤ p.high then
    let bits := p.bits * 0x40 + (b - 0x80)
    if p.missing = 1 then ([Char.ofNat bits], none)
    else ([], some ⟨bits, p.missing - 1, 0x80, 0xBF⟩)
  else
    let (chars, next) := openByte b
    (replacement :: chars, next)

def decodeFrom : Option Partial → Bytes → List Char
  | none, [] => []
  | some _, [] => [replacement]
  | state, b :: bytes =>
      let (chars, next) :=
        match state with
        | none => openByte b.toNat
        | some p => continueByte p b.toNat
      chars ++ decodeFrom next bytes

-- Every byte sequence decodes: ill-formed stretches, each as long as it could
-- have started a character, become the replacement character.
def decode (bytes : Bytes) : Text := ofChars (decodeFrom none bytes)

end Text

end Sections
