import Sections.Json
import Sections.Number.Reader

namespace Sections.Json

def isSpace (c : CodeUnit) : Bool :=
  c = ' '.unit || c = '\t'.unit || c = '\n'.unit || c = '\r'.unit

def skipSpace (text : Text) : Text := text.dropWhile isSpace

-- What follows a unit, if it comes next.
def next? (c : CodeUnit) (text : Text) : Option Text := Number.behind? c (skipSpace text)

-- Letters after a backslash, and what they stand for.
def escapes : List (Char × Char) :=
  [('"', '"'), ('\\', '\\'), ('/', '/'), ('b', Char.ofNat 8), ('f', Char.ofNat 12), ('n', '\n'),
    ('r', '\r'), ('t', '\t')]

def escaped? (c : CodeUnit) : Option CodeUnit :=
  (escapes.find? (·.1.unit = c)).map (·.2.unit)

-- The text up to the closing quote, which is consumed, and what follows it. The opening quote is
-- already consumed. Units below the space must be escaped, and any unit may be written by its
-- number.
def quoted? : Text → Option (Text × Text)
  | [] => none
  | c :: rest =>
      if c = '"'.unit then some ([], rest)
      else if c = '\\'.unit then
        match rest with
        | [] => none
        | u :: rest =>
            if u = 'u'.unit then
              match rest with
              | a :: b :: c :: d :: rest =>
                  (Number.natural? 16 [a, b, c, d]).bind fun n =>
                    (quoted? rest).map fun read => (UInt16.ofNat n :: read.1, read.2)
              | _ => none
            else
              (escaped? u).bind fun e => (quoted? rest).map fun read => (e :: read.1, read.2)
      else if c.toNat < 0x20 then none
      else (quoted? rest).map fun read => (c :: read.1, read.2)

def isNumberUnit (c : CodeUnit) : Bool :=
  Number.isDigit c || c = '-'.unit || c = '+'.unit || c = '.'.unit || c = 'e'.unit || c = 'E'.unit

-- A magnitude has a whole part without a leading zero, and digits after its point.
def magnitude? (negative : Bool) (text : Text) : Option Number :=
  match Number.decimal? text with
  | none => none
  | some d =>
      if d.whole.isEmpty || (1 < d.whole.length && d.whole.head? = some '0'.unit) ||
          (d.fraction.isEmpty && text.any (· = '.'.unit)) then none
      else some (d.toNumber negative)

def number? (text : Text) : Option Number :=
  match Number.behind? '-'.unit text with
  | some rest => magnitude? true rest
  | none => magnitude? false text

def literal? (text : Text) : Option (Json × Text) :=
  if Text.startsWith text "null".units then some (.null, text.drop 4)
  else if Text.startsWith text "true".units then some (.bool true, text.drop 4)
  else if Text.startsWith text "false".units then some (.bool false, text.drop 5)
  else (number? (text.takeWhile isNumberUnit)).map fun n =>
    (.number n, text.dropWhile isNumberUnit)

mutual

-- One value and what follows it. Every second call consumes a unit, so fuel of twice the length of
-- the text is never spent.
def value? : Nat → Text → Option (Json × Text)
  | 0, _ => none
  | fuel + 1, text =>
      match next? '"'.unit text, next? '['.unit text, next? '\x7b'.unit text with
      | some rest, _, _ => (quoted? rest).map fun read => (.string read.1, read.2)
      | none, some rest, _ =>
          match next? ']'.unit rest with
          | some rest => some (.array [], rest)
          | none => (items? fuel rest).map fun read => (.array read.1, read.2)
      | none, none, some rest =>
          match next? '\x7d'.unit rest with
          | some rest => some (.object [], rest)
          | none => (fields? fuel rest []).map fun read => (.object read.1, read.2)
      | none, none, none => literal? (skipSpace text)

-- The items of an array that has some, and what follows its closing bracket.
def items? : Nat → Text → Option (List Json × Text)
  | 0, _ => none
  | fuel + 1, text =>
      match value? fuel text with
      | none => none
      | some (item, rest) =>
          match next? ','.unit rest, next? ']'.unit rest with
          | some rest, _ => (items? fuel rest).map fun read => (item :: read.1, read.2)
          | none, some rest => some ([item], rest)
          | none, none => none

-- A name in quotes, the colon behind it and a value, and what follows them.
def entry? : Nat → Text → Option ((Text × Json) × Text)
  | 0, _ => none
  | fuel + 1, text =>
      match (next? '"'.unit text).bind quoted? with
      | none => none
      | some (name, rest) =>
          match next? ':'.unit rest with
          | none => none
          | some rest => (value? fuel rest).map fun read => ((name, read.1), read.2)

-- The fields of an object that has some, and what follows its closing brace.
def fields? : Nat → Text → List (Text × Json) → Option (List (Text × Json) × Text)
  | 0, _, _ => none
  | fuel + 1, text, read =>
      match entry? fuel text with
      | none => none
      | some (field, rest) =>
          match next? ','.unit rest, next? '\x7d'.unit rest with
          | some rest, _ => fields? fuel rest (put field.1 field.2 read)
          | none, some rest => some (put field.1 field.2 read, rest)
          | none, none => none

end

-- A text that is one value between spaces.
def parse? (text : Text) : Option Json :=
  match value? (2 * text.length + 2) text with
  | some (value, rest) => if (skipSpace rest).isEmpty then some value else none
  | none => none

end Sections.Json
