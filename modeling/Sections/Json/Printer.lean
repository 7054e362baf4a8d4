import Sections.Json
import Sections.Text.Letters

namespace Sections.Json

-- Quotes, backslashes, the characters below the space and halves of a pair that stand alone are
-- escaped, all others stand for themselves.
def escape : Text.Letter → Text
  | .half u => Text.numbered u.toNat
  | .char c =>
      if c = '"' then ['\\'.unit, '"'.unit]
      else if c = '\\' then ['\\'.unit, '\\'.unit]
      else if c = '\n' then ['\\'.unit, 'n'.unit]
      else if c = '\r' then ['\\'.unit, 'r'.unit]
      else if c = '\t' then ['\\'.unit, 't'.unit]
      else if c.toNat = 8 then ['\\'.unit, 'b'.unit]
      else if c.toNat = 12 then ['\\'.unit, 'f'.unit]
      else if c.toNat < 0x20 then Text.numbered c.toNat
      else c.units

def quote (text : Text) : Text := '"'.unit :: (Text.letters text).flatMap escape ++ ['"'.unit]

-- A line break and two spaces for each level.
def newLine (depth : Nat) : Text := '\n'.unit :: List.replicate (2 * depth) ' '.unit

mutual

-- Each item and each field stands on a line of its own, two spaces deeper than its
-- container; an empty container is written on one line.
def printAt (depth : Nat) : Json → Text
  | .null => "null".units
  | .bool value => if value then "true".units else "false".units
  | .number value => value.text
  | .string value => quote value
  | .array [] => "[]".units
  | .array (item :: rest) =>
      '['.unit :: newLine (depth + 1) ++ printAt (depth + 1) item ++ printItems (depth + 1) rest ++
        newLine depth ++ [']'.unit]
  | .object [] => ['\x7b'.unit, '\x7d'.unit]
  | .object (field :: rest) =>
      '\x7b'.unit :: newLine (depth + 1) ++ printField (depth + 1) field ++
        printFields (depth + 1) rest ++ newLine depth ++ ['\x7d'.unit]

def printItems (depth : Nat) : List Json → Text
  | [] => []
  | item :: rest => ','.unit :: newLine depth ++ printAt depth item ++ printItems depth rest

def printField (depth : Nat) : Text × Json → Text
  | (name, value) => quote name ++ ':'.unit :: ' '.unit :: printAt depth value

def printFields (depth : Nat) : List (Text × Json) → Text
  | [] => []
  | field :: rest => ','.unit :: newLine depth ++ printField depth field ++ printFields depth rest

end

def print (value : Json) : Text := printAt 0 value

end Sections.Json
