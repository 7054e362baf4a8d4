import Sections.Number.Notation

namespace Sections

-- The values of a data document. The fields of an object stand in the order in which
-- their names first came up.
inductive Json where
  | null
  | bool (value : Bool)
  | number (value : Number)
  | string (value : Text)
  | array (items : List Json)
  | object (fields : List (Text × Json))
  deriving Repr, Inhabited

namespace Json

def ofNat (n : Nat) : Json := .number (.ofNat n)

def ofTexts (texts : List Text) : Json := .array (texts.map .string)

def lookup (name : Text) : List (Text × Json) → Option Json
  | [] => none
  | (key, value) :: rest => if key = name then some value else lookup name rest

-- Writes a field. A later value takes the place of an earlier one.
def put (name : Text) (value : Json) : List (Text × Json) → List (Text × Json)
  | [] => [(name, value)]
  | (key, old) :: rest =>
      if key = name then (key, value) :: rest else (key, old) :: put name value rest

-- A field of an object; other values have no fields.
def field? (name : Text) : Json → Option Json
  | .object fields => lookup name fields
  | _ => none

-- Null counts as absent.
def present? : Option Json → Option Json
  | some .null => none
  | value => value

mutual

-- The plain text of a value, as messages show it: the items of an array separated by
-- commas, null items empty, and a fixed text for an object. An object with a field of
-- the name toString has no plain text, nor has an array that holds one.
def display? : Json → Option Text
  | .null => some "null".units
  | .bool value => some (if value then "true".units else "false".units)
  | .number value => some value.text
  | .string value => some value
  | .array items => (displayItems? items).map (List.intercalate [','.unit])
  | .object fields =>
      if (lookup "toString".units fields).isSome then none else some "[object Object]".units

def displayItems? : List Json → Option (List Text)
  | [] => some []
  | .null :: rest => (displayItems? rest).map ([] :: ·)
  | item :: rest =>
      (display? item).bind fun first => (displayItems? rest).map (first :: ·)

end

end Json

end Sections
