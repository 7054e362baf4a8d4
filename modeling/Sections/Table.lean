import Sections.Text

namespace Sections

-- Texts by name, in the order in which the names arrived. No name stands twice.
abbrev Table := List (Text × Text)

namespace Table

def get? (name : Text) : Table → Option Text
  | [] => none
  | (key, value) :: rest => if key = name then some value else get? name rest

def keys (table : Table) : List Text := table.map (·.1)

-- Writes a value. A new name goes to the end, a present one keeps its place.
def put (name value : Text) : Table → Table
  | [] => [(name, value)]
  | (key, old) :: rest =>
      if key = name then (key, value) :: rest else (key, old) :: put name value rest

-- Writes a value only where the name is absent.
def putNew (name value : Text) (table : Table) : Table :=
  if (get? name table).isSome then table else table ++ [(name, value)]

-- The last value of a name wins.
def ofList (entries : List (Text × Text)) : Table :=
  entries.foldl (fun table entry => put entry.1 entry.2 table) []

end Table

end Sections
