import Sections.Edit.SectionEditor

namespace Sections

-- The text with the heads of named sections replaced, the names of the replacements
-- that met no section and the names of all sections met.
structure Replaced where
  text : Text
  unmatched : List Text
  present : List Text
  deriving Repr, DecidableEq

def unmatchedNames (replacements : Table) (memory : Memory) : List Text :=
  Text.sorted (replacements.keys.filter fun name => !memory.isPresent name)

def Options.replace (options : Options) (replacements : Table) (text : Text) :
    Except EditError Replaced :=
  let e := (options.editor (.replacing options.separator replacements)).edit .fresh text
  match e.result with
  | .error error => .error error
  | .ok tree =>
      .ok ⟨tree.render options.separator, unmatchedNames replacements e.memory,
        e.memory.presentNames⟩

end Sections
