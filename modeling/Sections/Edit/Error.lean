import Sections.Nesting

namespace Sections

-- Why an edit gives no text.
inductive EditError where
  | markers (e : StructureError)
  | sectionRefused (name : Text)
  | lineRefused (lineNumber : Nat)
  | endRefused (reason : Text)
  deriving Repr, DecidableEq

def EditError.message : EditError → Text
  | .markers e => e.message
  | .sectionRefused name => "cannot edit ".units ++ name
  | .lineRefused n => "boom at ".units ++ Text.ofNat n
  | .endRefused reason => reason

end Sections
