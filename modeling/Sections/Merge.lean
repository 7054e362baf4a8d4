import Sections.Heads
import Sections.Replacement

namespace Sections

-- Generated text with the heads carried over, the names carried over and the names
-- for which the generated text has no section.
structure Merged where
  text : Text
  merged : List Text
  dropped : List Text
  deriving Repr, DecidableEq

-- The existing text is read first, so its errors come first.
def Options.merge (options : Options) (generated existing : Text) : Except EditError Merged :=
  match options.readTree existing with
  | .error error => .error error
  | .ok root =>
      let kept := root.heads []
      match options.replace kept generated with
      | .error error => .error error
      | .ok replaced =>
          .ok ⟨replaced.text, replaced.present.filter fun name => (kept.get? name).isSome,
            replaced.unmatched⟩

end Sections
