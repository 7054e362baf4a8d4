import Sections.Text

namespace Sections.Text

-- The dictionary order, a shorter text before its continuations.
def unitLe : Text → Text → Bool
  | [], _ => true
  | _ :: _, [] => false
  | a :: as, b :: bs => a < b || (a = b && unitLe as bs)

-- Puts an element before the first one that is not smaller.
def insertBy {α : Type} (le : α → α → Bool) (x : α) : List α → List α
  | [] => [x]
  | y :: ys => if le x y then x :: y :: ys else y :: insertBy le x ys

-- Sorting by insertion keeps the order of equal elements.
def sortBy {α : Type} (le : α → α → Bool) (xs : List α) : List α :=
  xs.foldr (insertBy le) []

def sorted (names : List Text) : List Text := sortBy unitLe names

end Sections.Text
