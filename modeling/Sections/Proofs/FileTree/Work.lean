import Sections.FileTree.Work

namespace Sections.FileWork

variable {δ ε α β γ : Type}

-- Work that leaves every file as it is, whether it fails or not.
def Reads (work : FileWork ε α) : Prop := ∀ tree, (work.perform tree).2 = tree

def Gives (work : FileWork ε α) (tree : FileTree) (value : α) : Prop :=
  (work.perform tree).1 = .ok value

theorem reads_pure (value : α) : (pure value : FileWork ε α).Reads := fun _ => rfl

theorem reads_throw (e : ε) : (throw e : FileWork ε α).Reads := fun _ => rfl

theorem reads_get : (get : FileWork ε FileTree).Reads := fun _ => rfl

theorem reads_ofExcept (failure : δ → ε) (result : Except δ α) :
    (ofExcept failure result).Reads := fun tree => by rw [perform_ofExcept]

theorem gives_ofExcept {failure : δ → ε} {result : Except δ α} {tree : FileTree} {value : α} :
    (ofExcept failure result).Gives tree value ↔ result = .ok value := by
  rw [Gives, perform_ofExcept]
  cases result with
  | error e => constructor <;> intro h <;> contradiction
  | ok given =>
      constructor <;> intro h <;> exact congrArg Except.ok (Except.ok.inj h)

namespace Reads

variable {work : FileWork ε α} {tree : FileTree}

-- Two works that begin by reading the same fail alike and without a trace, or go on with the same
-- value and the same files.
theorem perform_bind₂ (h : work.Reads) (first : α → FileWork ε β) (second : α → FileWork ε γ)
    {R : Except ε β × FileTree → Except ε γ × FileTree → Prop}
    (failed : ∀ e, R (.error e, tree) (.error e, tree))
    (given : ∀ value, work.Gives tree value →
      R ((first value).perform tree) ((second value).perform tree)) :
    R ((work >>= first).perform tree) ((work >>= second).perform tree) := by
  have hkeeps := h tree
  rw [FileWork.perform_bind, FileWork.perform_bind]
  unfold Gives at given
  cases hw : work.perform tree with
  | mk result after =>
      rw [hw] at hkeeps given
      obtain rfl : after = tree := hkeeps
      cases result with
      | error e => exact failed e
      | ok value => exact given value rfl

theorem perform_bind (h : work.Reads) (next : α → FileWork ε β)
    {P : Except ε β × FileTree → Prop} (failed : ∀ e, P (.error e, tree))
    (given : ∀ value, work.Gives tree value → P ((next value).perform tree)) :
    P ((work >>= next).perform tree) :=
  h.perform_bind₂ next next (R := fun outcome _ => P outcome) failed given

theorem bind (h : work.Reads) {next : α → FileWork ε β} (hn : ∀ value, (next value).Reads) :
    (work >>= next).Reads := fun tree =>
  h.perform_bind next (P := fun outcome => outcome.2 = tree) (fun _ => rfl) fun value _ =>
    hn value tree

end Reads

-- Work that may fail, but never with this error.
def Avoids (work : FileWork ε α) (e : ε) : Prop := ∀ tree, (work.perform tree).1 ≠ .error e

section Avoids

variable {e : ε}

theorem avoids_pure (value : α) : (pure value : FileWork ε α).Avoids e := by
  intro tree h
  contradiction

theorem avoids_get : (get : FileWork ε FileTree).Avoids e := by
  intro tree h
  contradiction

theorem avoids_write {failure : FileError → ε} (h : ∀ cause, failure cause ≠ e) (path text : Text) :
    (write failure path text).Avoids e := by
  intro tree he
  cases hw : tree.writeText path text with
  | ok after =>
      rw [perform_write_of_ok hw] at he
      contradiction
  | error cause =>
      rw [perform_write_of_error hw] at he
      exact h cause (Except.error.inj he)

theorem avoids_throw {other : ε} (h : other ≠ e) : (throw other : FileWork ε α).Avoids e := by
  intro tree he
  exact h (Except.error.inj he)

theorem avoids_ofExcept {failure : δ → ε} (h : ∀ cause, failure cause ≠ e)
    (result : Except δ α) : (ofExcept failure result).Avoids e := by
  cases result with
  | ok value => exact avoids_pure value
  | error cause => exact avoids_throw (h cause)

theorem Avoids.bind {work : FileWork ε α} {next : α → FileWork ε β} (h : work.Avoids e)
    (hn : ∀ value, (next value).Avoids e) : (work >>= next).Avoids e := by
  intro tree
  have hw := h tree
  rw [FileWork.perform_bind]
  cases hp : work.perform tree with
  | mk result after =>
      rw [hp] at hw
      cases result with
      | ok value => exact hn value after
      | error other => exact fun he => hw (congrArg Except.error (Except.error.inj he))

end Avoids

end Sections.FileWork
