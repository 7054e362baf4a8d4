import Sections.FileTree

namespace Sections

-- Work on files that may fail. What it changed before it failed stays changed.
abbrev FileWork (ε : Type) := ExceptT ε (StateM FileTree)

namespace FileWork

variable {δ ε α β : Type}

-- The result of the work and the files after it.
def perform (work : FileWork ε α) (tree : FileTree) : Except ε α × FileTree :=
  StateT.run (ExceptT.run work) tree

-- Gives a file a new text, unless it may not be written to.
def write (failure : FileError → ε) (path text : Text) : FileWork ε Unit := do
  let tree : FileTree ← get
  match tree.writeText path text with
  | .ok after => set after
  | .error e => throw (failure e)

-- Work that looks at no file.
def ofExcept (failure : δ → ε) : Except δ α → FileWork ε α
  | .ok value => pure value
  | .error e => throw (failure e)

@[simp] theorem perform_pure (value : α) (tree : FileTree) :
    (pure value : FileWork ε α).perform tree = (.ok value, tree) := rfl

@[simp] theorem perform_throw (e : ε) (tree : FileTree) :
    (throw e : FileWork ε α).perform tree = (.error e, tree) := rfl

@[simp] theorem perform_get (tree : FileTree) :
    (get : FileWork ε FileTree).perform tree = (.ok tree, tree) := rfl

-- A failure keeps the rest of the work from being done.
@[simp] theorem perform_bind (work : FileWork ε α) (next : α → FileWork ε β) (tree : FileTree) :
    (work >>= next).perform tree =
      match work.perform tree with
      | (.ok value, after) => (next value).perform after
      | (.error e, after) => (.error e, after) := by
  simp only [perform, ExceptT.run_bind, StateT.run_bind]
  show (match StateT.run (ExceptT.run work) tree with | (a, s) => _) = _
  rcases h : StateT.run (ExceptT.run work) tree with ⟨result, after⟩
  cases result <;> rfl

theorem perform_write_of_ok {failure : FileError → ε} {path text : Text} {tree after : FileTree}
    (h : tree.writeText path text = .ok after) :
    (write failure path text).perform tree = (.ok (), after) := by
  simp only [write, perform_bind, perform_get, h]
  rfl

theorem perform_write_of_error {failure : FileError → ε} {path text : Text} {tree : FileTree}
    {e : FileError} (h : tree.writeText path text = .error e) :
    (write failure path text).perform tree = (.error (failure e), tree) := by
  simp only [write, perform_bind, perform_get, h]
  rfl

@[simp] theorem perform_ofExcept (failure : δ → ε) (result : Except δ α) (tree : FileTree) :
    (ofExcept failure result).perform tree = (result.mapError failure, tree) := by
  cases result <;> rfl

end FileWork

end Sections
