import Mathlib.Data.List.Basic
import Sections.FileTree
import Sections.Proofs.Text.Utf8

namespace Sections.FileTree

variable {tree after : FileTree} {route : Route} {bytes old : Bytes} {path text : Text}

-- A file at one route holds new bytes, and all else is as it was.
structure Rewritten (tree : FileTree) (route : Route) (bytes : Bytes) (after : FileTree) :
    Prop where
  workingDirectory : after.workingDirectory = tree.workingDirectory
  denied : after.denied = tree.denied
  node : ∀ other, after.at? other = if other = route then some (.file bytes) else tree.at? other

-- Only the file that a path leads to is rewritten, and what is read there afterwards is the text,
-- but for halves of a pair that stand alone in it.
structure Overwritten (tree : FileTree) (path text : Text) (after : FileTree) : Prop where
  file : ∃ route old, tree.openFile .write path = .ok (route, old) ∧
    tree.Rewritten route (Text.encode text) after
  readText : after.readText path = .ok (Text.toWellFormed text)

-- The same places lead to files and directories, under the same rights, but a file may hold other
-- bytes.
structure SamePlaces (tree after : FileTree) : Prop where
  workingDirectory : after.workingDirectory = tree.workingDirectory
  denied : after.denied = tree.denied
  node : ∀ route, after.at? route = tree.at? route ∨
    ∃ old new, tree.at? route = some (.file old) ∧ after.at? route = some (.file new)

-- Only the files at some routes may hold other bytes.
structure Confined (tree : FileTree) (routes : Route → Prop) (after : FileTree) : Prop
    extends SamePlaces tree after where
  node_eq : ∀ route, ¬routes route → after.at? route = tree.at? route

-- The path leads to the file at this route, and it may be written to.
def LeadsTo (tree : FileTree) (path : Text) (route : Route) : Prop :=
  ∃ bytes, tree.openFile .write path = .ok (route, bytes)

-- The path leads to a file that may be written to.
def Writable (tree : FileTree) (path : Text) : Prop := ∃ file, tree.openFile .write path = .ok file

section Nodes

variable {nodes : List (Route × Node)}

theorem lookup_entry (other key : Route) (node : Node) :
    ((key, node) :: nodes).lookup other =
      if other = key then some node else nodes.lookup other := by
  by_cases ho : other = key
  · simp [ho]
  · simp [List.lookup_cons, ho, beq_false_of_ne ho]

theorem lookup_setFile (h : (nodes.lookup route).isSome) (other : Route) :
    (setFile route bytes nodes).lookup other =
      if other = route then some (.file bytes) else nodes.lookup other := by
  induction nodes with
  | nil => simp at h
  | cons entry rest ih =>
      obtain ⟨key, node⟩ := entry
      by_cases hk : key = route
      · subst hk
        simp only [setFile, if_true, lookup_entry]
        split <;> rfl
      · rw [lookup_entry, if_neg (Ne.symm hk)] at h
        simp only [setFile, if_neg hk, lookup_entry, ih h]
        split
        · rename_i ho
          rw [if_neg (ho ▸ hk)]
        · rfl

-- The routes that are listed stay the same.
theorem keys_setFile (h : (nodes.lookup route).isSome) :
    (setFile route bytes nodes).map (·.1) = nodes.map (·.1) := by
  induction nodes with
  | nil => simp at h
  | cons entry rest ih =>
      obtain ⟨key, node⟩ := entry
      by_cases hk : key = route
      · rw [setFile, if_pos hk]
        rfl
      · rw [lookup_entry, if_neg (Ne.symm hk)] at h
        rw [setFile, if_neg hk, List.map_cons, List.map_cons, ih h]

theorem any_setFile (h : (nodes.lookup route).isSome) (p : Route → Bool) :
    (setFile route bytes nodes).any (p ·.1) = nodes.any (p ·.1) := by
  have hmap := congrArg (List.any · p) (@keys_setFile route bytes nodes h)
  simpa only [List.any_map, Function.comp_def] using hmap

end Nodes

-- What is there without being listed is a directory.
theorem lookup_of_at?_file (h : tree.at? route = some (.file bytes)) :
    tree.nodes.lookup route = some (.file bytes) := by
  unfold at? at h
  cases hl : tree.nodes.lookup route with
  | some node =>
      rw [hl] at h
      exact h
  | none =>
      simp only [hl] at h
      split at h
      · exact absurd (Option.some.inj h) nofun
      · contradiction

theorem rewritten_setFile (h : tree.at? route = some (.file old)) (bytes : Bytes) :
    tree.Rewritten route bytes { tree with nodes := setFile route bytes tree.nodes } := by
  have hl : (tree.nodes.lookup route).isSome := by simp [lookup_of_at?_file h]
  refine ⟨rfl, rfl, fun other => ?_⟩
  simp only [at?, lookup_setFile hl, any_setFile hl]
  by_cases ho : other = route <;> simp [ho]

-- The names in the path lead somewhere, and only a directory takes a slash at the end.
theorem find_eq_ok_iff {node : Node} :
    tree.find path = .ok (route, node) ↔
      path ≠ [] ∧ (Text.encode path).length ≤ longestPath ∧
        tree.follow path (if Route.isAbsolute path then [] else tree.workingDirectory)
          (Route.names path) = .ok route ∧
        tree.at? route = some node ∧ (node = .directory ∨ path.getLast? ≠ some '/'.unit) := by
  constructor
  · intro h
    unfold find at h
    split at h
    · contradiction
    rename_i hempty
    split at h
    · contradiction
    rename_i hlong
    refine ⟨by simpa using hempty, Nat.not_lt.mp hlong, ?_⟩
    split at h
    · contradiction
    rename_i hfollow
    rw [hfollow]
    split at h
    · contradiction
    · rename_i hat
      split at h
      · contradiction
      · rename_i hslash
        obtain ⟨rfl, rfl⟩ := Prod.mk.inj (Except.ok.inj h)
        exact ⟨rfl, hat, Or.inr hslash⟩
    · rename_i hat
      obtain ⟨rfl, rfl⟩ := Prod.mk.inj (Except.ok.inj h)
      exact ⟨rfl, hat, Or.inl rfl⟩
  · rintro ⟨hempty, hlong, hfollow, hat, hslash⟩
    have hfilled : path.isEmpty = false := by simpa using hempty
    simp only [find, hfilled, if_neg (Nat.not_lt.mpr hlong), hfollow, hat]
    cases node with
    | directory => rfl
    | file bytes => simp [hslash.resolve_left nofun]

theorem locate_eq_ok_iff {node : Node} :
    tree.locate path = .ok (route, node) ↔
      path.any (·.toNat = 0) = false ∧ tree.find (Text.toWellFormed path) = .ok (route, node) := by
  unfold locate
  cases path.any (·.toNat = 0) <;> simp

theorem at?_of_locate {node : Node} (h : tree.locate path = .ok (route, node)) :
    tree.at? route = some node :=
  (find_eq_ok_iff.mp (locate_eq_ok_iff.mp h).2).2.2.2.1

namespace SamePlaces

theorem refl (tree : FileTree) : tree.SamePlaces tree := ⟨rfl, rfl, fun _ => .inl rfl⟩

theorem trans {last : FileTree} (h : tree.SamePlaces after) (h' : after.SamePlaces last) :
    tree.SamePlaces last := by
  refine ⟨h'.workingDirectory.trans h.workingDirectory, h'.denied.trans h.denied, fun route => ?_⟩
  rcases h'.node route with hsame | ⟨old, new, hold, hnew⟩
  · rw [hsame]
    exact h.node route
  · rcases h.node route with hsame | ⟨first, -, hfirst, -⟩
    · exact .inr ⟨old, new, hsame ▸ hold, hnew⟩
    · exact .inr ⟨first, new, hfirst, hnew⟩

theorem symm (h : tree.SamePlaces after) : after.SamePlaces tree := by
  refine ⟨h.workingDirectory.symm, h.denied.symm, fun route => ?_⟩
  rcases h.node route with hsame | ⟨old, new, hold, hnew⟩
  · exact .inl hsame.symm
  · exact .inr ⟨new, old, hnew, hold⟩

section Paths

variable (h : tree.SamePlaces after)

include h

theorem isDirectoryAt (route : Route) : after.isDirectoryAt route = tree.isDirectoryAt route := by
  rcases h.node route with hsame | ⟨old, new, hold, hnew⟩
  · rw [FileTree.isDirectoryAt, hsame, FileTree.isDirectoryAt]
  · rw [FileTree.isDirectoryAt, hnew, FileTree.isDirectoryAt, hold]
    rfl

theorem isSome_at? (route : Route) : (after.at? route).isSome = (tree.at? route).isSome := by
  rcases h.node route with hsame | ⟨old, new, hold, hnew⟩
  · rw [hsame]
  · rw [hnew, hold]
    rfl

-- Paths lead where they led before.
theorem follow (path : Text) (start : Route) (names : List Text) :
    after.follow path start names = tree.follow path start names := by
  induction names generalizing start with
  | nil => rfl
  | cons name rest ih => simp only [FileTree.follow, h.isDirectoryAt, h.isSome_at?, ih]

theorem locate_file (hl : tree.locate path = .ok (route, .file old))
    (hn : after.at? route = some (.file bytes)) :
    after.locate path = .ok (route, .file bytes) := by
  obtain ⟨hnull, hfind⟩ := locate_eq_ok_iff.mp hl
  obtain ⟨hempty, hlong, hfollow, -, hslash⟩ := find_eq_ok_iff.mp hfind
  refine locate_eq_ok_iff.mpr ⟨hnull, find_eq_ok_iff.mpr ⟨hempty, hlong, ?_, hn, ?_⟩⟩
  · rw [h.workingDirectory, h.follow, hfollow]
  · exact .inr (hslash.resolve_left nofun)

end Paths

end SamePlaces

theorem Rewritten.samePlaces (h : tree.Rewritten route bytes after)
    (hr : tree.at? route = some (.file old)) : tree.SamePlaces after := by
  refine ⟨h.workingDirectory, h.denied, fun other => ?_⟩
  by_cases ho : other = route
  · subst ho
    exact .inr ⟨old, bytes, hr, (h.node _).trans (if_pos rfl)⟩
  · exact .inl ((h.node other).trans (if_neg ho))

theorem openFile_eq_ok_iff {access : Access} :
    tree.openFile access path = .ok (route, bytes) ↔
      tree.locate path = .ok (route, .file bytes) ∧ tree.permits access route = true := by
  constructor
  · intro h
    unfold openFile at h
    split at h
    · rename_i hl
      split at h
      · rename_i hp
        obtain ⟨rfl, rfl⟩ := Prod.mk.inj (Except.ok.inj h)
        exact ⟨hl, hp⟩
      · contradiction
    · contradiction
    · contradiction
  · rintro ⟨hl, hp⟩
    simp only [openFile, hl, hp, if_true]

theorem readText_of_openFile (h : tree.openFile .read path = .ok (route, bytes)) :
    tree.readText path = .ok (Text.decode bytes) := by
  rw [readText, h]
  rfl

theorem exists_openFile_of_readText (h : tree.readText path = .ok text) :
    ∃ route bytes, tree.openFile .read path = .ok (route, bytes) := by
  unfold readText at h
  cases hf : tree.openFile .read path with
  | ok file => exact ⟨file.1, file.2, rfl⟩
  | error e =>
      rw [hf] at h
      contradiction

theorem SamePlaces.openFile (h : tree.SamePlaces after) {access : Access}
    (hf : tree.openFile access path = .ok (route, old))
    (hn : after.at? route = some (.file bytes)) :
    after.openFile access path = .ok (route, bytes) := by
  obtain ⟨hl, hp⟩ := openFile_eq_ok_iff.mp hf
  exact openFile_eq_ok_iff.mpr ⟨h.locate_file hl hn, by rwa [permits, h.denied]⟩

theorem Rewritten.openFile (h : tree.Rewritten route bytes after) {access : Access}
    (hf : tree.openFile access path = .ok (route, old)) :
    after.openFile access path = .ok (route, bytes) := by
  obtain ⟨hl, -⟩ := openFile_eq_ok_iff.mp hf
  exact (h.samePlaces (at?_of_locate hl)).openFile hf ((h.node _).trans (if_pos rfl))

theorem SamePlaces.leadsTo (h : tree.SamePlaces after) (hl : tree.LeadsTo path route) :
    after.LeadsTo path route := by
  obtain ⟨old, hf⟩ := hl
  have hat := at?_of_locate (openFile_eq_ok_iff.mp hf).1
  rcases h.node route with hsame | ⟨-, new, -, hnew⟩
  · exact ⟨old, h.openFile hf (hsame.trans hat)⟩
  · exact ⟨new, h.openFile hf hnew⟩

namespace Confined

variable {routes : Route → Prop}

theorem refl (tree : FileTree) (routes : Route → Prop) : tree.Confined routes tree :=
  ⟨.refl tree, fun _ _ => rfl⟩

theorem trans {last : FileTree} (h : tree.Confined routes after) (h' : after.Confined routes last) :
    tree.Confined routes last :=
  ⟨h.toSamePlaces.trans h'.toSamePlaces, fun route hr =>
    (h'.node_eq route hr).trans (h.node_eq route hr)⟩

theorem mono {wider : Route → Prop} (h : tree.Confined routes after)
    (hw : ∀ route, routes route → wider route) : tree.Confined wider after :=
  ⟨h.toSamePlaces, fun route hr => h.node_eq route fun hn => hr (hw route hn)⟩

end Confined

theorem Overwritten.confined (h : tree.Overwritten path text after) :
    tree.Confined (tree.LeadsTo path) after := by
  obtain ⟨route, old, hf, hrewritten⟩ := h.file
  have hat := at?_of_locate (openFile_eq_ok_iff.mp hf).1
  refine ⟨hrewritten.samePlaces hat, fun other ho => (hrewritten.node other).trans (if_neg ?_)⟩
  rintro rfl
  exact ho ⟨old, hf⟩

theorem writeText_of_openFile (h : tree.openFile .write path = .ok (route, old)) (text : Text) :
    ∃ after, tree.writeText path text = .ok after ∧
      tree.Rewritten route (Text.encode text) after := by
  refine ⟨_, by rw [writeText, h]; rfl, ?_⟩
  exact rewritten_setFile (at?_of_locate (openFile_eq_ok_iff.mp h).1) _

-- A file that could be read can be given another text if it may be written to, and nothing else
-- changes. Otherwise the system refuses.
theorem writeText_of_readText {before : Text} (h : tree.readText path = .ok before) (text : Text) :
    (tree.Writable path ∧ ∃ after, tree.writeText path text = .ok after ∧
        tree.Overwritten path text after) ∨
      (¬tree.Writable path ∧
        tree.writeText path text = .error (.denied (Text.toWellFormed path))) := by
  obtain ⟨route, old, hr⟩ := exists_openFile_of_readText h
  obtain ⟨hl, -⟩ := openFile_eq_ok_iff.mp hr
  cases hp : tree.permits .write route with
  | true =>
      have hw : tree.openFile .write path = .ok (route, old) := openFile_eq_ok_iff.mpr ⟨hl, hp⟩
      obtain ⟨after, hafter, hrewritten⟩ := writeText_of_openFile hw text
      refine .inl ⟨⟨_, hw⟩, after, hafter, ⟨route, old, hw, hrewritten⟩, ?_⟩
      rw [readText_of_openFile (hrewritten.openFile hr), Text.decode_encode]
  | false =>
      have hw : tree.openFile .write path = .error (.denied (Text.toWellFormed path)) := by
        simp only [FileTree.openFile, hl, hp, if_neg Bool.false_ne_true]
      refine .inr ⟨?_, by rw [writeText, hw]; rfl⟩
      rintro ⟨file, hf⟩
      rw [hw] at hf
      contradiction

end Sections.FileTree
