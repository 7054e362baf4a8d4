import Sections.Proofs.Heads
import Sections.Proofs.Outline
import Sections.Proofs.Text.UnitOrder

namespace Sections

section Distinct

variable {α : Type} [DecidableEq α] {keep : α → Bool} {x : α}

theorem Text.filter_distinct_cons_of_neg (h : keep x = false) (xs : List α) :
    (distinct (x :: xs)).filter keep = (distinct xs).filter keep := by
  rw [distinct, List.filter_cons_of_neg (by simp [h]), List.filter_filter]
  refine List.filter_congr fun y _ => ?_
  by_cases hy : y = x <;> simp [hy, h]

theorem Text.filter_distinct_cons_of_pos (h : keep x = true) (xs : List α) :
    (distinct (x :: xs)).filter keep =
      x :: (distinct xs).filter fun y => keep y && decide (y ≠ x) := by
  rw [distinct, List.filter_cons_of_pos h, List.filter_filter]

end Distinct

namespace Table

variable {added table entries : Table}

-- The entries of some list whose names a table lacks: each name once and with its first value, in
-- the order in which they arrive.
structure Supplements (added table entries : Table) : Prop where
  keys : added.keys = (Text.distinct entries.keys).filter (· ∉ table.keys)
  first : ∀ entry ∈ added, get? entry.1 entries = some entry.2

theorem Supplements.notMem_keys (h : added.Supplements table entries) {entry : Text × Text}
    (he : entry ∈ added) : entry.1 ∉ table.keys := by
  have hmem : entry.1 ∈ added.keys := List.mem_map_of_mem he
  rw [h.keys] at hmem
  exact of_decide_eq_true (List.mem_filter.mp hmem).2

theorem get?_cons_of_ne {key value name : Text} (h : name ≠ key) (rest : Table) :
    get? name ((key, value) :: rest) = get? name rest := if_neg h.symm

theorem Supplements.skip (h : added.Supplements table entries) {key : Text} (hk : key ∈ table.keys)
    (value : Text) : added.Supplements table ((key, value) :: entries) := by
  refine ⟨h.keys.trans (Text.filter_distinct_cons_of_neg ?_ entries.keys).symm, fun entry he => ?_⟩
  · simpa using hk
  · have hne : entry.1 ≠ key := fun hn => h.notMem_keys he (hn ▸ hk)
    rw [get?_cons_of_ne hne, h.first entry he]

theorem Supplements.cons {key value : Text}
    (h : added.Supplements (table ++ [(key, value)]) entries) (hk : key ∉ table.keys) :
    Supplements ((key, value) :: added) table ((key, value) :: entries) := by
  have hlonger : Table.keys (table ++ [(key, value)]) = table.keys ++ [key] := by
    simp [Table.keys]
  refine ⟨?_, fun entry he => ?_⟩
  · refine Eq.trans ?_ (Text.filter_distinct_cons_of_pos ?_ entries.keys).symm
    · refine congrArg (List.cons key) (h.keys.trans (List.filter_congr fun name _ => ?_))
      simp [hlonger, not_or]
    · simpa using hk
  · rcases List.mem_cons.mp he with rfl | he
    · exact if_pos rfl
    · have hne : entry.1 ≠ key := fun hn => h.notMem_keys he (by simp [hlonger, hn])
      rw [get?_cons_of_ne hne, h.first entry he]

theorem putAllNew_eq_append (entries table : Table) :
    ∃ added : Table, putAllNew entries table = table ++ added ∧ added.Supplements table entries := by
  induction entries generalizing table with
  | nil =>
      exact ⟨[], (List.append_nil table).symm, rfl, fun _ he => absurd he List.not_mem_nil⟩
  | cons entry rest ih =>
      obtain ⟨key, value⟩ := entry
      have hstep : putAllNew ((key, value) :: rest) table =
          putAllNew rest (putNew key value table) := rfl
      by_cases hk : key ∈ table.keys
      · have hput : putNew key value table = table := if_pos (isSome_get?.mpr hk)
        obtain ⟨added, heq, hadded⟩ := ih table
        exact ⟨added, by rw [hstep, hput, heq], hadded.skip hk value⟩
      · have hput : putNew key value table = table ++ [(key, value)] :=
          if_neg (by simpa [isSome_get?] using hk)
        obtain ⟨added, heq, hadded⟩ := ih (table ++ [(key, value)])
        exact ⟨(key, value) :: added, by simp [hstep, hput, heq], hadded.cons hk⟩

end Table

mutual

-- An outline lists the names below a section in document order, those below its nameless sections
-- included.
theorem Section.names_eq_outline (s : Section) (level : Nat) :
    s.names = s.name.toList ++ (Outline.entriesOf level s.outline).map Prod.snd := by
  obtain ⟨name, startLine, head, children, tail, endLine⟩ := s
  rw [Section.names, Section.slots, List.filterMap_cons, namesOf_eq_outline children level,
    Section.outline]
  cases name <;> rfl

theorem namesOf_eq_outline (children : List Section) (level : Nat) :
    (slotsOf children).filterMap Slot.name =
      (Outline.entriesOf level (outlineOf children)).map Prod.snd := by
  cases children with
  | nil => rfl
  | cons child rest =>
      rw [slotsOf, List.filterMap_append, namesOf_eq_outline rest level, outlineOf,
        Outline.entriesOf_append, List.map_append]
      congr 1
      cases hn : child.name with
      | none =>
          have hchild := child.names_eq_outline level
          rw [hn] at hchild
          exact hchild
      | some name =>
          have hchild := child.names_eq_outline (level + 1)
          rw [hn] at hchild
          simp only [Outline.entriesOf, Outline.entries, List.append_nil, List.map_cons]
          exact hchild

end

mutual

-- Contents take no part in an outline.
theorem Section.outline_mapContent (f : Slot → Content) (s : Section) :
    (s.mapContent f).outline = s.outline := by
  obtain ⟨name, startLine, head, children, tail, endLine⟩ := s
  exact outlineOf_mapContents f children

theorem outlineOf_mapContents (f : Slot → Content) (children : List Section) :
    outlineOf (mapContents f children) = outlineOf children := by
  cases children with
  | nil => rfl
  | cons child rest =>
      simp only [mapContents, outlineOf, Section.name_mapContent f child,
        Section.outline_mapContent f child, outlineOf_mapContents f rest]

end

-- Search, collection and outline go through the sections in one order, and of sections with one
-- name the first counts. What a table holds before stays in its place.
theorem Section.heads_find?_outline (root : Section) (table : Table) (wanted : Text) :
    (root.heads []).get? wanted = (root.find? wanted).map Section.head ∧
      (root.heads []).keys = Text.distinct root.names ∧
      (∃ added : Table, root.heads table = table ++ added ∧
        added.keys = (Text.distinct root.names).filter (· ∉ table.keys) ∧
        ∀ entry ∈ added, (root.find? entry.1).map Section.head = some entry.2) ∧
      root.names = root.name.toList ++ (Outline.entriesOf 0 root.outline).map Prod.snd := by
  have hheads : ∀ start, root.heads start = Table.putAllNew root.namedHeads start :=
    root.heads_eq_putAllNew
  refine ⟨root.get?_heads wanted, ?_, ?_, root.names_eq_outline 0⟩
  · obtain ⟨added, heq, hadded⟩ := Table.putAllNew_eq_append root.namedHeads []
    rw [hheads, heq, List.nil_append, hadded.keys, root.keys_namedHeads]
    exact List.filter_eq_self.mpr fun name _ => rfl
  · obtain ⟨added, heq, hadded⟩ := Table.putAllNew_eq_append root.namedHeads table
    refine ⟨added, by rw [hheads, heq], by rw [hadded.keys, root.keys_namedHeads],
      fun entry he => ?_⟩
    rw [root.head_find?, hadded.first entry he]

-- The first of two sections with one name stands inside a nameless one.
example :
    let leaf (name head : Text) : Section := ⟨some name, none, head, [], [], none⟩
    let wrapper : Section := ⟨none, none, [], [leaf ['a'.unit] ['1'.unit]], [], none⟩
    let root : Section := ⟨some ['r'.unit], none, [],
      [wrapper, leaf ['b'.unit] ['2'.unit], leaf ['a'.unit] ['3'.unit]], [], none⟩
    root.heads [(['b'.unit], ['0'.unit])] =
        [(['b'.unit], ['0'.unit]), (['r'.unit], []), (['a'.unit], ['1'.unit])] ∧
      Outline.lines root.outline = [['a'.unit], ['b'.unit], ['a'.unit]] := by
  decide

end Sections
