import Sections.Heads
import Sections.Proofs.Contents

namespace Sections

namespace Table

variable {name : Text}

theorem get?_append (first second : Table) :
    get? name (first ++ second) = (get? name first).or (get? name second) := by
  induction first with
  | nil => rfl
  | cons entry rest ih =>
      obtain ⟨key, value⟩ := entry
      by_cases hk : key = name <;> simp [get?, hk, ih]

theorem get?_putNew (key value : Text) (table : Table) :
    get? name (putNew key value table) = (get? name table).or (get? name [(key, value)]) := by
  unfold putNew
  split
  · rename_i hs
    by_cases hk : key = name
    · subst hk
      obtain ⟨old, ho⟩ := Option.isSome_iff_exists.mp hs
      simp [ho]
    · simp [get?, hk]
  · exact get?_append table _

-- Writes several values one after another, each only where its name is absent.
def putAllNew (entries table : Table) : Table :=
  entries.foldl (fun table entry => putNew entry.1 entry.2 table) table

theorem putAllNew_append (first second table : Table) :
    putAllNew (first ++ second) table = putAllNew second (putAllNew first table) :=
  List.foldl_append

-- Of entries with one name the first is found.
theorem get?_putAllNew (entries table : Table) :
    get? name (putAllNew entries table) = (get? name table).or (get? name entries) := by
  induction entries generalizing table with
  | nil => simp [putAllNew, get?]
  | cons entry rest ih =>
      have hstep : putAllNew (entry :: rest) table = putAllNew rest (putNew entry.1 entry.2 table) := rfl
      rw [hstep, ih, get?_putNew, Option.or_assoc, ← get?_append]
      rfl

theorem mem_of_get? {value : Text} {table : Table} (h : get? name table = some value) :
    (name, value) ∈ table := by
  induction table with
  | nil => contradiction
  | cons entry rest ih =>
      obtain ⟨key, old⟩ := entry
      by_cases hk : key = name
      · simp only [get?, hk, if_true, Option.some.injEq] at h
        simp [hk, h]
      · simp only [get?, hk, if_false] at h
        exact List.mem_cons_of_mem _ (ih h)

theorem get?_of_mem {value : Text} {table : Table} (hkeys : table.keys.Nodup)
    (h : (name, value) ∈ table) : get? name table = some value := by
  induction table with
  | nil => contradiction
  | cons entry rest ih =>
      obtain ⟨key, old⟩ := entry
      obtain ⟨hfirst, hrest⟩ := List.nodup_cons.mp hkeys
      rcases List.mem_cons.mp h with heq | h
      · cases heq
        simp [get?]
      · have hne : key ≠ name := by
          rintro rfl
          exact hfirst (List.mem_map.mpr ⟨(key, value), h, rfl⟩)
        rw [get?, if_neg hne]
        exact ih hrest h

-- New values under the old names.
theorem get?_map (f : Text → Text → Text) (table : Table) :
    get? name (table.map fun entry => (entry.1, f entry.1 entry.2)) =
      (get? name table).map (f name) := by
  induction table with
  | nil => rfl
  | cons entry rest ih =>
      by_cases hk : entry.1 = name
      · simp [get?, hk]
      · simp [get?, hk, ih]

theorem isSome_get? {table : Table} : (get? name table).isSome = true ↔ name ∈ table.keys := by
  induction table with
  | nil => simp [get?, keys]
  | cons entry rest ih =>
      obtain ⟨key, value⟩ := entry
      by_cases hk : key = name
      · simp [get?, keys, hk]
      · simpa [get?, keys, hk, Ne.symm hk] using ih

theorem nodup_keys_putNew (key value : Text) {table : Table} (h : table.keys.Nodup) :
    (putNew key value table).keys.Nodup := by
  unfold putNew
  split
  · exact h
  · rename_i hs
    rw [isSome_get?] at hs
    rw [keys, List.map_append, List.nodup_append]
    refine ⟨h, by simp, ?_⟩
    rintro other ho same hsame rfl
    rw [List.map_cons, List.map_nil, List.mem_singleton] at hsame
    have hk : other = key := hsame
    exact hs (hk ▸ ho)

theorem nodup_keys_putAllNew (entries : Table) {table : Table} (h : table.keys.Nodup) :
    (putAllNew entries table).keys.Nodup := by
  induction entries generalizing table with
  | nil => exact h
  | cons entry rest ih => exact ih (nodup_keys_putNew entry.1 entry.2 h)

end Table

-- The name of a section with its head, if it has a name.
def Slot.namedHead? (slot : Slot) : Option (Text × Text) :=
  slot.name.map fun name => (name, slot.content.head)

-- The named sections with their heads, in document order.
def Section.namedHeads (s : Section) : Table := s.slots.filterMap Slot.namedHead?

def namedHeadsOf (children : List Section) : Table := (slotsOf children).filterMap Slot.namedHead?

theorem Section.keys_namedHeads (s : Section) : s.namedHeads.keys = s.names := by
  rw [namedHeads, Table.keys, List.map_filterMap, names]
  congr 1
  funext slot
  cases hn : slot.name <;> simp [Slot.namedHead?, hn]

theorem Section.mem_namedHeads {s : Section} {name head : Text} :
    (name, head) ∈ s.namedHeads ↔
      ∃ slot ∈ s.slots, slot.name = some name ∧ slot.content.head = head := by
  simp only [namedHeads, List.mem_filterMap, Slot.namedHead?, Option.map_eq_some_iff, Prod.mk.injEq]
  constructor
  · rintro ⟨slot, hs, other, hn, rfl, rfl⟩
    exact ⟨slot, hs, hn, rfl⟩
  · rintro ⟨slot, hs, hn, rfl⟩
    exact ⟨slot, hs, name, hn, rfl, rfl⟩

@[simp] theorem slotsOf_append (first second : List Section) :
    slotsOf (first ++ second) = slotsOf first ++ slotsOf second := by
  induction first with
  | nil => rfl
  | cons child rest ih => simp [slotsOf, ih]

mutual

theorem Section.heads_eq_putAllNew (s : Section) (table : Table) :
    s.heads table = Table.putAllNew s.namedHeads table := by
  obtain ⟨name, startLine, head, children, tail, endLine⟩ := s
  simp only [Section.heads, headsOf_eq_putAllNew children, Section.namedHeads, Section.slots]
  cases name with
  | none => rfl
  | some name => rfl

theorem headsOf_eq_putAllNew (children : List Section) (table : Table) :
    headsOf children table = Table.putAllNew (namedHeadsOf children) table := by
  cases children with
  | nil => rfl
  | cons child rest =>
      rw [headsOf, Section.heads_eq_putAllNew child, headsOf_eq_putAllNew rest,
        ← Table.putAllNew_append, namedHeadsOf, namedHeadsOf, slotsOf, List.filterMap_append]
      rfl

end

mutual

-- Searching finds the section whose head was collected.
theorem Section.head_find? (wanted : Text) (s : Section) :
    (s.find? wanted).map Section.head = Table.get? wanted s.namedHeads := by
  obtain ⟨name, startLine, head, children, tail, endLine⟩ := s
  have hchildren := head_findIn? wanted children
  rw [namedHeadsOf] at hchildren
  cases name with
  | none =>
      simpa [Section.find?, Section.namedHeads, Section.slots, Slot.namedHead?, List.filterMap_cons]
        using hchildren
  | some name =>
      by_cases hn : name = wanted
      · simp [Section.find?, Section.namedHeads, Section.slots, Slot.namedHead?, Table.get?, hn]
      · simpa [Section.find?, Section.namedHeads, Section.slots, Slot.namedHead?, Table.get?, hn]
          using hchildren

theorem head_findIn? (wanted : Text) (children : List Section) :
    (findIn? wanted children).map Section.head = Table.get? wanted (namedHeadsOf children) := by
  cases children with
  | nil => rfl
  | cons child rest =>
      have hchild := child.head_find? wanted
      rw [Section.namedHeads] at hchild
      rw [findIn?, namedHeadsOf, slotsOf, List.filterMap_append, Table.get?_append, ← hchild,
        ← namedHeadsOf, ← head_findIn? wanted rest]
      cases child.find? wanted <;> simp

end

-- The head of the first section of a name.
def Section.headOf? (s : Section) (name : Text) : Option Text := (s.find? name).map Section.head

theorem Section.headOf?_eq_get? (s : Section) (name : Text) :
    s.headOf? name = Table.get? name s.namedHeads := s.head_find? name

theorem Section.get?_heads (s : Section) (name : Text) :
    (s.heads []).get? name = s.headOf? name := by
  rw [heads_eq_putAllNew, Table.get?_putAllNew, headOf?_eq_get?]
  rfl

theorem Section.isSome_headOf? {s : Section} {name : Text} :
    (s.headOf? name).isSome = true ↔ name ∈ s.names := by
  rw [headOf?_eq_get?, Table.isSome_get?, keys_namedHeads]

theorem Section.headOf?_of_nodup {s : Section} {name : Text} (h : s.names.Nodup) {slot : Slot} (hs : slot ∈ s.slots)
    (hn : slot.name = some name) : s.headOf? name = some slot.content.head := by
  rw [← keys_namedHeads] at h
  rw [headOf?_eq_get?]
  exact Table.get?_of_mem h (mem_namedHeads.mpr ⟨slot, hs, hn, rfl⟩)

theorem Section.nodup_keys_heads (s : Section) : (s.heads []).keys.Nodup := by
  rw [heads_eq_putAllNew]
  exact Table.nodup_keys_putAllNew _ List.nodup_nil

end Sections
