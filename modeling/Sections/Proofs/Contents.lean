import Sections.Section

namespace Sections

mutual

-- Every section gets the content that a function of its slot gives.
def Section.mapContent (f : Slot → Content) : Section → Section
  | ⟨name, startLine, head, children, tail, endLine⟩ =>
      let content := f ⟨name, ⟨head, tail⟩⟩
      ⟨name, startLine, content.head, mapContents f children, content.tail, endLine⟩

def mapContents (f : Slot → Content) : List Section → List Section
  | [] => []
  | child :: rest => child.mapContent f :: mapContents f rest

end

@[simp] theorem Section.name_mapContent (f : Slot → Content) (s : Section) :
    (s.mapContent f).name = s.name := by
  obtain ⟨name, startLine, head, children, tail, endLine⟩ := s
  rfl

mutual

-- One content for every slot is exactly what a section takes from the list.
theorem Section.refill_map (f : Slot → Content) (s : Section) (others : List Content) :
    s.refill (s.slots.map f ++ others) = (s.mapContent f, others) := by
  obtain ⟨name, startLine, head, children, tail, endLine⟩ := s
  simp only [Section.slots, List.map_cons, List.cons_append, Section.refill, Section.mapContent,
    refillAll_map f children others]

theorem refillAll_map (f : Slot → Content) (children : List Section) (others : List Content) :
    refillAll children ((slotsOf children).map f ++ others) = (mapContents f children, others) := by
  cases children with
  | nil => simp only [slotsOf, refillAll, mapContents, List.map_nil, List.nil_append]
  | cons child rest =>
      simp only [slotsOf, List.map_append, List.append_assoc, refillAll, mapContents,
        Section.refill_map f child, refillAll_map f rest others]

end

mutual

theorem Section.mapContent_content (s : Section) : s.mapContent Slot.content = s := by
  obtain ⟨name, startLine, head, children, tail, endLine⟩ := s
  simp only [Section.mapContent, mapContents_content children]

theorem mapContents_content (children : List Section) :
    mapContents Slot.content children = children := by
  cases children with
  | nil => rfl
  | cons child rest =>
      simp only [mapContents, Section.mapContent_content child, mapContents_content rest]

end

@[simp] theorem mapContents_eq_nil {f : Slot → Content} {children : List Section} :
    mapContents f children = [] ↔ children = [] := by
  cases children <;> simp [mapContents]

@[simp] theorem mapContents_append (f : Slot → Content) (first second : List Section) :
    mapContents f (first ++ second) = mapContents f first ++ mapContents f second := by
  induction first with
  | nil => rfl
  | cons child rest ih => simp [mapContents, ih]

mutual

theorem Section.slots_mapContent (f : Slot → Content) (s : Section) :
    (s.mapContent f).slots = s.slots.map fun slot => ⟨slot.name, f slot⟩ := by
  obtain ⟨name, startLine, head, children, tail, endLine⟩ := s
  simp only [Section.mapContent, Section.slots, List.map_cons, slotsOf_mapContents f children]

theorem slotsOf_mapContents (f : Slot → Content) (children : List Section) :
    slotsOf (mapContents f children) = (slotsOf children).map fun slot => ⟨slot.name, f slot⟩ := by
  cases children with
  | nil => rfl
  | cons child rest =>
      simp only [mapContents, slotsOf, List.map_append, Section.slots_mapContent f child,
        slotsOf_mapContents f rest]

end

mutual

-- A second change sees what the first one has left.
theorem Section.mapContent_mapContent (f g : Slot → Content) (s : Section) :
    (s.mapContent f).mapContent g = s.mapContent fun slot => g ⟨slot.name, f slot⟩ := by
  obtain ⟨name, startLine, head, children, tail, endLine⟩ := s
  simp only [Section.mapContent, mapContents_mapContents f g children]

theorem mapContents_mapContents (f g : Slot → Content) (children : List Section) :
    mapContents g (mapContents f children) =
      mapContents (fun slot => g ⟨slot.name, f slot⟩) children := by
  cases children with
  | nil => rfl
  | cons child rest =>
      simp only [mapContents, Section.mapContent_mapContent f g child,
        mapContents_mapContents f g rest]

end

-- The names of the named sections, in document order.
def Section.names (s : Section) : List Text := s.slots.filterMap Slot.name

@[simp] theorem Section.names_mapContent (f : Slot → Content) (s : Section) :
    (s.mapContent f).names = s.names := by
  rw [names, slots_mapContent, List.filterMap_map]
  rfl

theorem Section.mem_names {s : Section} {name : Text} :
    name ∈ s.names ↔ ∃ slot ∈ s.slots, slot.name = some name := List.mem_filterMap

-- Only the sections of the tree count.
theorem Section.mapContent_congr {f g : Slot → Content} {s : Section}
    (h : ∀ slot ∈ s.slots, f slot = g slot) : s.mapContent f = s.mapContent g := by
  have hf := s.refill_map f []
  rw [List.map_congr_left h, s.refill_map g []] at hf
  exact (congrArg Prod.fst hf).symm

end Sections
