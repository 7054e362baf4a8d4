import Sections.Proofs.Nesting.NewHeads
import Sections.Proofs.Nesting.WellFormed

namespace Sections

section PlainText

variable {separator : Text}

theorem PlainText.nil : PlainText separator [] := ⟨[], by simp, rfl⟩

theorem PlainText.append {first second : Text} (h : PlainText separator first)
    (hs : PlainText separator second) : PlainText separator (first ++ second) := by
  obtain ⟨ls, hl, rfl⟩ := h
  obtain ⟨others, ho, rfl⟩ := hs
  refine ⟨ls ++ others, fun line hm => ?_, (Text.unlines_append separator ls others).symm⟩
  exact (List.mem_append.mp hm).elim (hl line) (ho line)

theorem PlainText.line {line : Text} (h : Text.Unbroken line)
    (hp : Vocabulary.standard.IsPlain line) : PlainText separator (line ++ separator) :=
  ⟨[line], by simpa using ⟨h, hp⟩, by simp⟩

end PlainText

namespace Siblings

variable {separator : Text} {first : Bool} {children others : List Section}

theorem append (h : Siblings separator first children) (ho : Siblings separator false others)
    (hne : first = false ∨ children ≠ []) : Siblings separator first (children ++ others) := by
  induction h with
  | nil first =>
      rw [hne.resolve_right fun hn => hn rfl]
      exact ho
  | named first hstart hopens hstop hend hh ht hempty hc _ _ ihr =>
      exact .named first hstart hopens hstop hend hh ht hempty hc (ihr (Or.inl rfl))
  | wrapped htext hp _ ih => exact .wrapped htext hp (ih (Or.inr (List.cons_ne_nil _ _)))

-- New heads are text like the old ones, and a wrapper has no name to get one by.
theorem newHeads {heads : Text → Option Text}
    (hh : ∀ name head, heads name = some head → PlainText separator head)
    (h : Siblings separator first children) :
    Siblings separator first (mapContents (Slot.newHead heads) children) := by
  induction h with
  | nil first => exact .nil first
  | @named first name start head tail stop children others hstart hopens hstop hend hhead htail
      hempty _ _ ihc ihr =>
      have hnew : PlainText separator ((heads name).getD head) := by
        cases hn : heads name with
        | none => exact hhead
        | some new => exact hh name new hn
      exact .named first hstart hopens hstop hend hnew htail
        (fun hn => hempty (mapContents_eq_nil.mp hn)) ihc ihr
  | wrapped htext hp _ ih => exact .wrapped htext hp ih

end Siblings

theorem Siblings.plainText_head {separator : Text} {first : Bool} {children : List Section}
    (h : Siblings separator first children) :
    ∀ slot ∈ slotsOf children, PlainText separator slot.content.head := by
  induction h with
  | nil first => simp [slotsOf]
  | named first hstart hopens hstop hend hhead htail hempty _ _ ihc ihr =>
      simp only [slotsOf, Section.slots, List.forall_mem_append, List.forall_mem_cons]
      exact ⟨⟨hhead, ihc⟩, ihr⟩
  | wrapped htext hp _ ih =>
      simp only [slotsOf, Section.slots, List.forall_mem_append, List.forall_mem_cons] at ih ⊢
      exact ⟨⟨hp, ih.1, by simp⟩, ih.2⟩

theorem Section.WellFormed.plainText_head {separator : Text} {tree : Section}
    (h : tree.WellFormed separator) :
    ∀ slot ∈ tree.slots, PlainText separator slot.content.head := by
  cases h with
  | root hhead htail hempty hc =>
      exact List.forall_mem_cons.mpr ⟨hhead, hc.plainText_head⟩

theorem Section.WellFormed.newHeads {separator : Text} {tree : Section} {heads : Text → Option Text}
    (hh : ∀ name head, heads name = some head → PlainText separator head)
    (h : tree.WellFormed separator) :
    (tree.mapContent (Slot.newHead heads)).WellFormed separator := by
  cases h with
  | root hhead htail hempty hc =>
      exact .root hhead htail (fun hn => hempty (mapContents_eq_nil.mp hn)) (hc.newHeads hh)

-- What holds of an open section while it is read: it has text without markers and well-formed
-- children, and until it has a child nothing goes to its tail.
structure OpenSection.Shaped (separator : Text) (o : OpenSection) : Prop where
  head : PlainText separator o.head
  tail : PlainText separator o.tail
  children : Siblings separator true o.children
  childless : o.children = [] → o.mode = .head ∧ o.tail = []

namespace OpenSection.Shaped

variable {separator : Text} {o : OpenSection}

theorem fresh (name startLine : Option Text) :
    Shaped separator ⟨name, startLine, .head, [], [], []⟩ :=
  ⟨.nil, .nil, .nil true, fun _ => ⟨rfl, rfl⟩⟩

theorem children_ne_nil (h : o.Shaped separator) (hm : o.mode = .tail) : o.children ≠ [] := by
  intro hc
  have hhead := (h.childless hc).1
  rw [hm] at hhead
  contradiction

theorem write (h : o.Shaped separator) {text : Text} (ht : PlainText separator text) :
    (o.write text).Shaped separator := by
  unfold OpenSection.write
  split
  · exact ⟨h.head.append ht, h.tail, h.children, h.childless⟩
  · rename_i hm
    exact ⟨h.head, h.tail.append ht, h.children, fun hc => absurd hc (h.children_ne_nil hm)⟩

theorem adopt (h : o.Shaped separator) {child : Section}
    (hchild : ∀ first, Siblings separator first [child]) : (o.adopt child).Shaped separator := by
  unfold OpenSection.adopt
  split
  · rename_i ht
    have hwrapper : Siblings separator false [⟨none, none, o.tail, [child], [], none⟩] :=
      .wrapped ht.2 h.tail (hchild true)
    exact ⟨h.head, .nil, h.children.append hwrapper (Or.inr (h.children_ne_nil ht.1)), by simp⟩
  · refine ⟨h.head, h.tail, ?_, by simp⟩
    cases hc : o.children with
    | nil => exact hchild true
    | cons first rest => exact hc ▸ h.children.append (hchild false) (Or.inr (by simp [hc]))

end OpenSection.Shaped

namespace Layout

variable {separator : Text}

theorem into_shaped (layout : Layout .standard) (hu : ∀ line ∈ layout.lines, Text.Unbroken line)
    {o : OpenSection} (h : o.Shaped separator) : (layout.into separator o).Shaped separator := by
  induction layout generalizing o with
  | empty => exact h
  | plain line hp rest ih =>
      obtain ⟨hline, hrest⟩ := List.forall_mem_cons.mp hu
      exact ih hrest (h.write (.line hline hp))
  | block start name ho inner stop he rest ihi ihr =>
      simp only [lines, List.forall_mem_cons, List.forall_mem_append] at hu
      obtain ⟨hstart, hinner, hstop, hrest⟩ := hu
      have hi := ihi hinner (.fresh (some name) (some start))
      refine ihr hrest (h.adopt fun first => ?_)
      rw [OpenSection.close, name_into, startLine_into]
      exact .named first hstart ho hstop he hi.head hi.tail
        (fun hc => (hi.childless hc).2) hi.children (.nil false)

theorem tree_wellFormed (layout : Layout .standard)
    (hu : ∀ line ∈ layout.lines, Text.Unbroken line) :
    (layout.tree separator).WellFormed separator := by
  have h : (layout.into separator .root).Shaped separator :=
    layout.into_shaped hu (.fresh none none)
  rw [tree, OpenSection.close, name_into, startLine_into]
  exact .root h.head h.tail (fun hc => (h.childless hc).2) h.children

-- Lines that nest are read back from their text.
theorem parse_unlines (hs : Text.IsTerminator separator) (layout : Layout .standard)
    (hne : layout.lines ≠ []) (hu : ∀ line ∈ layout.lines, Text.Unbroken line) :
    Section.parse .standard separator (Text.unlines separator layout.lines) =
      .ok (layout.tree separator) := by
  rw [Section.parse, Text.lines_unlines hs hne hu]
  exact (Section.ofLines_eq_ok_iff Vocabulary.standard_named separator _ _).mpr ⟨layout, rfl, rfl⟩

end Layout

section Parse

variable {separator text : Text} {root : Section}

-- Every part of a tree that was read stands where reading puts it.
theorem Section.wellFormed_of_parse (h : Section.parse .standard separator text = .ok root) :
    root.WellFormed separator := by
  obtain ⟨layout, hl, rfl⟩ :=
    (Section.ofLines_eq_ok_iff Vocabulary.standard_named separator _ root).mp h
  exact layout.tree_wellFormed fun line hm => Text.unbroken_of_mem_lines (hl ▸ hm)

-- A text with new heads is read as its tree with these heads.
theorem Section.parse_newHeads (hs : Text.IsTerminator separator) {heads : Text → Option Text}
    (hh : ∀ name head, heads name = some head → PlainText separator head)
    (h : Section.parse .standard separator text = .ok root) :
    Section.parse .standard separator
        ((root.mapContent (Slot.newHead heads)).render separator) =
      .ok (root.mapContent (Slot.newHead heads)) := by
  obtain ⟨layout, hu, hrender, htree⟩ := ((wellFormed_of_parse h).newHeads hh).exists_layout
  obtain ⟨source, hsource, rfl⟩ :=
    (Section.ofLines_eq_ok_iff Vocabulary.standard_named separator _ root).mp h
  have hne : layout.lines ≠ [] := by
    intro hnil
    rw [hnil, source.render_newHeads_tree, hsource] at hrender
    exact Vocabulary.rewriteHeads_ne_nil hs.ne_nil (Text.lines_ne_nil text) hrender.symm
  rw [← hrender, layout.parse_unlines hs hne hu, htree]

theorem Section.plainText_of_headOf? (h : Section.parse .standard separator text = .ok root)
    (name head : Text) (hn : root.headOf? name = some head) : PlainText separator head := by
  rw [headOf?_eq_get?] at hn
  obtain ⟨slot, hs, -, rfl⟩ := mem_namedHeads.mp (Table.mem_of_get? hn)
  exact (wellFormed_of_parse h).plainText_head slot hs

end Parse

end Sections
