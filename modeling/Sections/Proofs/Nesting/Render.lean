import Sections.Nesting
import Sections.Proofs.Text.Lines

namespace Sections

@[simp] theorem renderAll_append (separator : Text) (first second : List Section) :
    renderAll separator (first ++ second) =
      renderAll separator first ++ renderAll separator second := by
  induction first with
  | nil => rfl
  | cons child rest ih => simp [renderAll, ih]

namespace OpenSection

-- The text of an open section so far.
def render (separator : Text) (o : OpenSection) : Text :=
  markerText separator o.startLine ++ o.head ++ renderAll separator o.children ++ o.tail

-- What is written next comes behind everything that the section holds.
def WritesLast (o : OpenSection) : Prop := o.mode = .head → o.children = [] ∧ o.tail = []

-- A child may be added behind everything that the section holds.
def TakesChild (o : OpenSection) : Prop := o.mode = .tail ∧ o.tail = []

theorem TakesChild.writesLast {o : OpenSection} (h : o.TakesChild) : o.WritesLast := by
  intro hm
  rw [h.1] at hm
  contradiction

-- Without text in the tail there is room for a child at once.
theorem WritesLast.tail_eq_nil {o : OpenSection} (h : o.WritesLast)
    (hn : ¬(o.mode = .tail ∧ o.tail ≠ [])) : o.tail = [] := by
  cases hm : o.mode with
  | head => exact (h hm).2
  | tail =>
      by_contra ht
      exact hn ⟨hm, ht⟩

theorem TakesChild.attach {o : OpenSection} (h : o.TakesChild) (child : Section) :
    (o.attach child).TakesChild := h

theorem render_close_none (separator : Text) (o : OpenSection) :
    (o.close none).render separator = o.render separator := by
  simp [close, render, Section.render, markerText]

theorem render_close_some (separator : Text) (o : OpenSection) (line : Text) :
    (o.close (some line)).render separator = o.render separator ++ (line ++ separator) := by
  simp [close, render, Section.render, markerText]

theorem render_attach (separator : Text) {o : OpenSection} (h : o.tail = []) (child : Section) :
    (o.attach child).render separator = o.render separator ++ child.render separator := by
  simp [attach, render, renderAll, h]

theorem render_write (separator : Text) {o : OpenSection} (h : o.WritesLast) (text : Text) :
    (o.write text).render separator = o.render separator ++ text := by
  unfold write
  split
  · rename_i hm
    obtain ⟨hc, ht⟩ := h hm
    simp [render, hc, ht, renderAll]
  · simp [render]

theorem WritesLast.write {o : OpenSection} (h : o.WritesLast) (text : Text) :
    (o.write text).WritesLast := by
  unfold OpenSection.write
  split
  · exact h
  · rename_i hm
    intro hh
    rw [hm] at hh
    contradiction

end OpenSection

namespace OpenStack

-- The text of all open sections so far, the outermost first.
def render (separator : Text) (st : OpenStack) : Text :=
  (st.below.reverse.map (·.render separator)).flatten ++ st.top.render separator

-- Only the innermost open section is written to; the others wait for their child.
structure Ordered (st : OpenStack) : Prop where
  top : st.top.WritesLast
  below : ∀ o ∈ st.below, o.TakesChild

theorem Ordered.initial : Ordered .initial :=
  ⟨fun _ => ⟨rfl, rfl⟩, fun _ h => absurd h List.not_mem_nil⟩

theorem Ordered.push {st : OpenStack} (h : st.Ordered) (name : Option Text) (line : Text) :
    (st.push name line).Ordered := by
  have hopened : (OpenSection.opened name line).WritesLast := fun _ => ⟨rfl, rfl⟩
  unfold OpenStack.push
  split
  · rename_i hp
    refine ⟨hopened, fun o ho => ?_⟩
    rcases List.mem_cons.mp ho with rfl | ho
    · exact ⟨rfl, rfl⟩
    · rcases List.mem_cons.mp ho with rfl | ho
      · exact ⟨hp.1, rfl⟩
      · exact h.below o ho
  · rename_i hp
    refine ⟨hopened, fun o ho => ?_⟩
    rcases List.mem_cons.mp ho with rfl | ho
    · exact ⟨rfl, h.top.tail_eq_nil hp⟩
    · exact h.below o ho

-- The rendered text grows by exactly the line.
theorem render_push (separator : Text) (st : OpenStack) (name : Option Text) (line : Text) :
    (st.push name line).render separator = st.render separator ++ (line ++ separator) := by
  unfold push
  split <;>
    simp [render, OpenSection.render, OpenSection.opened, OpenSection.wrapper, markerText, renderAll]

theorem Ordered.endWrapper {st : OpenStack} (h : st.Ordered) : st.endWrapper.Ordered := by
  unfold OpenStack.endWrapper
  split
  · rename_i outer rest _ hb
    have ho := h.below outer (by simp [hb])
    exact ⟨(ho.attach _).writesLast, fun o hm => h.below o (by simp [hb, hm])⟩
  · exact h

theorem render_endWrapper (separator : Text) {st : OpenStack} (h : st.Ordered) :
    st.endWrapper.render separator = st.render separator := by
  unfold endWrapper
  split
  · rename_i outer rest _ hb
    have ho := h.below outer (by simp [hb])
    simp [render, hb, OpenSection.render_attach separator ho.2, OpenSection.render_close_none]
  · rfl

theorem Ordered.pop {st next : OpenStack} (h : st.Ordered) {line : Text}
    (hp : st.pop? line = some next) : next.Ordered := by
  unfold OpenStack.pop? at hp
  split at hp
  · contradiction
  · rename_i parent rest hb
    have ho := h.below parent (by simp [hb])
    rw [← Option.some.inj hp]
    apply Ordered.endWrapper
    exact ⟨(ho.attach _).writesLast, fun o hm => h.below o (by simp [hb, hm])⟩

theorem render_pop (separator : Text) {st next : OpenStack} (h : st.Ordered) {line : Text}
    (hp : st.pop? line = some next) :
    next.render separator = st.render separator ++ (line ++ separator) := by
  unfold pop? at hp
  split at hp
  · contradiction
  · rename_i parent rest hb
    have ho := h.below parent (by simp [hb])
    rw [← Option.some.inj hp, render_endWrapper]
    · simp [render, hb, OpenSection.render_attach separator ho.2, OpenSection.render_close_some]
    · exact ⟨(ho.attach _).writesLast, fun o hm => h.below o (by simp [hb, hm])⟩

-- One line: nothing that was rendered moves, and the line with its separator comes last.
theorem Ordered.consume {v : Vocabulary} {separator line : Text} {n : Nat} {st next : OpenStack}
    (h : st.Ordered) (hc : st.consume v separator n line = .ok next) :
    next.Ordered ∧ next.render separator = st.render separator ++ (line ++ separator) := by
  unfold OpenStack.consume at hc
  split at hc
  · contradiction
  · rw [← Except.ok.inj hc]
    exact ⟨h.push _ line, render_push separator st _ line⟩
  · split at hc
    · split at hc
      · contradiction
      · rename_i hp
        rw [← Except.ok.inj hc]
        exact ⟨h.pop hp, render_pop separator h hp⟩
    · rw [← Except.ok.inj hc]
      refine ⟨⟨h.top.write _, h.below⟩, ?_⟩
      simp [render, OpenStack.write, OpenSection.render_write separator h.top]

theorem Ordered.consumeAll {v : Vocabulary} {separator : Text} {n : Nat} {ls : List Text}
    {st last : OpenStack} (h : st.Ordered)
    (hc : OpenStack.consumeAll v separator n ls st = .ok last) :
    last.Ordered ∧ last.render separator = st.render separator ++ Text.unlines separator ls := by
  induction ls generalizing n st with
  | nil =>
      rw [← Except.ok.inj hc]
      exact ⟨h, by simp⟩
  | cons line rest ih =>
      rw [OpenStack.consumeAll] at hc
      split at hc
      · contradiction
      · rename_i next hn
        obtain ⟨ho, hr⟩ := h.consume hn
        obtain ⟨hl, ht⟩ := ih ho hc
        refine ⟨hl, ?_⟩
        rw [ht, hr]
        simp

theorem render_finish {separator : Text} {n : Nat} {st : OpenStack} {root : Section}
    (h : st.finish n = .ok root) : root.render separator = st.render separator := by
  unfold finish at h
  split at h
  · rename_i hb
    rw [← Except.ok.inj h, OpenSection.render_close_none]
    simp [render, hb]
  · contradiction

end OpenStack

-- Every line of a parsed text stands once in its tree, and the tree keeps their order.
theorem Section.render_parse {v : Vocabulary} {separator text : Text} {root : Section}
    (h : Section.parse v separator text = .ok root) :
    root.render separator = Text.unlines separator (Text.lines text) := by
  unfold Section.parse Section.ofLines at h
  split at h
  · contradiction
  · rename_i last hc
    rw [OpenStack.render_finish h, (OpenStack.Ordered.initial.consumeAll hc).2]
    simp [OpenStack.render, OpenStack.initial, OpenSection.render, OpenSection.root, markerText,
      renderAll]

end Sections
