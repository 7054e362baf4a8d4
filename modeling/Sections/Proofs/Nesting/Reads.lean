import Sections.Proofs.Nesting.Layout

namespace Sections

namespace OpenStack

variable {v : Vocabulary} {separator : Text}

-- Where reading stands after lines without a bad marker: the end of the innermost section is
-- still to come, and so are the ends of the sections around it.
inductive Reads (v : Vocabulary) (separator : Text) : List Text → OpenStack → Prop where
  | root (layout : Layout v) : Reads v separator layout.lines ⟨layout.into separator .root, []⟩
  | inside {ls : List Text} {st : OpenStack} (outer : Reads v separator ls st) (start name : Text)
      (ho : v.opening start = .opens (some name)) (layout : Layout v) :
      Reads v separator (ls ++ start :: layout.lines)
        ⟨layout.into separator (.opened (some name) start), (st.push (some name) start).below⟩

theorem push_eq (st : OpenStack) (name : Option Text) (line : Text) :
    st.push name line = ⟨.opened name line, (st.push name line).below⟩ := by
  unfold push
  split <;> rfl

theorem push_below_ne_nil (st : OpenStack) (name : Option Text) (line : Text) :
    (st.push name line).below ≠ [] := by
  unfold push
  split <;> simp

theorem Reads.named_or_root {ls : List Text} {st : OpenStack} (h : Reads v separator ls st) :
    st.top.name ≠ none ∨ st.below = [] := by
  cases h with
  | root layout => exact Or.inr rfl
  | inside outer start name ho layout => exact Or.inl (by simp [OpenSection.opened])

-- Lines that nest go to the innermost section.
theorem Reads.extend {ls : List Text} {st : OpenStack} (h : Reads v separator ls st)
    (layout : Layout v) :
    Reads v separator (ls ++ layout.lines) ⟨layout.into separator st.top, st.below⟩ := by
  cases h with
  | root before =>
      have hr := @Reads.root v separator (before.append layout)
      rwa [Layout.lines_append, Layout.into_append] at hr
  | inside outer start name ho before =>
      have hi := Reads.inside outer start name ho (before.append layout)
      rw [Layout.lines_append, Layout.into_append] at hi
      simpa using hi

theorem Reads.consume (hv : v.Named) {ls : List Text} {line : Text} {n : Nat}
    {st next : OpenStack} (h : Reads v separator ls st)
    (hc : st.consume v separator n line = .ok next) : Reads v separator (ls ++ [line]) next := by
  unfold OpenStack.consume at hc
  split at hc
  · contradiction
  · rename_i opened ho
    rw [← Except.ok.inj hc, push_eq]
    cases opened with
    | none => exact absurd ho (hv line)
    | some name => exact .inside h line name ho .empty
  · rename_i ho
    split at hc
    · rename_i he
      split at hc
      · contradiction
      · rename_i hp
        rw [← Except.ok.inj hc]
        cases h with
        | root layout => contradiction
        | @inside ls outerStack outer start name hs layout =>
            have hb := outer.extend (.block start name hs layout line ⟨ho, he⟩ .empty)
            rw [pop_push outer.named_or_root] at hp
            rw [← Option.some.inj hp]
            simpa [Layout.lines, Layout.into] using hb
    · rename_i he
      rw [← Except.ok.inj hc]
      exact h.extend (.plain line ⟨ho, Bool.eq_false_iff.mpr he⟩ .empty)

theorem Reads.consumeAll (hv : v.Named) {ls more : List Text} {n : Nat} {st last : OpenStack}
    (h : Reads v separator ls st)
    (hc : OpenStack.consumeAll v separator n more st = .ok last) :
    Reads v separator (ls ++ more) last := by
  induction more generalizing ls n st with
  | nil =>
      rw [← Except.ok.inj hc]
      simpa using h
  | cons line rest ih =>
      rw [OpenStack.consumeAll] at hc
      split at hc
      · contradiction
      · rename_i next hn
        have hr := ih (h.consume hv hn) hc
        simpa using hr

theorem Reads.initial : Reads v separator [] .initial := .root .empty

-- A line with a bad marker opens a bracket that has no end, or closes the root.
theorem consume_error {n : Nat} {line : Text} {st : OpenStack} {e : StructureError}
    (h : st.consume v separator n line = .error e) :
    v.opening line = .malformed ∧ e = .malformed n line ∨
      v.IsEnd line ∧ st.below = [] ∧ e = .unmatchedEnd n line := by
  unfold consume at h
  split at h
  · rename_i ho
    exact Or.inl ⟨ho, (Except.error.inj h).symm⟩
  · contradiction
  · rename_i ho
    split at h
    · rename_i hc
      unfold pop? at h
      split at h
      · rename_i hp
        split at hp
        · rename_i hb
          exact Or.inr ⟨⟨ho, hc⟩, hb, (Except.error.inj h).symm⟩
        · contradiction
      · contradiction
    · contradiction

-- Reading fails at the first bad line, and not before.
theorem consumeAll_error {n : Nat} {ls : List Text} {st : OpenStack} {e : StructureError}
    (h : consumeAll v separator n ls st = .error e) :
    ∃ before line after mid, ls = before ++ line :: after ∧
      consumeAll v separator n before st = .ok mid ∧
      mid.consume v separator (n + before.length) line = .error e := by
  induction ls generalizing n st with
  | nil => contradiction
  | cons line rest ih =>
      rw [consumeAll] at h
      split at h
      · rename_i he
        rw [Except.error.inj h] at he
        exact ⟨[], line, rest, st, rfl, rfl, he⟩
      · rename_i next hn
        obtain ⟨before, bad, after, mid, rfl, hm, hb⟩ := ih h
        refine ⟨line :: before, bad, after, mid, rfl, ?_, ?_⟩
        · simp only [consumeAll, hn, hm]
        · rw [List.length_cons, Nat.add_comm before.length 1, ← Nat.add_assoc]
          exact hb

end OpenStack

-- A text has a tree where its lines nest, and the tree is theirs.
theorem Section.ofLines_eq_ok_iff {v : Vocabulary} (hv : v.Named) (separator : Text)
    (ls : List Text) (root : Section) :
    Section.ofLines v separator ls = .ok root ↔
      ∃ layout : Layout v, layout.lines = ls ∧ layout.tree separator = root := by
  constructor
  · intro h
    unfold Section.ofLines at h
    split at h
    · contradiction
    · rename_i last hc
      have hr := OpenStack.Reads.initial.consumeAll hv hc
      rw [List.nil_append] at hr
      cases hr with
      | root layout =>
          refine ⟨layout, rfl, ?_⟩
          exact Except.ok.inj h
      | inside outer start name ho layout =>
          unfold OpenStack.finish at h
          split at h
          · rename_i hb
            exact absurd hb (OpenStack.push_below_ne_nil _ _ _)
          · contradiction
  · rintro ⟨layout, rfl, rfl⟩
    have hc := OpenStack.consumeAll_layout separator layout 1 [] .root [] (Or.inr rfl)
    rw [List.append_nil] at hc
    simp only [Section.ofLines, OpenStack.initial, hc]
    rfl

end Sections
