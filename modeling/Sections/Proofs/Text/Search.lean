import Mathlib.Data.List.Infix
import Sections.Text

namespace Sections.Text

-- A pattern with what stands before and behind it, where no occurrence of it ends earlier.
structure FirstAt (pattern text before rest : Text) : Prop where
  cut : text = before ++ pattern ++ rest
  first : ∀ front back, before ++ pattern = front ++ pattern ++ back → back = []

variable {pattern text before rest : Text}

theorem firstAt_start (pattern rest : Text) : FirstAt pattern (pattern ++ rest) [] rest := by
  refine ⟨rfl, fun front back h => ?_⟩
  have hlen := congrArg List.length h
  simp only [List.nil_append, List.length_append] at hlen
  exact List.length_eq_zero_iff.mp (by omega)

-- At a start that is the pattern, nothing stands before the first occurrence.
theorem FirstAt.eq_nil (h : FirstAt pattern text before rest) (hp : pattern <+: text) :
    before = [] := by
  have hboth : before ++ pattern <+: text := ⟨rest, h.cut.symm⟩
  obtain ⟨back, hback⟩ := List.prefix_of_prefix_length_le hp hboth (by simp)
  obtain rfl := h.first [] back hback.symm
  rw [List.append_nil] at hback
  exact List.append_left_eq_self.mp hback.symm

theorem FirstAt.cons {c : CodeUnit} (h : FirstAt pattern text before rest)
    (hp : ¬pattern <+: c :: text) : FirstAt pattern (c :: text) (c :: before) rest := by
  refine ⟨by rw [h.cut]; rfl, fun front back hb => ?_⟩
  cases front with
  | nil =>
      rw [List.nil_append] at hb
      refine absurd ⟨back ++ rest, ?_⟩ hp
      rw [← List.append_assoc, ← hb, h.cut]
      rfl
  | cons d front => exact h.first front back (List.cons.inj hb).2

theorem FirstAt.of_cons {c d : CodeUnit} (h : FirstAt pattern (c :: text) (d :: before) rest) :
    FirstAt pattern text before rest := by
  refine ⟨(List.cons.inj h.cut).2, fun front back hb => h.first (d :: front) back ?_⟩
  rw [List.cons_append, hb]
  rfl

-- The search stops at the first occurrence.
theorem after?_eq_some_iff :
    after? pattern text = some rest ↔ ∃ before, FirstAt pattern text before rest := by
  induction text with
  | nil =>
      rw [after?, Option.ite_none_right_eq_some, List.isEmpty_iff, Option.some.injEq]
      constructor
      · rintro ⟨rfl, rfl⟩
        exact ⟨[], firstAt_start [] []⟩
      · rintro ⟨before, h⟩
        obtain ⟨hfront, rfl⟩ := List.append_eq_nil_iff.mp h.cut.symm
        exact ⟨(List.append_eq_nil_iff.mp hfront).2, rfl⟩
  | cons c text ih =>
      rw [after?]
      split
      · rename_i hp
        obtain ⟨more, hm⟩ := List.isPrefixOf_iff_prefix.mp hp
        rw [← hm, List.drop_left, Option.some.injEq]
        constructor
        · rintro rfl
          exact ⟨[], firstAt_start pattern more⟩
        · rintro ⟨before, h⟩
          obtain rfl := h.eq_nil (List.prefix_append pattern more)
          exact List.append_cancel_left h.cut
      · rename_i hp
        rw [List.isPrefixOf_iff_prefix] at hp
        rw [ih]
        constructor
        · rintro ⟨before, h⟩
          exact ⟨c :: before, h.cons hp⟩
        · rintro ⟨before, h⟩
          cases before with
          | nil => exact absurd ⟨rest, h.cut.symm⟩ hp
          | cons d before => exact ⟨before, h.of_cons⟩

theorem FirstAt.after? (h : FirstAt pattern text before rest) : after? pattern text = some rest :=
  after?_eq_some_iff.mpr ⟨before, h⟩

-- A text has one first occurrence at most.
theorem FirstAt.unique {before' rest' : Text} (h : FirstAt pattern text before rest)
    (h' : FirstAt pattern text before' rest') : before = before' ∧ rest = rest' := by
  obtain rfl : rest = rest' := Option.some.inj (h.after?.symm.trans h'.after?)
  have hcut := List.append_cancel_right (h.cut.symm.trans h'.cut)
  exact ⟨List.append_cancel_right hcut, rfl⟩

theorem after?_eq_none_iff : after? pattern text = none ↔ ¬pattern <:+: text := by
  induction text with
  | nil => simp [after?]
  | cons c text ih =>
      rw [after?, List.infix_cons_iff, not_or]
      split
      · rename_i hp
        exact iff_of_false (Option.some_ne_none _) fun h => h.1 (List.isPrefixOf_iff_prefix.mp hp)
      · rename_i hp
        rw [List.isPrefixOf_iff_prefix] at hp
        exact ih.trans (and_iff_right hp).symm

-- Two occurrences of a pattern do not overlap if its last character stands nowhere else in it.
theorem firstAt_of_not_infix (init : Text) (last : CodeUnit) (hp : pattern = init ++ [last])
    (hl : last ∉ init) (hb : ¬pattern <:+: before) (rest : Text) :
    FirstAt pattern (before ++ pattern ++ rest) before rest := by
  refine ⟨rfl, fun front back h => ?_⟩
  rcases List.eq_nil_or_concat' back with rfl | ⟨shorter, c, rfl⟩
  · rfl
  -- An earlier occurrence ends in the text before the pattern, or at a place of the pattern that
  -- is not its last one.
  have hends : before ++ init ++ [last] = front ++ pattern ++ shorter ++ [c] := by
    rw [List.append_assoc, ← hp, h, List.append_assoc (front ++ pattern)]
  have hinit : before ++ init = front ++ pattern ++ shorter := (List.append_inj' hends rfl).1
  rcases List.append_eq_append_iff.mp hinit with ⟨mid, hm, hi⟩ | ⟨mid, hm, -⟩
  · rcases List.eq_nil_or_concat' mid with rfl | ⟨start, d, rfl⟩
    · exact absurd ⟨front, [], by rw [hm]; simp⟩ hb
    · rw [hp, ← List.append_assoc, ← List.append_assoc] at hm
      obtain rfl : last = d := List.singleton_inj.mp (List.append_inj' hm rfl).2
      exact absurd (by rw [hi]; simp) hl
  · exact absurd ⟨front, mid, hm.symm⟩ hb

variable {stop : CodeUnit}

theorem before?_eq_some_iff :
    before? stop text = some before ↔ stop ∉ before ∧ ∃ rest, text = before ++ stop :: rest := by
  induction text generalizing before with
  | nil => simp [before?]
  | cons c text ih =>
      rw [before?]
      split
      · rename_i hc
        subst hc
        rw [Option.some.injEq]
        constructor
        · rintro rfl
          exact ⟨List.not_mem_nil, text, rfl⟩
        · rintro ⟨hs, rest, h⟩
          cases before with
          | nil => rfl
          | cons d before => exact absurd ((List.cons.inj h).1 ▸ List.mem_cons_self) hs
      · rename_i hc
        rw [Option.map_eq_some_iff]
        constructor
        · rintro ⟨before, hb, rfl⟩
          obtain ⟨hs, rest, rfl⟩ := ih.mp hb
          exact ⟨fun hm => hs ((List.mem_cons.mp hm).resolve_left (Ne.symm hc)), rest, rfl⟩
        · rintro ⟨hs, rest, h⟩
          cases before with
          | nil => exact absurd (List.cons.inj h).1 hc
          | cons d before =>
              obtain ⟨rfl, rfl⟩ := List.cons.inj h
              exact ⟨before, ih.mpr ⟨fun hm => hs (List.mem_cons_of_mem c hm), rest, rfl⟩, rfl⟩

theorem before?_eq_none_iff : before? stop text = none ↔ stop ∉ text := by
  induction text with
  | nil => simp [before?]
  | cons c text ih =>
      rw [before?, List.mem_cons, not_or]
      split
      · rename_i hc
        exact iff_of_false (Option.some_ne_none _) fun h => h.1 hc.symm
      · rename_i hc
        rw [Option.map_eq_none_iff, ih]
        exact (and_iff_right (Ne.symm hc)).symm

end Sections.Text
