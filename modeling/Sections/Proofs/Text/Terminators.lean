import Sections.Proofs.Text.Joining

namespace Sections.Text

-- Every line followed by what ends it.
def joined (ls ends : List Text) : Text := (List.zipWith (· ++ ·) ls ends).flatten

-- A text as lines with what ends each of them: a terminator that is as long as it can be, or
-- nothing where the text ends without one.
structure Terminated (text : Text) (ls ends : List Text) : Prop where
  one : 1 ≤ ls.length
  length : ends.length = ls.length
  joined : text = joined ls ends
  unbroken : ∀ line ∈ ls, Unbroken line
  inner : ∀ terminator ∈ ends.dropLast, IsTerminator terminator
  last : ∃ terminator, ends.getLast? = some terminator ∧
    (IsTerminator terminator ∨ terminator = []) ∧ (terminator = [] ↔ ¬EndsLine text)
  longest : ∀ i, ends[i]? = some ['\r'.unit] →
    (Text.joined (ls.drop (i + 1)) (ends.drop (i + 1))).head? ≠ some '\n'.unit

variable {line terminator rest text : Text} {ls ends : List Text}

@[simp] theorem joined_nil : joined [] [] = [] := rfl

@[simp] theorem joined_cons (line terminator : Text) (ls ends : List Text) :
    joined (line :: ls) (terminator :: ends) = line ++ terminator ++ joined ls ends := rfl

theorem eq_nil_of_joined (hlen : ends.length = ls.length) (h : joined ls ends = []) :
    ∀ terminator ∈ ends, terminator = [] := by
  induction ls generalizing ends with
  | nil => simp [List.length_eq_zero_iff.mp hlen]
  | cons line ls ih =>
      cases ends with
      | nil => contradiction
      | cons terminator ends =>
          obtain ⟨hfirst, hrest⟩ := List.append_eq_nil_iff.mp h
          exact List.forall_mem_cons.mpr
            ⟨(List.append_eq_nil_iff.mp hfirst).2, ih (Nat.succ.inj hlen) hrest⟩

theorem Unbroken.not_endsLine (h : Unbroken line) : ¬EndsLine line := by
  rintro (hlast | hlast)
  · exact (h _ (List.mem_of_getLast? hlast)).1 rfl
  · exact (h _ (List.mem_of_getLast? hlast)).2 rfl

theorem Unbroken.seamless (h : Unbroken line) (rest : Text) : Seamless line rest :=
  fun hlast => absurd (.inl hlast) h.not_endsLine

theorem endsLine_append_iff (hne : rest ≠ []) : EndsLine (text ++ rest) ↔ EndsLine rest := by
  rw [EndsLine, List.getLast?_append_of_ne_nil _ hne, EndsLine]

-- A line in front of further ones.
theorem lines_line (hs : IsTerminator terminator) (hl : Unbroken line)
    (hr : Seamless terminator rest) (hne : rest ≠ []) :
    lines (line ++ terminator ++ rest) = line :: lines rest := by
  have hpieces := pieces_line hs hl rest hr.head?_ne
  by_cases he : EndsLine rest
  · rw [((endsLine_append_iff hne).mpr he).pieces_eq, he.pieces_eq] at hpieces
    exact List.append_cancel_right hpieces
  · rwa [pieces_eq_of_not_endsLine (mt (endsLine_append_iff hne).mp he),
      pieces_eq_of_not_endsLine he] at hpieces

theorem lines_single (hl : Unbroken line) (ht : IsTerminator terminator ∨ terminator = []) :
    lines (line ++ terminator) = [line] := by
  rcases ht with hs | rfl
  · rw [lines_append_separator hs (hl.seamless _), pieces_eq_singleton hl]
  · rw [List.append_nil, ← pieces_eq_of_not_endsLine hl.not_endsLine, pieces_eq_singleton hl]

namespace Terminated

theorem single (hl : Unbroken line) (ht : IsTerminator terminator ∨ terminator = []) :
    Terminated (line ++ terminator) [line] [terminator] where
  one := Nat.le_refl _
  length := rfl
  joined := by simp
  unbroken := by simpa using hl
  inner := by simp
  last := by
    refine ⟨terminator, rfl, ht, ?_⟩
    rcases ht with hs | rfl
    · exact iff_of_false hs.ne_nil (not_not.mpr (hs.endsLine line))
    · exact iff_of_true rfl (by rw [List.append_nil]; exact hl.not_endsLine)
  longest := by
    intro i _
    rw [List.drop_eq_nil_of_le (by simp), List.drop_eq_nil_of_le (by simp)]
    simp

theorem cons (hl : Unbroken line) (hs : IsTerminator terminator) (hr : Seamless terminator rest)
    (hne : rest ≠ []) (h : Terminated rest ls ends) :
    Terminated (line ++ terminator ++ rest) (line :: ls) (terminator :: ends) where
  one := by simp
  length := by simp [h.length]
  joined := by rw [joined_cons, ← h.joined]
  unbroken := List.forall_mem_cons.mpr ⟨hl, h.unbroken⟩
  inner := by
    obtain ⟨last, hlast, -⟩ := h.last
    rw [List.dropLast_cons_of_ne_nil (by rintro rfl; contradiction)]
    exact List.forall_mem_cons.mpr ⟨hs, h.inner⟩
  last := by
    obtain ⟨last, hlast, hform, hempty⟩ := h.last
    refine ⟨last, ?_, hform, by rw [endsLine_append_iff hne]; exact hempty⟩
    rw [List.getLast?_cons_of_ne_nil (by rintro rfl; contradiction), hlast]
  longest := by
    intro i hi
    cases i with
    | zero =>
        rw [List.drop_one, List.drop_one, List.tail_cons, List.tail_cons, ← h.joined]
        exact hr.head?_ne (Option.some.inj hi)
    | succ i => exact h.longest i hi

-- A character that is in no terminator joins the first line.
theorem cons_char {c : CodeUnit} (hc : c ≠ '\r'.unit ∧ c ≠ '\n'.unit)
    (h : Terminated text (line :: ls) (terminator :: ends)) :
    Terminated (c :: text) ((c :: line) :: ls) (terminator :: ends) where
  one := h.one
  length := h.length
  joined := by rw [h.joined]; rfl
  unbroken := by
    obtain ⟨hl, hls⟩ := List.forall_mem_cons.mp h.unbroken
    exact List.forall_mem_cons.mpr ⟨List.forall_mem_cons.mpr ⟨hc, hl⟩, hls⟩
  inner := h.inner
  last := by
    obtain ⟨last, hlast, hform, hempty⟩ := h.last
    refine ⟨last, hlast, hform, hempty.trans (not_congr ?_)⟩
    cases text with
    | nil => simp [EndsLine, hc]
    | cons d text => rw [EndsLine, EndsLine, List.getLast?_cons_cons]
  longest := by
    intro i hi
    have hlongest := h.longest i hi
    rwa [List.drop_succ_cons] at hlongest ⊢

-- The first line, where others follow.
theorem inv_cons {other following : Text}
    (h : Terminated text (line :: other :: ls) (terminator :: following :: ends)) :
    ∃ rest, text = line ++ terminator ++ rest ∧ Unbroken line ∧ IsTerminator terminator ∧
      Seamless terminator rest ∧ rest ≠ [] ∧ Terminated rest (other :: ls) (following :: ends) := by
  obtain ⟨hl, hls⟩ := List.forall_mem_cons.mp h.unbroken
  obtain ⟨hs, hinner⟩ := List.forall_mem_cons.mp h.inner
  obtain ⟨last, hlast, hform, hempty⟩ := h.last
  have hjoined : text = line ++ terminator ++ Text.joined (other :: ls) (following :: ends) :=
    h.joined
  have hseamless : Seamless terminator (Text.joined (other :: ls) (following :: ends)) := by
    rcases hs with rfl | rfl | rfl
    · exact fun hr => absurd hr (by decide)
    · exact fun hr => absurd hr (by decide)
    · exact fun _ => h.longest 0 rfl
  have hne : Text.joined (other :: ls) (following :: ends) ≠ [] := by
    -- Where nothing follows, no terminator ends the last line, but the text ends in one.
    intro hnil
    have hlast := eq_nil_of_joined (Nat.succ.inj h.length) hnil last (List.mem_of_getLast? hlast)
    rw [hnil, List.append_nil] at hjoined
    exact hempty.mp hlast (hjoined ▸ hs.endsLine line)
  refine ⟨_, hjoined, hl, hs, hseamless, hne, ?_⟩
  exact {
    one := by simp
    length := Nat.succ.inj h.length
    joined := rfl
    unbroken := hls
    inner := hinner
    last := ⟨last, hlast, hform, by rw [← endsLine_append_iff hne, ← hjoined]; exact hempty⟩
    longest := fun i hi => h.longest (i + 1) hi }

-- There is one way at most to cut a text into terminated lines.
theorem lines_eq (h : Terminated text ls ends) : lines text = ls := by
  induction ls generalizing text ends with
  | nil => exact absurd h.one (by decide)
  | cons line ls ih =>
      obtain ⟨terminator, ends, rfl⟩ := List.exists_cons_of_length_eq_add_one h.length
      cases ls with
      | nil =>
          obtain rfl : ends = [] := List.length_eq_zero_iff.mp (Nat.succ.inj h.length)
          obtain ⟨last, hlast, hform, -⟩ := h.last
          obtain rfl : terminator = last := Option.some.inj hlast
          rw [h.joined, joined_cons, joined_nil, List.append_nil]
          exact lines_single (h.unbroken line (by simp)) hform
      | cons other ls =>
          obtain ⟨following, ends, rfl⟩ :=
            List.exists_cons_of_length_eq_add_one (Nat.succ.inj h.length)
          obtain ⟨rest, rfl, hl, hs, hr, hne, hrest⟩ := h.inv_cons
          rw [lines_line hs hl hr hne, ih hrest]

end Terminated

theorem exists_terminated (text : Text) : ∃ ls ends, Terminated text ls ends := by
  have hl : Unbroken [] := by simp [Unbroken]
  -- A terminator at the very end belongs to the line before it.
  have hfirst : ∀ terminator rest : Text, IsTerminator terminator → Seamless terminator rest →
      (∃ ls ends, Terminated rest ls ends) →
      ∃ ls ends, Terminated (terminator ++ rest) ls ends := by
    rintro terminator rest hs hr ⟨ls, ends, h⟩
    by_cases hne : rest = []
    · exact ⟨_, _, by simpa [hne] using Terminated.single hl (.inl hs)⟩
    · exact ⟨_, _, h.cons hl hs hr hne⟩
  fun_induction pieces text with
  | case1 => exact ⟨_, _, Terminated.single hl (.inr rfl)⟩
  | case2 rest ih =>
      exact hfirst ['\r'.unit, '\n'.unit] rest (by simp [IsTerminator]) (by simp [Seamless]) ih
  | case3 c rest hpair hc ih =>
      refine hfirst [c] rest ?_ ?_ ih
      · rcases hc with rfl | rfl <;> simp [IsTerminator]
      · intro hlast hfeed
        obtain ⟨more, rfl⟩ := List.head?_eq_some_iff.mp hfeed
        exact hpair more (Option.some.inj hlast) rfl
  | case4 c rest _ hc ih =>
      obtain ⟨ls, ends, h⟩ := ih
      obtain ⟨line, ls, rfl⟩ := List.exists_cons_of_length_pos h.one
      obtain ⟨terminator, ends, rfl⟩ := List.exists_cons_of_length_eq_add_one h.length
      exact ⟨_, _, h.cons_char (not_or.mp hc)⟩

end Sections.Text
