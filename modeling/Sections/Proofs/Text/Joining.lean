import Sections.Proofs.Text.Lines

namespace Sections.Text

-- The text ends in a terminator.
def EndsLine (text : Text) : Prop := text.getLast? = some '\r'.unit ∨ text.getLast? = some '\n'.unit

instance (text : Text) : Decidable (EndsLine text) := inferInstanceAs (Decidable (_ ∨ _))

-- No terminator begins in the first text and ends in the second one.
def Seamless (first second : Text) : Prop :=
  first.getLast? = some '\r'.unit → second.head? ≠ some '\n'.unit

theorem IsTerminator.endsLine {separator : Text} (h : IsTerminator separator) (text : Text) :
    EndsLine (text ++ separator) := by
  rcases h with rfl | rfl | rfl <;> simp [EndsLine]

theorem Seamless.of_cons {c : CodeUnit} {text rest : Text} (h : Seamless (c :: text) rest) :
    Seamless text rest := by
  intro hlast
  refine h ?_
  cases text with
  | nil => contradiction
  | cons d text => rw [List.getLast?_cons_cons, hlast]

theorem Seamless.append {first second rest : Text} (h : Seamless first second)
    (hne : second ≠ []) : Seamless first (second ++ rest) := by
  intro hlast
  rw [List.head?_append_of_ne_nil _ hne]
  exact h hlast

theorem Seamless.head?_ne {separator rest : Text} (h : Seamless separator rest)
    (hr : separator = ['\r'.unit]) : rest.head? ≠ some '\n'.unit := h (by rw [hr]; rfl)

-- A terminator ends before the next line.
theorem IsTerminator.seamless_line {separator line : Text} (hs : IsTerminator separator)
    (hl : Unbroken line) (rest : Text) : Seamless separator (line ++ separator ++ rest) := by
  intro hlast
  rcases hs with rfl | rfl | rfl
  · contradiction
  · contradiction
  · exact head_line_ne_feed hl rest

theorem consFirst_append (c : CodeUnit) {ls : List Text} (h : ls ≠ []) (more : List Text) :
    consFirst c (ls ++ more) = consFirst c ls ++ more := by
  cases ls with
  | nil => exact absurd rfl h
  | cons line ls => rfl

-- A terminator that is not a part of a longer one cuts off what stands before it.
theorem pieces_append_terminator {separator : Text} (hs : IsTerminator separator) {rest : Text}
    (hbehind : Seamless separator rest) {text : Text} (hbefore : Seamless text separator) :
    pieces (text ++ separator ++ rest) = pieces text ++ pieces rest := by
  fun_induction pieces text with
  | case1 =>
      exact pieces_terminator hs rest hbehind.head?_ne
  | case2 text ih => exact congrArg (List.cons []) (ih hbefore.of_cons.of_cons)
  | case3 c text hpair hc ih =>
      rw [List.cons_append, List.cons_append, List.cons_append, ← ih hbefore.of_cons]
      rcases hc with rfl | rfl
      · refine pieces_return ?_
        cases text with
        | nil => exact hbefore.append hs.ne_nil rfl
        | cons d text =>
            rw [List.cons_append, List.cons_append, List.head?_cons, ne_eq, Option.some.injEq]
            rintro rfl
            exact hpair text rfl rfl
      · exact pieces_feed _
  | case4 c text hpair hc ih =>
      rw [List.cons_append, List.cons_append, pieces_cons (not_or.mp hc), ih hbefore.of_cons,
        consFirst_append c (pieces_ne_nil text)]

theorem pieces_append_separator {separator text : Text} (hs : IsTerminator separator)
    (h : Seamless text separator) : pieces (text ++ separator) = pieces text ++ [[]] := by
  have hnil : Seamless separator [] := fun _ => by simp
  simpa [pieces] using pieces_append_terminator hs hnil h

theorem lines_append_separator {separator text : Text} (hs : IsTerminator separator)
    (h : Seamless text separator) : lines (text ++ separator) = pieces text := by
  rw [lines, pieces_append_separator hs h, if_neg (by simp [hs.ne_nil]), if_pos (by simp),
    List.dropLast_concat]

-- A line feed that completes a terminator ends no further line.
theorem lines_append_feed {text : Text} (h : text.getLast? = some '\r'.unit) :
    lines (text ++ ['\n'.unit]) = lines text := by
  obtain ⟨before, rfl⟩ := List.getLast?_eq_some_iff.mp h
  have hpair : before ++ ['\r'.unit] ++ ['\n'.unit] = before ++ ['\r'.unit, '\n'.unit] := by simp
  rw [hpair, lines_append_separator (by simp [IsTerminator]) (by simp [Seamless]),
    lines_append_separator (by simp [IsTerminator]) (by simp [Seamless])]

-- The terminator at the end, taken as long as it is.
theorem EndsLine.exists_cut {text : Text} (h : EndsLine text) :
    ∃ before separator, IsTerminator separator ∧ Seamless before separator ∧
      text = before ++ separator := by
  rcases h with h | h
  · obtain ⟨before, rfl⟩ := List.getLast?_eq_some_iff.mp h
    exact ⟨before, ['\r'.unit], by simp [IsTerminator], by simp [Seamless], rfl⟩
  · obtain ⟨before, rfl⟩ := List.getLast?_eq_some_iff.mp h
    by_cases hb : before.getLast? = some '\r'.unit
    · obtain ⟨shorter, rfl⟩ := List.getLast?_eq_some_iff.mp hb
      exact ⟨shorter, ['\r'.unit, '\n'.unit], by simp [IsTerminator], by simp [Seamless], by simp⟩
    · exact ⟨before, ['\n'.unit], by simp [IsTerminator], fun hr => absurd hr hb, rfl⟩

-- The lines of a text that ends in a terminator stay what they are, whatever is written behind it.
theorem EndsLine.pieces_append {text rest : Text} (h : EndsLine text) (hr : Seamless text rest) :
    pieces (text ++ rest) = lines text ++ pieces rest := by
  obtain ⟨before, separator, hs, hb, rfl⟩ := h.exists_cut
  have hbehind : Seamless separator rest := fun hlast => hr (by
    rw [List.getLast?_append_of_ne_nil _ hs.ne_nil, hlast])
  rw [pieces_append_terminator hs hbehind hb, lines_append_separator hs hb]

theorem EndsLine.pieces_eq {text : Text} (h : EndsLine text) : pieces text = lines text ++ [[]] := by
  have hnil : Seamless text [] := fun _ => by simp
  simpa [pieces] using h.pieces_append hnil

theorem EndsLine.cons {text : Text} (h : EndsLine text) (c : CodeUnit) : EndsLine (c :: text) := by
  cases text with
  | nil => exact absurd h (by decide)
  | cons d text => rwa [EndsLine, List.getLast?_cons_cons]

-- Only a terminator leaves an empty piece at the end.
theorem endsLine_of_pieces {text : Text} (h : (pieces text).getLast? = some []) (hne : text ≠ []) :
    EndsLine text := by
  have hbehind : ∀ {rest : Text} {first : Text}, (first :: pieces rest).getLast? = some [] →
      (pieces rest).getLast? = some [] := fun {rest first} hlast => by
    rwa [List.getLast?_cons_of_ne_nil (pieces_ne_nil rest)] at hlast
  fun_induction pieces text with
  | case1 => exact absurd rfl hne
  | case2 text ih =>
      by_cases ht : text = []
      · exact ht ▸ Or.inr rfl
      · exact ((ih (hbehind h) ht).cons _).cons _
  | case3 c text _ hc ih =>
      by_cases ht : text = []
      · rcases hc with rfl | rfl
        · exact ht ▸ Or.inl rfl
        · exact ht ▸ Or.inr rfl
      · exact (ih (hbehind h) ht).cons _
  | case4 c text _ hc ih =>
      by_cases ht : text = []
      · simp [ht, pieces, consFirst] at h
      · refine (ih ?_ ht).cons _
        cases hp : pieces text with
        | nil => exact absurd hp (pieces_ne_nil text)
        | cons piece more =>
            rw [hp, consFirst] at h
            cases more with
            | nil => simp at h
            | cons other more => exact h

theorem pieces_eq_of_not_endsLine {text : Text} (h : ¬EndsLine text) : pieces text = lines text := by
  by_cases hne : text = []
  · rw [hne]
    rfl
  · refine (pieces_eq_lines text).resolve_right fun hp => h (endsLine_of_pieces ?_ hne)
    rw [hp, List.getLast?_concat]

-- The lines are told by the pieces.
theorem lines_congr {text other : Text} (h : pieces text = pieces other) :
    lines text = lines other := by
  by_cases ht : text = []
  · subst ht
    rw [pieces_eq_singleton_nil h.symm]
  · have ho : other ≠ [] := fun ho => ht (pieces_eq_singleton_nil (by rw [h, ho]; rfl))
    have hlines : ∀ {text : Text}, text ≠ [] → lines text =
        if (pieces text).getLast? = some [] then (pieces text).dropLast else pieces text :=
      fun hne => if_neg (by simpa using hne)
    rw [hlines ht, hlines ho, h]

-- Text that is put behind a line keeps its lines, but for a line feed at its start that the
-- terminator of that line takes in.
theorem pieces_behind_line {separator line rest : Text} (hs : IsTerminator separator)
    (hl : Unbroken line) (hr : Seamless separator rest) (before : Text) :
    pieces (line ++ separator ++ (before ++ separator) ++ rest) =
      line :: ((if separator = ['\r'.unit] ∧ (before ++ separator).head? = some '\n'.unit then
        (lines (before ++ separator)).tail else lines (before ++ separator)) ++ pieces rest) := by
  have hends : ∀ text : Text, Seamless (text ++ separator) rest := fun text hlast =>
    hr (by rwa [List.getLast?_append_of_ne_nil _ hs.ne_nil] at hlast)
  by_cases hglue : separator = ['\r'.unit] ∧ (before ++ separator).head? = some '\n'.unit
  · rw [if_pos hglue]
    obtain ⟨rfl, hhead⟩ := hglue
    cases before with
    | nil => contradiction
    | cons c before =>
        obtain rfl : c = '\n'.unit := Option.some.inj hhead
        have hlines : lines ('\n'.unit :: before ++ ['\r'.unit]) =
            [] :: lines (before ++ ['\r'.unit]) := by
          have hpieces := (hs.endsLine ('\n'.unit :: before)).pieces_eq
          rw [List.cons_append, pieces_feed, (hs.endsLine before).pieces_eq, ← List.cons_append]
            at hpieces
          exact (List.append_cancel_right hpieces).symm
        have hpair : line ++ ['\r'.unit] ++ ('\n'.unit :: before ++ ['\r'.unit]) ++ rest =
            line ++ ['\r'.unit, '\n'.unit] ++ (before ++ ['\r'.unit] ++ rest) := by simp
        rw [hlines, hpair, pieces_line (by simp [IsTerminator]) hl _ (by simp),
          (hs.endsLine before).pieces_append (hends before), List.tail_cons]
  · rw [if_neg hglue, List.append_assoc, pieces_line hs hl,
      (hs.endsLine before).pieces_append (hends before)]
    rintro rfl hhead
    rw [List.head?_append_of_ne_nil _ (by simp)] at hhead
    exact hglue ⟨rfl, hhead⟩

end Sections.Text
