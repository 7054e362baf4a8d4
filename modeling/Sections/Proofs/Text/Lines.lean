import Mathlib.Data.List.Basic
import Sections.Text.Lines

namespace Sections.Text

-- The texts that end a line when a text is cut.
def IsTerminator (separator : Text) : Prop :=
  separator = ['\n'.unit] ∨ separator = ['\r'.unit, '\n'.unit] ∨ separator = ['\r'.unit]

-- No terminator is inside the line.
def Unbroken (line : Text) : Prop := ∀ c ∈ line, c ≠ '\r'.unit ∧ c ≠ '\n'.unit

instance (separator : Text) : Decidable (IsTerminator separator) :=
  inferInstanceAs (Decidable (_ ∨ _ ∨ _))

instance (line : Text) : Decidable (Unbroken line) :=
  List.decidableBAll (fun c => c ≠ '\r'.unit ∧ c ≠ '\n'.unit) line

theorem IsTerminator.ne_nil {separator : Text} (h : IsTerminator separator) : separator ≠ [] := by
  rcases h with rfl | rfl | rfl <;> simp

@[simp] theorem unlines_nil (separator : Text) : unlines separator [] = [] := rfl

@[simp] theorem unlines_cons (separator line : Text) (ls : List Text) :
    unlines separator (line :: ls) = line ++ separator ++ unlines separator ls := rfl

@[simp] theorem unlines_append (separator : Text) (first second : List Text) :
    unlines separator (first ++ second) = unlines separator first ++ unlines separator second := by
  simp [unlines]

theorem consFirst_ne_nil (c : CodeUnit) (ls : List Text) : consFirst c ls ≠ [] := by
  cases ls <;> simp [consFirst]

theorem unbroken_of_mem_consFirst {c : CodeUnit} (hc : c ≠ '\r'.unit ∧ c ≠ '\n'.unit)
    {ls : List Text} (h : ∀ line ∈ ls, Unbroken line) :
    ∀ line ∈ consFirst c ls, Unbroken line := by
  cases ls with
  | nil => simpa [consFirst, Unbroken] using hc
  | cons first rest =>
      obtain ⟨hfirst, hrest⟩ := List.forall_mem_cons.mp h
      exact List.forall_mem_cons.mpr ⟨List.forall_mem_cons.mpr ⟨hc, hfirst⟩, hrest⟩

theorem unbroken_of_mem_pieces (text : Text) : ∀ piece ∈ pieces text, Unbroken piece := by
  fun_induction pieces text with
  | case1 => simp [Unbroken]
  | case2 rest ih | case3 c rest _ hc ih =>
      exact List.forall_mem_cons.mpr ⟨by simp [Unbroken], ih⟩
  | case4 c rest _ hc ih => exact unbroken_of_mem_consFirst (not_or.mp hc) ih

theorem pieces_ne_nil (text : Text) : pieces text ≠ [] := by
  fun_induction pieces text with
  | case1 => simp
  | case2 rest ih => simp
  | case3 c rest _ hc ih => simp
  | case4 c rest _ hc ih => exact consFirst_ne_nil c _

theorem pieces_feed (rest : Text) : pieces ('\n'.unit :: rest) = [] :: pieces rest := by
  rw [pieces]
  · simp
  · rintro tail hc
    exact absurd hc (by decide)

theorem pieces_return {rest : Text} (h : rest.head? ≠ some '\n'.unit) :
    pieces ('\r'.unit :: rest) = [] :: pieces rest := by
  rw [pieces]
  · simp
  · rintro tail - rfl
    exact h rfl

theorem pieces_cons {c : CodeUnit} (hc : c ≠ '\r'.unit ∧ c ≠ '\n'.unit) (rest : Text) :
    pieces (c :: rest) = consFirst c (pieces rest) := by
  rw [pieces]
  · simp [hc]
  · rintro tail rfl
    exact absurd rfl hc.1

-- A line feed behind a carriage return would belong to the same terminator.
theorem pieces_terminator {separator : Text} (h : IsTerminator separator) (rest : Text)
    (hrest : separator = ['\r'.unit] → rest.head? ≠ some '\n'.unit) :
    pieces (separator ++ rest) = [] :: pieces rest := by
  rcases h with rfl | rfl | rfl
  · exact pieces_feed rest
  · rfl
  · exact pieces_return (hrest rfl)

theorem pieces_unbroken {line : Text} (h : Unbroken line) (rest : Text) :
    pieces (line ++ rest) =
      (line ++ (pieces rest).head (pieces_ne_nil rest)) :: (pieces rest).tail := by
  induction line with
  | nil => simp
  | cons c line ih =>
      have hc := h c (by simp)
      have hl : Unbroken line := fun d hd => h d (List.mem_cons_of_mem c hd)
      rw [List.cons_append, pieces_cons hc, ih hl]
      rfl

theorem pieces_eq_singleton {line : Text} (h : Unbroken line) : pieces line = [line] := by
  simpa [pieces] using pieces_unbroken h []

-- A separated line comes back as the first piece.
theorem pieces_line {separator line : Text} (hs : IsTerminator separator) (hl : Unbroken line)
    (rest : Text) (hrest : separator = ['\r'.unit] → rest.head? ≠ some '\n'.unit) :
    pieces (line ++ separator ++ rest) = line :: pieces rest := by
  rw [List.append_assoc, pieces_unbroken hl]
  simp [pieces_terminator hs rest hrest]

-- Only the line feed of a terminator could follow a carriage return, and no line starts with it.
theorem head_line_ne_feed {line : Text} (h : Unbroken line) (rest : Text) :
    (line ++ ['\r'.unit] ++ rest).head? ≠ some '\n'.unit := by
  cases line with
  | nil => simp
  | cons c line =>
      have hc := h c (by simp)
      simpa using hc.2

-- Separated lines come back as the first pieces.
theorem pieces_unlines_append {separator : Text} (hs : IsTerminator separator) {ls : List Text}
    (h : ∀ line ∈ ls, Unbroken line) (rest : Text)
    (hrest : separator = ['\r'.unit] → rest.head? ≠ some '\n'.unit) :
    pieces (unlines separator ls ++ rest) = ls ++ pieces rest := by
  induction ls with
  | nil => rfl
  | cons line ls ih =>
      obtain ⟨hline, hl⟩ := List.forall_mem_cons.mp h
      rw [unlines_cons, List.append_assoc, pieces_line hs hline, ih hl, List.cons_append]
      rintro rfl
      cases ls with
      | nil => exact hrest rfl
      | cons other ls =>
          rw [unlines_cons, List.append_assoc]
          exact head_line_ne_feed (hl other (by simp)) _

theorem pieces_unlines {separator : Text} (hs : IsTerminator separator) (ls : List Text)
    (h : ∀ line ∈ ls, Unbroken line) : pieces (unlines separator ls) = ls ++ [[]] := by
  simpa [pieces] using pieces_unlines_append hs h [] (by simp)

theorem unlines_ne_nil {separator : Text} (hs : separator ≠ []) {ls : List Text} (h : ls ≠ []) :
    unlines separator ls ≠ [] := by
  cases ls with
  | nil => exact absurd rfl h
  | cons line ls => simp [hs]

-- Cutting undoes joining.
theorem lines_unlines {separator : Text} (hs : IsTerminator separator) {ls : List Text}
    (hne : ls ≠ []) (h : ∀ line ∈ ls, Unbroken line) : lines (unlines separator ls) = ls := by
  have hu := unlines_ne_nil hs.ne_nil hne
  rw [lines, if_neg (by simpa using hu), pieces_unlines hs ls h, if_pos (by simp)]
  simp

-- The pieces hold one more empty line where the text ends in a terminator.
theorem pieces_eq_lines (text : Text) :
    pieces text = lines text ∨ pieces text = lines text ++ [[]] := by
  unfold lines
  split
  · rename_i he
    rw [List.isEmpty_iff] at he
    subst he
    exact Or.inl rfl
  · split
    · rename_i hlast
      exact Or.inr (List.dropLast_append_getLast? [] hlast).symm
    · exact Or.inl rfl

theorem unbroken_of_mem_lines {text line : Text} (h : line ∈ lines text) : Unbroken line := by
  apply unbroken_of_mem_pieces text
  rcases pieces_eq_lines text with hp | hp
  · exact hp ▸ h
  · exact hp ▸ List.mem_append_left _ h

-- A single empty piece is that of the empty text, which is one line.
theorem pieces_eq_singleton_nil {text : Text} (h : pieces text = [[]]) : text = [] := by
  fun_induction pieces text with
  | case1 => rfl
  | case2 rest ih | case3 c rest _ hc ih => exact absurd (List.cons.inj h).2 (pieces_ne_nil rest)
  | case4 c rest _ hc ih =>
      cases hp : pieces rest <;> simp [hp, consFirst] at h

theorem lines_ne_nil (text : Text) : lines text ≠ [] := by
  intro h
  rcases pieces_eq_lines text with hp | hp
  · exact pieces_ne_nil text (hp.trans h)
  · rw [h] at hp
    rw [pieces_eq_singleton_nil hp] at h
    contradiction

end Sections.Text
