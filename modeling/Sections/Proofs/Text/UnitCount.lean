import Sections.Proofs.Marker
import Sections.Proofs.Text.Lines

namespace Sections

namespace Text

def unitCount : List Text → Nat
  | [] => 0
  | line :: rest => line.length + unitCount rest

theorem unitCount_append (first second : List Text) :
    unitCount (first ++ second) = unitCount first + unitCount second := by
  induction first with
  | nil => exact (Nat.zero_add _).symm
  | cons line rest ih =>
      simp only [List.cons_append, unitCount, ih]
      omega

theorem unitCount_consFirst (c : CodeUnit) (ls : List Text) :
    unitCount (consFirst c ls) = 1 + unitCount ls := by
  cases ls with
  | nil => simp [consFirst, unitCount]
  | cons line rest =>
      simp only [consFirst, unitCount, List.length_cons]
      omega

@[simp] theorem unitCount_nil_cons (ls : List Text) : unitCount ([] :: ls) = unitCount ls :=
  Nat.zero_add _

theorem unitCount_pieces_le (text : Text) : unitCount (pieces text) ≤ text.length := by
  fun_induction pieces text with
  | case1 => exact Nat.le_refl _
  | case2 rest ih | case3 c rest _ hc ih =>
      simp only [unitCount_nil_cons, List.length_cons]
      omega
  | case4 c rest _ hc ih =>
      rw [unitCount_consFirst, List.length_cons]
      omega

theorem unitCount_lines_le (text : Text) : unitCount (lines text) ≤ text.length := by
  have hle := unitCount_pieces_le text
  rcases pieces_eq_lines text with hp | hp
  · rwa [hp] at hle
  · rw [hp, unitCount_append] at hle
    omega

end Text

-- The start mark takes more units than the indentation of one level.
theorem Marker.length_of_opens {line name : Text} (h : opening line = .opens (some name)) :
    2 + name.length ≤ line.length := by
  obtain ⟨before, rest, hdivides⟩ := opening_eq_opens_iff.mp h
  have hmark : 2 ≤ startMark.length := by decide
  simp only [hdivides.mark.cut, List.length_append, List.length_cons]
  omega

end Sections
