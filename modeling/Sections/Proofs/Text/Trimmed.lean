import Mathlib.Data.List.DropRight
import Sections.Marker
import Sections.Proofs.Text.Lines
import Sections.Proofs.Text.Search

namespace Sections

namespace Text

-- A line without the longest run of blanks at its end.
structure Trims (line short : Text) : Prop where
  cut : ∃ run : Text, line = short ++ run ∧ ∀ c ∈ run, isBlank c = true
  last : ∀ c, short.getLast? = some c → isBlank c = false

theorem trims_trimEnd (line : Text) : Trims line (trimEnd line) := by
  constructor
  · refine ⟨line.rtakeWhile isBlank, ?_, fun c hc => List.mem_rtakeWhile_imp hc⟩
    rw [trimEnd, List.rtakeWhile, ← List.reverse_append, List.takeWhile_append_dropWhile,
      List.reverse_reverse]
  · intro c hc
    obtain ⟨before, hb⟩ := List.getLast?_eq_some_iff.mp hc
    have hdrop : line.rdropWhile isBlank = before ++ [c] := hb
    have hlast := List.rdropWhile_last_not isBlank line (by simp [hdrop])
    simpa [hdrop] using hlast

theorem trimEnd_trimEnd (line : Text) : trimEnd (trimEnd line) = trimEnd line :=
  List.rdropWhile_idempotent isBlank line

theorem Unbroken.trimEnd {line : Text} (h : Unbroken line) : Unbroken (trimEnd line) :=
  fun c hc => h c ((List.rdropWhile_prefix isBlank line).subset hc)

section Search

variable {pattern run : Text}

-- A pattern without blanks does not reach into a run of blanks.
theorem isPrefixOf_append_blank (hp : pattern.any isBlank = false)
    (hr : ∀ c ∈ run, isBlank c = true) (text : Text) :
    pattern.isPrefixOf (text ++ run) = pattern.isPrefixOf text := by
  rw [Bool.eq_iff_iff, List.isPrefixOf_iff_prefix, List.isPrefixOf_iff_prefix]
  refine ⟨fun h => ?_, fun h => h.trans (List.prefix_append text run)⟩
  rcases List.prefix_or_prefix_of_prefix h (List.prefix_append text run) with ht | ⟨more, rfl⟩
  · exact ht
  · cases more with
    | nil => simp
    | cons c more =>
        have hmem : c ∈ run := ((List.prefix_append_right_inj text).mp h).subset List.mem_cons_self
        exact absurd (hr c hmem) (List.any_eq_false.mp hp c (by simp))

theorem after?_blank (hne : pattern ≠ []) (hp : pattern.any isBlank = false)
    (hr : ∀ c ∈ run, isBlank c = true) : after? pattern run = none := by
  have hprefix : ∀ more : Text, (∀ c ∈ more, isBlank c = true) → pattern.isPrefixOf more = false :=
    fun more hm => by
      rw [← List.nil_append more, isPrefixOf_append_blank hp hm]
      cases pattern with
      | nil => exact absurd rfl hne
      | cons c pattern => rfl
  induction run with
  | nil => simp [after?, hne]
  | cons c run ih =>
      rw [after?, hprefix _ hr, if_neg Bool.false_ne_true]
      exact ih fun d hd => hr d (List.mem_cons_of_mem c hd)

-- Blanks at the end only make what follows a pattern longer.
theorem after?_append_blank (hne : pattern ≠ []) (hp : pattern.any isBlank = false)
    (hr : ∀ c ∈ run, isBlank c = true) (text : Text) :
    after? pattern (text ++ run) = (after? pattern text).map (· ++ run) := by
  induction text with
  | nil =>
      rw [List.nil_append, after?_blank hne hp hr]
      simp [after?, hne]
  | cons c text ih =>
      have hprefix := isPrefixOf_append_blank hp hr (c :: text)
      rw [List.cons_append] at hprefix
      rw [List.cons_append, after?, after?, hprefix, ih]
      split
      · rename_i h
        have hlength := (List.isPrefixOf_iff_prefix.mp h).length_le
        rw [Option.map_some, ← List.cons_append, List.drop_append_of_le_length hlength]
      · rfl

theorem before?_append {stop : CodeUnit} (h : stop ∉ run) (text : Text) :
    before? stop (text ++ run) = before? stop text := by
  induction text with
  | nil => exact before?_eq_none_iff.mpr h
  | cons c text ih => rw [List.cons_append, before?, before?, ih]

end Search

end Text

namespace Marker

variable {run : Text}

theorem opening_append_blank (hr : ∀ c ∈ run, Text.isBlank c = true) (line : Text) :
    opening (line ++ run) = opening line := by
  have hbracket : ']'.unit ∉ run := fun hm => absurd (hr _ hm) (by decide)
  rw [opening, opening, Text.after?_append_blank (by decide) (by decide) hr]
  cases Text.after? startMark line with
  | none => rfl
  | some rest => simp only [Option.map_some, Text.before?_append hbracket]

theorem closes_append_blank (hr : ∀ c ∈ run, Text.isBlank c = true) (line : Text) :
    closes (line ++ run) = closes line := by
  rw [closes, closes, Text.contains, Text.contains,
    Text.after?_append_blank (by decide) (by decide) hr, Option.isSome_map]

-- Blanks at the end of a line take no part in its marker.
theorem opening_of_trims {line short : Text} (h : Text.Trims line short) :
    opening short = opening line := by
  obtain ⟨run, rfl, hr⟩ := h.cut
  exact (opening_append_blank hr short).symm

theorem closes_of_trims {line short : Text} (h : Text.Trims line short) :
    closes short = closes line := by
  obtain ⟨run, rfl, hr⟩ := h.cut
  exact (closes_append_blank hr short).symm

end Marker

end Sections
