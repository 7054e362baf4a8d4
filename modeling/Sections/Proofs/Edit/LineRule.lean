import Sections.Edit.LineRule
import Sections.Proofs.Text.Terminators

namespace Sections.LineRule

open Text (IsTerminator Terminated Unbroken)

section Rewriting

variable {rule : LineRule} {rewrite : Text → Text}
  (h : ∀ n line, rule.replace n line = .ok (some (rewrite line)))

include h

theorem replaceFrom_of_rewrites (n : Nat) (ls : List Text) :
    rule.replaceFrom n ls = .ok (ls.map rewrite) := by
  induction ls generalizing n with
  | nil => rfl
  | cons line rest ih => simp only [replaceFrom, h, ih, Except.map, List.map_cons]

-- A rule that rewrites each line for itself always has an output.
theorem output_of_rewrites (hclose : rule.close = .ok none) (separator text : Text) :
    (rule.edit separator text).output =
      .ok (some (Text.unlines separator ((Text.lines text).map rewrite))) := by
  simp only [edit, replaceFrom_of_rewrites h, hclose, Except.map]
  cases hls : Text.lines text with
  | nil => exact absurd hls (Text.lines_ne_nil text)
  | cons line rest => simp [written]

end Rewriting

theorem output_identity (separator text : Text) :
    (identity.edit separator text).output =
      .ok (some (Text.unlines separator (Text.lines text))) := by
  have hid : ∀ n line, identity.replace n line = .ok (some (id line)) := fun _ _ => rfl
  rw [output_of_rewrites hid rfl, List.map_id]

theorem output_trimming (separator text : Text) :
    (trimming.edit separator text).output =
      .ok (some (Text.unlines separator ((Text.lines text).map Text.trimEnd))) :=
  output_of_rewrites (fun _ _ => rfl) rfl separator text

-- Cutting a text into lines is the inverse of ending lines, whatever ends each of them. So writing
-- the lines again with one terminator gives a text that stays as it is.
theorem lines_inverse {separator : Text} (hs : IsTerminator separator) :
    (∀ text, ∃ ends, Terminated text (Text.lines text) ends) ∧
      (∀ text ls ends, Terminated text ls ends → Text.lines text = ls) ∧
      (∀ ls, ls ≠ [] → (∀ line ∈ ls, Unbroken line) →
        Text.lines (Text.unlines separator ls) = ls) ∧
      ∀ text, ∃ output,
        (identity.edit separator text).output = .ok (some output) ∧
          (identity.edit separator output).output = .ok (some output) := by
  refine ⟨fun text => ?_, fun text ls ends h => h.lines_eq, fun ls => Text.lines_unlines hs,
    fun text => ⟨_, output_identity separator text, ?_⟩⟩
  · obtain ⟨ls, ends, h⟩ := Text.exists_terminated text
    exact ⟨ends, h.lines_eq.symm ▸ h⟩
  · rw [output_identity, Text.lines_unlines hs (Text.lines_ne_nil text) fun _ =>
      Text.unbroken_of_mem_lines]

-- Empty lines at the start, in the middle and at the end, and every kind of terminator.
theorem lines_inverse_emptyLines :
    IsTerminator ['\r'.unit] ∧
      (∃ ends, Terminated "\r\r\n\na\n\r".units [[], [], [], ['a'.unit], []] ends) ∧
      Text.lines (Text.unlines ['\r'.unit] [[], ['a'.unit], [], []]) = [[], ['a'.unit], [], []] ∧
      (identity.edit ['\r'.unit] "\n\na\r\n\n".units).output = .ok (some "\r\ra\r\r".units) ∧
      (identity.edit ['\r'.unit] "\r\ra\r\r".units).output = .ok (some "\r\ra\r\r".units) := by
  have hs : IsTerminator ['\r'.unit] := by decide
  obtain ⟨hcut, -, hjoin, hedit⟩ := lines_inverse hs
  obtain ⟨output, hfirst, hagain⟩ := hedit "\n\na\r\n\n".units
  obtain rfl : output = "\r\ra\r\r".units :=
    Option.some.inj (Except.ok.inj (hfirst.symm.trans rfl))
  exact ⟨hs, hcut "\r\r\n\na\n\r".units, hjoin _ (by decide) (by decide), hfirst, hagain⟩

end Sections.LineRule
