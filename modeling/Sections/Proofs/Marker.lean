import Sections.Proofs.Check.Scan
import Sections.Proofs.Text.Search

namespace Sections.Marker

open Check (Scan)

-- A line with a start mark, by what stands before its first one, the name behind that, and what
-- follows the bracket that ends the name.
structure Divides (line before name rest : Text) : Prop where
  mark : Text.FirstAt startMark line before (name ++ ']'.unit :: rest)
  name : ']'.unit ∉ name

variable {line before name rest : Text}

theorem opening_eq_none_iff : opening line = .none ↔ ¬startMark <:+: line := by
  rw [← Text.after?_eq_none_iff, opening]
  cases Text.after? startMark line with
  | none => simp
  | some rest =>
      cases hb : Text.before? ']'.unit rest <;> simp [hb]

theorem opening_eq_malformed_iff :
    opening line = .malformed ↔
      ∃ before rest, Text.FirstAt startMark line before rest ∧ ']'.unit ∉ rest := by
  constructor
  · intro h
    unfold opening at h
    split at h
    · contradiction
    · rename_i rest ha
      split at h
      · rename_i hb
        obtain ⟨before, hf⟩ := Text.after?_eq_some_iff.mp ha
        exact ⟨before, rest, hf, Text.before?_eq_none_iff.mp hb⟩
      · contradiction
  · rintro ⟨before, rest, hf, hb⟩
    simp only [opening, hf.after?, Text.before?_eq_none_iff.mpr hb]

theorem opening_eq_opens_iff :
    opening line = .opens (some name) ↔ ∃ before rest, Divides line before name rest := by
  constructor
  · intro h
    unfold opening at h
    split at h
    · contradiction
    · rename_i behind ha
      split at h
      · contradiction
      · rename_i found hb
        obtain rfl : found = name := by simpa using h
        obtain ⟨before, hf⟩ := Text.after?_eq_some_iff.mp ha
        obtain ⟨hn, rest, rfl⟩ := Text.before?_eq_some_iff.mp hb
        exact ⟨before, rest, hf, hn⟩
  · rintro ⟨before, rest, hf, hn⟩
    have hb := Text.before?_eq_some_iff.mpr ⟨hn, rest, rfl⟩
    simp only [opening, hf.after?, hb]

theorem Divides.unique {before' name' rest' : Text} (h : Divides line before name rest)
    (h' : Divides line before' name' rest') : before = before' ∧ name = name' ∧ rest = rest' := by
  obtain ⟨hbefore, hbehind⟩ := h.mark.unique h'.mark
  have hname := Text.before?_eq_some_iff.mpr ⟨h.name, rest, rfl⟩
  have hname' := Text.before?_eq_some_iff.mpr ⟨h'.name, rest', rfl⟩
  rw [hbehind, hname'] at hname
  obtain rfl := Option.some.inj hname
  exact ⟨hbefore, rfl, (List.cons.inj (List.append_cancel_left hbehind)).2⟩

-- Start marks do not overlap, since a start mark ends in its only opening bracket.
theorem divides_of_not_infix (hb : ¬startMark <:+: before) (hn : ']'.unit ∉ name) (rest : Text) :
    Divides (before ++ startMark ++ (name ++ ']'.unit :: rest)) before name rest :=
  ⟨Text.firstAt_of_not_infix "SECTION-START".units '['.unit rfl (by decide) hb _, hn⟩

-- Start markers are recognised just by their grammar: the first start mark of a line counts, and
-- the first closing bracket behind it. Whatever else the line holds, reading opens a section of
-- that name, and so does checking.
theorem opening_grammar (line : Text) :
    (∀ name, opening line = .opens (some name) ↔ ∃ before rest, Divides line before name rest) ∧
      (∀ before name rest before' name' rest', Divides line before name rest →
        Divides line before' name' rest' → before = before' ∧ name = name' ∧ rest = rest') ∧
      (opening line = .malformed ↔
        ∃ before rest, Text.FirstAt startMark line before rest ∧ ']'.unit ∉ rest) ∧
      (opening line = .none ↔ ¬startMark <:+: line) ∧
      opening line ≠ .opens none ∧
      ∀ before name rest, ¬startMark <:+: before → ']'.unit ∉ name →
        line = before ++ startMark ++ name ++ ']'.unit :: rest →
          opening line = .opens (some name) ∧
            (∀ separator n st, OpenStack.consume .standard separator n line st =
              .ok (st.push (some name) line)) ∧
            ∀ (scan : Scan) n, scan.line n line = scan.openSection n name := by
  refine ⟨fun name => opening_eq_opens_iff, fun _ _ _ _ _ _ => Divides.unique,
    opening_eq_malformed_iff, opening_eq_none_iff, Vocabulary.standard_named line,
    fun before name rest hb hn hl => ?_⟩
  rw [List.append_assoc _ name] at hl
  subst hl
  have ho := opening_eq_opens_iff.mpr ⟨before, rest, divides_of_not_infix hb hn rest⟩
  have hv : Vocabulary.standard.opening _ = _ := ho
  exact ⟨ho, fun separator n st => by simp only [OpenStack.consume, hv],
    fun scan n => scan.line_opens ho n⟩

-- Half a start mark stands before the first one, and markers stand in the name and behind it.
theorem opening_grammar_nestedMarks :
    ¬startMark <:+: "x]SECTION-START".units ∧
      ']'.unit ∉ "aSECTION-START[b SECTION-END".units ∧
      opening "x]SECTION-STARTSECTION-START[aSECTION-START[b SECTION-END]SECTION-START[c]".units =
        .opens (some "aSECTION-START[b SECTION-END".units) := by
  have hb : ¬startMark <:+: "x]SECTION-START".units := by decide
  have hn : ']'.unit ∉ "aSECTION-START[b SECTION-END".units := by decide
  obtain ⟨-, -, -, -, -, h⟩ := opening_grammar
    "x]SECTION-STARTSECTION-START[aSECTION-START[b SECTION-END]SECTION-START[c]".units
  exact ⟨hb, hn, (h _ _ "SECTION-START[c]".units hb hn rfl).1⟩

end Sections.Marker
