import Sections.Proofs.Edit.SectionEditor

namespace Sections

open Schedule (Strategy)

namespace SectionEditor

-- An edit that changes nothing gives back every line once and in its place, whatever the markers
-- are and however the sections are scheduled. It succeeds on every text whose markers nest.
theorem editText_identity (v : Vocabulary) (separator : Text) (strategy : Strategy)
    (memory : Memory) (hm : memory.AtRest) (text output : Text) :
    (SectionEditor.mk v separator strategy .identity).editText memory text = .ok output ↔
      (Section.parse v separator text).isOk = true ∧
        output = Text.unlines separator (Text.lines text) := by
  cases h : Section.parse v separator text with
  | error e =>
      have he := edit_of_parse_error (.mk v separator strategy .identity) hm h
      simp [editText, he, Except.map, Except.isOk, Except.toBool]
  | ok root =>
      have he := edit_of_neverFails (.mk v separator strategy .identity) hm
        Hook.identity_neverFails h
      have hr := Section.render_parse h
      simp only [editText, he.1, TreeEdit.edited_identity, Section.mapContent_content, Except.map,
        hr, Except.ok.injEq]
      constructor
      · rintro rfl
        exact ⟨rfl, rfl⟩
      · rintro ⟨-, rfl⟩
        rfl

-- A nameless section ends with its child here, and the wrapper around it by the last end marker.
theorem editText_identity_nameless :
    Memory.fresh.AtRest ∧
      (SectionEditor.mk .comments "|".units (.concurrent (.atMost 2 (by decide)))
          .identity).editText .fresh ("a\r\n<!-- begin x -->\n\n<!-- end -->\rb\n<!-- begin -->\n<!-- begin y -->\n" ++
          "<!-- end -->\n\nc\n<!-- end -->").units =
        .ok ("a|<!-- begin x -->||<!-- end -->|b|<!-- begin -->|<!-- begin y -->|" ++
          "<!-- end -->||c|<!-- end -->|").units :=
  ⟨rfl, (editText_identity _ _ _ .fresh rfl _ _).mpr (by decide)⟩

end SectionEditor

end Sections
