import Mathlib.Data.List.Forall2
import Sections.Edit.Chain
import Sections.Proofs.Check.Repair
import Sections.Proofs.Edit.LineRule
import Sections.Proofs.Text.Trimmed

namespace Sections

open Text (IsTerminator Trims)

namespace Check

variable {text other line short : Text}

-- The markers in a line are all that a scan sees of it.
theorem Scan.line_congr (ho : Marker.opening short = Marker.opening line)
    (hc : Marker.closes short = Marker.closes line) (s : Scan) (n : Nat) :
    s.line n short = s.line n line := by
  simp only [Scan.line, ho, hc]

theorem Scan.lines_of_trims {ls shorts : List Text} (h : List.Forall₂ Trims ls shorts) (n : Nat)
    (s : Scan) : Scan.lines n shorts s = Scan.lines n ls s := by
  induction h generalizing n s with
  | nil => rfl
  | cons hline _ ih =>
      have hstep := Scan.line_congr (Marker.opening_of_trims hline) (Marker.closes_of_trims hline) s n
      rw [Scan.lines, Scan.lines, hstep, ih]

theorem check_congr (h : scan other = scan text) : check other = check text := by
  simp only [check, findings, scan_pieces, h]

end Check

section Trimmed

variable {separator : Text}

theorem trimText_eq (separator text : Text) :
    trimText separator text = Text.unlines separator ((Text.lines text).map Text.trimEnd) := by
  simp only [trimText, LineRule.output_trimming]

theorem trims_lines (text : Text) :
    List.Forall₂ Trims (Text.lines text) ((Text.lines text).map Text.trimEnd) := by
  rw [List.forall₂_map_right_iff]
  exact List.forall₂_same.mpr fun line _ => Text.trims_trimEnd line

-- Trimming neither adds lines nor takes any away.
theorem lines_trimText (hs : IsTerminator separator) (text : Text) :
    Text.lines (trimText separator text) = (Text.lines text).map Text.trimEnd := by
  rw [trimText_eq]
  refine Text.lines_unlines hs (by simpa using Text.lines_ne_nil text) fun short hshort => ?_
  obtain ⟨line, hline, rfl⟩ := List.mem_map.mp hshort
  exact (Text.unbroken_of_mem_lines hline).trimEnd

theorem trimText_congr {text other : Text} (h : Text.lines other = Text.lines text) :
    trimText separator other = trimText separator text := by
  rw [trimText_eq, trimText_eq, h]

theorem trimText_trimText (hs : IsTerminator separator) (text : Text) :
    trimText separator (trimText separator text) = trimText separator text := by
  rw [trimText_eq, lines_trimText hs, trimText_eq, List.map_map]
  congr 2
  funext line
  exact Text.trimEnd_trimEnd line

theorem unlines_lines_trimText (hs : IsTerminator separator) (text : Text) :
    Text.unlines separator (Text.lines (trimText separator text)) = trimText separator text := by
  rw [lines_trimText hs, trimText_eq]

theorem Check.check_trimText (hs : IsTerminator separator) (text : Text) :
    check (trimText separator text) = check text := by
  refine check_congr ?_
  rw [scan, scan, lines_trimText hs]
  exact Scan.lines_of_trims (trims_lines text) 1 .initial

end Trimmed

variable {options : Options} {text : Text}

-- A section editor that changes nothing passes on the lines that it was given.
theorem Stage.output_identity {memory : Memory} (hm : memory.AtRest)
    (h : (options.readTree text).isOk = true) :
    (Stage.edit ⟨.sections (options.editor .identity), memory⟩ text).output =
      .ok (some (Text.unlines options.separator (Text.lines text))) := by
  obtain ⟨root, hroot⟩ := Options.exists_readTree h
  have hparse := Options.readTree_eq_ok_iff.mp hroot
  have hedit : ((options.editor .identity).edit memory text).result = .ok root :=
    ((options.editor .identity).edit_of_neverFails hm Hook.identity_neverFails hparse).1.trans
      (congrArg Except.ok root.mapContent_content)
  simp only [Stage.edit, hedit, Except.map]
  exact congrArg (fun output => Except.ok (some output)) (Section.render_parse hparse)

theorem Options.isOk_readTree_iff :
    (options.readTree text).isOk = true ↔ (Check.check text).valid = true := by
  constructor
  · intro h
    obtain ⟨root, hroot⟩ := exists_readTree h
    exact Check.valid_of_parse_ok (readTree_eq_ok_iff.mp hroot)
  · intro h
    obtain ⟨root, hroot⟩ := Check.exists_parse_of_valid options.separator h
    rw [readTree_of_parse_ok hroot]
    rfl

-- Two editors one after the other, where the first one has output.
theorem editChain_pair {first second : Stage} {middle : Text}
    (h : (first.edit text).output = .ok (some middle)) :
    (editChain [first, second] text).1 = (second.edit middle).output := by
  simp only [editChain, h]
  rcases (second.edit middle).output with error | _ | output <;> rfl

-- Trimming shortens every line by the blanks at its end and does nothing else: the report on the
-- text stays the same, and so does the order in which trimming and reading sections are done.
theorem Options.trim_keeps_structure (options : Options) (hs : IsTerminator options.separator)
    (text : Text) :
    (LineRule.trimming.edit options.separator text).output =
        .ok (some (trimText options.separator text)) ∧
      (∃ shorts, List.Forall₂ Trims (Text.lines text) shorts ∧
        trimText options.separator text = Text.unlines options.separator shorts) ∧
      Check.check (trimText options.separator text) = Check.check text ∧
      trimText options.separator (trimText options.separator text) =
        trimText options.separator text ∧
      ((options.readTree text).isOk = true → ∀ (trim sections : Stage) (delay : Nat),
        trim.editor = .lines .trimming options.separator delay →
        sections.editor = .sections (options.editor .identity) → sections.memory.AtRest →
          (editChain [trim, sections] text).1 = .ok (some (trimText options.separator text)) ∧
          (editChain [sections, trim] text).1 = .ok (some (trimText options.separator text))) := by
  have houtput : ∀ given, (LineRule.trimming.edit options.separator given).output =
      .ok (some (trimText options.separator given)) := fun given => by
    rw [LineRule.output_trimming, trimText_eq]
  refine ⟨houtput text, ⟨_, trims_lines text, trimText_eq _ _⟩, Check.check_trimText hs text,
    trimText_trimText hs text, ?_⟩
  rintro hok ⟨trim, used⟩ ⟨sections, memory⟩ delay rfl rfl hm
  have htrim : ∀ given, (Stage.edit ⟨.lines .trimming options.separator delay, used⟩ given).output =
      .ok (some (trimText options.separator given)) := houtput
  constructor
  · have hokTrimmed : (options.readTree (trimText options.separator text)).isOk = true := by
      rw [isOk_readTree_iff, Check.check_trimText hs]
      exact isOk_readTree_iff.mp hok
    rw [editChain_pair (htrim text), Stage.output_identity hm hokTrimmed, unlines_lines_trimText hs]
  · have hlines : Text.lines (Text.unlines options.separator (Text.lines text)) = Text.lines text :=
      Text.lines_unlines hs (Text.lines_ne_nil text) fun line => Text.unbroken_of_mem_lines
    rw [editChain_pair (Stage.output_identity hm hok), htrim, trimText_congr hlines]

-- Blanks behind each kind of marker, in the name of a section and on a line of their own. Two of
-- the blanks end lines elsewhere, but not here.
def blankEnds : Text :=
  Text.unlines ['\n'.unit] ["SECTION-START[a ]\u2028".units, "x \t".units, "\ufeff ".units,
    "SECTION-START[a ] SECTION-END\u2029".units, "SECTION-END\u3000".units,
    "SECTION-END ".units]

def blankEndsTrimmed : Text :=
  Text.unlines ['\r'.unit, '\n'.unit] ["SECTION-START[a ]".units, ['x'.unit], [],
    "SECTION-START[a ] SECTION-END".units, "SECTION-END".units, "SECTION-END".units]

theorem Options.trim_keeps_structure_blankEnds :
    IsTerminator ['\r'.unit, '\n'.unit] ∧ Memory.fresh.AtRest ∧
      trimText ['\r'.unit, '\n'.unit] blankEnds = blankEndsTrimmed ∧
      (Check.check blankEndsTrimmed).warnings = 1 ∧
      Check.check blankEndsTrimmed = Check.check blankEnds ∧
      trimText ['\r'.unit, '\n'.unit] blankEndsTrimmed = blankEndsTrimmed ∧
      (editChain [.fresh (.lines .trimming ['\r'.unit, '\n'.unit] 0),
          .fresh (.sections (Options.editor ⟨['\r'.unit, '\n'.unit], .sequential⟩ .identity))]
          blankEnds).1 =
        .ok (some blankEndsTrimmed) ∧
      (editChain [
          .fresh (.sections (Options.editor ⟨['\r'.unit, '\n'.unit], .sequential⟩ .identity)),
          .fresh (.lines .trimming ['\r'.unit, '\n'.unit] 0)] blankEnds).1 =
        .ok (some blankEndsTrimmed) := by
  have hs : IsTerminator ['\r'.unit, '\n'.unit] := by decide
  have htrimmed : trimText ['\r'.unit, '\n'.unit] blankEnds = blankEndsTrimmed := by decide +kernel
  obtain ⟨-, -, hcheck, hagain, hchain⟩ :=
    Options.trim_keeps_structure ⟨['\r'.unit, '\n'.unit], .sequential⟩ hs blankEnds
  simp only [htrimmed] at hcheck hagain hchain
  obtain ⟨hbefore, hafter⟩ := hchain (by decide +kernel)
    (.fresh (.lines .trimming ['\r'.unit, '\n'.unit] 0))
    (.fresh (.sections (Options.editor ⟨['\r'.unit, '\n'.unit], .sequential⟩ .identity)))
    0 rfl rfl rfl
  exact ⟨hs, rfl, htrimmed, by decide +kernel, hcheck, hagain, hbefore, hafter⟩

end Sections
