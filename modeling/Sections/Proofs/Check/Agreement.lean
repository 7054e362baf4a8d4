import Sections.Proofs.Check.Scan
import Sections.Proofs.Edit.SectionEditor
import Sections.Proofs.Nesting.Reads

namespace Sections

namespace Check

theorem LineAt.lt {first n : Nat} {ls : List Text} {line : Text} (h : LineAt first ls n line) :
    first ≤ n ∧ n < first + ls.length := by
  obtain ⟨i, hi, rfl⟩ := h
  have := (List.getElem?_eq_some_iff.mp hi).1
  omega

section Reads

variable {separator : Text} {ls : List Text} {st : OpenStack}

-- The scan finds no error where reading finds no bad marker.
theorem reads_warns (h : OpenStack.Reads .standard separator ls st) :
    Scan.initial.Warns (Scan.lines 1 ls .initial) := by
  induction h with
  | root layout => exact (Scan.lines_layout layout 1 .initial).2
  | @inside ls st outer start name ho layout ih =>
      have hl := Scan.lines_layout layout (1 + ls.length + 1)
        ((Scan.lines 1 ls .initial).openSection (1 + ls.length) name)
      rw [Scan.lines_append, Scan.lines, Scan.line_opens ho]
      exact (ih.trans (Scan.Warns.openSection _ _ name)).trans hl.2

theorem reads_openAt_root (h : OpenStack.Reads .standard separator ls st) (hb : st.below = []) :
    (Scan.lines 1 ls .initial).openAt = [] := by
  cases h with
  | root layout => exact (Scan.lines_layout layout 1 .initial).1
  | inside outer start name ho layout => exact absurd hb (OpenStack.push_below_ne_nil _ _ _)

-- The innermost open section is the same for both, and it was opened last.
theorem reads_openAt_inside (h : OpenStack.Reads .standard separator ls st) (hb : st.below ≠ []) :
    ∃ n name rest, (Scan.lines 1 ls .initial).openAt = (n, name) :: rest ∧
      st.top.name = some name ∧ ∀ entry ∈ rest, entry.1 ≤ n := by
  cases h with
  | root layout => exact absurd rfl hb
  | @inside ls st outer start name ho layout =>
      have hl := Scan.lines_layout layout (1 + ls.length + 1)
        ((Scan.lines 1 ls .initial).openSection (1 + ls.length) name)
      refine ⟨1 + ls.length, name, (Scan.lines 1 ls .initial).openAt, ?_, ?_, fun entry he => ?_⟩
      · rw [Scan.lines_append, Scan.lines, Scan.line_opens ho, hl.1, Scan.openSection_openAt]
      · simp [OpenSection.opened]
      · rcases Scan.mem_lines_openAt he with he | ⟨line, hat, -⟩
        · exact absurd he List.not_mem_nil
        · exact Nat.le_of_lt hat.lt.2

end Reads

-- The findings of a text before they are sorted.
def scan (text : Text) : Scan := Scan.lines 1 (Text.lines text) .initial

theorem scan_pieces (text : Text) : Scan.lines 1 (Text.pieces text) .initial = scan text := by
  rcases Text.pieces_eq_lines text with h | h
  · rw [h, scan]
  · have hplain : Vocabulary.standard.IsPlain [] := ⟨rfl, rfl⟩
    rw [h, Scan.lines_append, Scan.lines, Scan.line_plain hplain]
    rfl

theorem mem_issues {text : Text} {issue : Issue Nat} :
    issue ∈ (check text).issues ↔
      ∃ f : Located, (f ∈ (scan text).findings ∨ ∃ entry ∈ (scan text).openAt,
        f = (entry.1, .unclosed entry.2 entry.1)) ∧ Issue.ofLocated f = issue := by
  simp [check, findings, scan_pieces, Scan.unclosed, eq_comm]

theorem mem_scan_described {text : Text} {f : Located}
    (h : f ∈ (scan text).findings ∨ ∃ entry ∈ (scan text).openAt,
      f = (entry.1, .unclosed entry.2 entry.1)) :
    ∃ line, LineAt 1 (Text.lines text) f.1 line ∧ f.2.Describes line := by
  rcases h with h | ⟨entry, he, rfl⟩
  · exact (Scan.mem_lines h).resolve_left List.not_mem_nil
  · exact (Scan.mem_lines_openAt he).resolve_left List.not_mem_nil

namespace Finding

-- The findings that end an edit at their line.
def Stops (finding : Finding) : Prop := finding = .malformedMarker ∨ finding = .unmatchedEnd

theorem Stops.severity {finding : Finding} (h : finding.Stops) : finding.severity = .error := by
  rcases h with rfl | rfl <;> rfl

theorem code_unclosed (name : Text) (n : Nat) :
    (unclosed name n).code = "UNCLOSED_SECTION".units := rfl

theorem code_duplicate (name : Text) (n : Nat) :
    (duplicate name n).code = "DUPLICATE_SECTION".units := rfl

theorem code_eq_malformed {finding : Finding} :
    finding.code = "MALFORMED_MARKER".units ↔ finding = .malformedMarker := by
  cases finding with
  | malformedMarker => exact iff_of_true rfl rfl
  | unmatchedEnd | emptyName => exact iff_of_false (by decide) (by decide)
  | unclosed name n => exact iff_of_false (by rw [code_unclosed]; decide) nofun
  | duplicate name n => exact iff_of_false (by rw [code_duplicate]; decide) nofun

theorem code_eq_unmatched {finding : Finding} :
    finding.code = "UNMATCHED_END".units ↔ finding = .unmatchedEnd := by
  cases finding with
  | unmatchedEnd => exact iff_of_true rfl rfl
  | malformedMarker | emptyName => exact iff_of_false (by decide) (by decide)
  | unclosed name n => exact iff_of_false (by rw [code_unclosed]; decide) nofun
  | duplicate name n => exact iff_of_false (by rw [code_duplicate]; decide) nofun

theorem code_eq_unclosed {finding : Finding} :
    finding.code = "UNCLOSED_SECTION".units ↔ ∃ name n, finding = .unclosed name n := by
  cases finding with
  | unclosed name n => exact iff_of_true rfl ⟨name, n, rfl⟩
  | malformedMarker | unmatchedEnd | emptyName => exact iff_of_false (by decide) (by simp)
  | duplicate name n => exact iff_of_false (by rw [code_duplicate]; decide) (by simp)

end Finding

-- The issues that end an edit at their line.
def Issue.Stops (issue : Issue Nat) : Prop :=
  issue.code = "MALFORMED_MARKER".units ∨ issue.code = "UNMATCHED_END".units

theorem stops_ofLocated {f : Located} : (Issue.ofLocated f).Stops ↔ f.2.Stops :=
  or_congr Finding.code_eq_malformed Finding.code_eq_unmatched

-- The error with which an edit fails, by the report on its text: the first line with a malformed
-- marker or an end that closes nothing decides; where there is none, the section opened last of
-- those that are never closed.
inductive Foretells (report : Report Nat) (ls : List Text) : StructureError → Prop where
  | malformed (issue : Issue Nat) (hi : issue ∈ report.issues)
      (hcode : issue.code = "MALFORMED_MARKER".units)
      (hfirst : ∀ other ∈ report.issues, other.Stops → issue.line ≤ other.line)
      (line : Text) (hl : LineAt 1 ls issue.line line) :
      Foretells report ls (.malformed issue.line line)
  | unmatchedEnd (issue : Issue Nat) (hi : issue ∈ report.issues)
      (hcode : issue.code = "UNMATCHED_END".units)
      (hfirst : ∀ other ∈ report.issues, other.Stops → issue.line ≤ other.line)
      (line : Text) (hl : LineAt 1 ls issue.line line) :
      Foretells report ls (.unmatchedEnd issue.line line)
  | unterminated (hnone : ∀ other ∈ report.issues, ¬other.Stops)
      (hall : ∀ other ∈ report.issues, other.severity = .error →
        other.code = "UNCLOSED_SECTION".units)
      (issue : Issue Nat) (hi : issue ∈ report.issues)
      (hcode : issue.code = "UNCLOSED_SECTION".units)
      (hlast : ∀ other ∈ report.issues, other.code = "UNCLOSED_SECTION".units →
        other.line ≤ issue.line)
      (line name : Text) (hl : LineAt 1 ls issue.line line)
      (hname : Marker.opening line = .opens (some name)) :
      Foretells report ls (.unterminated ls.length (some name))

theorem valid_iff {text : Text} :
    (check text).valid = true ↔ ∀ issue ∈ (check text).issues, issue.severity ≠ .error := by
  simp [check]

theorem severity_of_stops {text : Text} {issue : Issue Nat} (hi : issue ∈ (check text).issues)
    (hs : issue.Stops) : issue.severity = .error := by
  obtain ⟨f, -, rfl⟩ := mem_issues.mp hi
  exact (stops_ofLocated.mp hs).severity

theorem severity_of_unclosed {text : Text} {issue : Issue Nat} (hi : issue ∈ (check text).issues)
    (hcode : issue.code = "UNCLOSED_SECTION".units) : issue.severity = .error := by
  obtain ⟨f, -, rfl⟩ := mem_issues.mp hi
  obtain ⟨name, n, hf⟩ := Finding.code_eq_unclosed.mp hcode
  simp [Issue.ofLocated, hf, Finding.severity]

-- What a report foretells is among its errors.
theorem Foretells.not_valid {text : Text} {e : StructureError}
    (h : Foretells (check text) (Text.lines text) e) : (check text).valid ≠ true := by
  intro hv
  cases h with
  | malformed issue hi hcode =>
      exact valid_iff.mp hv issue hi (severity_of_stops hi (Or.inl hcode))
  | unmatchedEnd issue hi hcode =>
      exact valid_iff.mp hv issue hi (severity_of_stops hi (Or.inr hcode))
  | unterminated hnone hall issue hi hcode =>
      exact valid_iff.mp hv issue hi (severity_of_unclosed hi hcode)

-- A malformed line is no end, even if it holds an end marker.
theorem malformed_line_ne_end_line {text : Text} {issue other : Issue Nat}
    (hi : issue ∈ (check text).issues) (hcode : issue.code = "MALFORMED_MARKER".units)
    (ho : other ∈ (check text).issues) (hother : other.code = "UNMATCHED_END".units) :
    issue.line ≠ other.line := by
  obtain ⟨f, hf, rfl⟩ := mem_issues.mp hi
  obtain ⟨g, hg, rfl⟩ := mem_issues.mp ho
  obtain ⟨line, hl, hmalformed⟩ := mem_scan_described hf
  obtain ⟨line', hl', hend⟩ := mem_scan_described hg
  rw [Finding.code_eq_malformed.mp hcode] at hmalformed
  rw [Finding.code_eq_unmatched.mp hother] at hend
  intro (hn : f.1 = g.1)
  rw [← hn] at hl'
  have hnone : Marker.opening line' = .none := hend.1
  rw [← hl.unique hl', hmalformed] at hnone
  contradiction

-- A report foretells one error at most: the deciding line is one and cannot be both malformed
-- and an end.
theorem Foretells.unique {text : Text} {e other : StructureError}
    (h : Foretells (check text) (Text.lines text) e)
    (ho : Foretells (check text) (Text.lines text) other) : e = other := by
  cases h with
  | malformed issue hi hcode hfirst line hl =>
      cases ho with
      | malformed issue' hi' hcode' hfirst' line' hl' =>
          have hn := Nat.le_antisymm (hfirst issue' hi' (Or.inl hcode'))
            (hfirst' issue hi (Or.inl hcode))
          rw [hn] at hl ⊢
          rw [hl.unique hl']
      | unmatchedEnd issue' hi' hcode' hfirst' line' hl' =>
          have hn := Nat.le_antisymm (hfirst issue' hi' (Or.inr hcode'))
            (hfirst' issue hi (Or.inl hcode))
          exact absurd hn (malformed_line_ne_end_line hi hcode hi' hcode')
      | unterminated hnone => exact absurd (Or.inl hcode) (hnone issue hi)
  | unmatchedEnd issue hi hcode hfirst line hl =>
      cases ho with
      | malformed issue' hi' hcode' hfirst' line' hl' =>
          have hn := Nat.le_antisymm (hfirst issue' hi' (Or.inl hcode'))
            (hfirst' issue hi (Or.inr hcode))
          exact absurd hn.symm (malformed_line_ne_end_line hi' hcode' hi hcode)
      | unmatchedEnd issue' hi' hcode' hfirst' line' hl' =>
          have hn := Nat.le_antisymm (hfirst issue' hi' (Or.inr hcode'))
            (hfirst' issue hi (Or.inr hcode))
          rw [hn] at hl ⊢
          rw [hl.unique hl']
      | unterminated hnone => exact absurd (Or.inr hcode) (hnone issue hi)
  | unterminated hnone hall issue hi hcode hlast line name hl hname =>
      cases ho with
      | malformed issue' hi' hcode' => exact absurd (Or.inl hcode') (hnone issue' hi')
      | unmatchedEnd issue' hi' hcode' => exact absurd (Or.inr hcode') (hnone issue' hi')
      | unterminated hnone' hall' issue' hi' hcode' hlast' line' name' hl' hname' =>
          have hn := Nat.le_antisymm (hlast' issue hi hcode) (hlast issue' hi' hcode')
          rw [hn] at hl
          rw [hl.unique hl'] at hname
          rw [hname] at hname'
          rw [Opening.opens.inj hname']

-- No finding that stops an edit is located in lines without a bad marker.
theorem stops_after_reads {separator : Text} {before after : List Text} {line : Text}
    {mid : OpenStack} (hr : OpenStack.Reads .standard separator before mid) {f : Located}
    (hf : f ∈ (Scan.lines 1 (before ++ line :: after) .initial).findings) (hs : f.2.Stops) :
    1 + before.length ≤ f.1 := by
  rw [Scan.lines_append, Scan.lines] at hf
  rcases Scan.mem_lines hf with hf | ⟨other, hat, -⟩
  · rcases Scan.mem_line hf with hf | ⟨hn, -⟩
    · obtain ⟨new, hnew, hw⟩ := reads_warns hr
      rw [hnew] at hf
      have hwarn := hw f (by simpa [Scan.initial] using hf)
      rw [hs.severity] at hwarn
      contradiction
    · exact Nat.le_of_eq hn.symm
  · exact Nat.le_of_lt hat.lt.1

theorem mem_of_consume_error {separator : Text} {before : List Text} (after : List Text)
    {line : Text} {mid : OpenStack} {e : StructureError}
    (hr : OpenStack.Reads .standard separator before mid)
    (he : mid.consume .standard separator (1 + before.length) line = .error e) :
    Marker.opening line = .malformed ∧ e = .malformed (1 + before.length) line ∧
        (1 + before.length, Finding.malformedMarker) ∈
          (Scan.lines 1 (before ++ line :: after) .initial).findings ∨
      e = .unmatchedEnd (1 + before.length) line ∧
        (1 + before.length, Finding.unmatchedEnd) ∈
          (Scan.lines 1 (before ++ line :: after) .initial).findings := by
  rw [Scan.lines_append, Scan.lines]
  rcases OpenStack.consume_error he with ⟨ho, rfl⟩ | ⟨hend, hb, rfl⟩
  · refine Or.inl ⟨ho, rfl, Scan.findings_subset_lines _ _ _ ?_⟩
    rw [Scan.line_malformed ho]
    exact Scan.mem_report.mpr (Or.inr rfl)
  · refine Or.inr ⟨rfl, Scan.findings_subset_lines _ _ _ ?_⟩
    rw [Scan.line_end hend, Scan.closeSection, reads_openAt_root hr hb]
    exact Scan.mem_report.mpr (Or.inr rfl)

-- Reading stops at the first line that the report blames for it.
theorem foretells_of_consumeAll_error {separator text : Text} {e : StructureError}
    (h : OpenStack.consumeAll .standard separator 1 (Text.lines text) .initial = .error e) :
    Foretells (check text) (Text.lines text) e := by
  obtain ⟨before, line, after, mid, hls, hmid, herror⟩ := OpenStack.consumeAll_error h
  have hr := OpenStack.Reads.initial.consumeAll Vocabulary.standard_named hmid
  rw [List.nil_append] at hr
  have hfirst : ∀ other ∈ (check text).issues, other.Stops → 1 + before.length ≤ other.line := by
    intro other ho hstops
    obtain ⟨f, hf, rfl⟩ := mem_issues.mp ho
    rw [stops_ofLocated] at hstops
    rcases hf with hf | ⟨entry, -, rfl⟩
    · rw [scan, hls] at hf
      exact stops_after_reads hr hf hstops
    · rcases hstops with hs | hs <;> contradiction
  have hline : LineAt 1 (Text.lines text) (1 + before.length) line :=
    ⟨before.length, by simp [hls], rfl⟩
  rcases mem_of_consume_error after hr herror with ⟨-, rfl, hmem⟩ | ⟨rfl, hmem⟩
  · rw [← hls] at hmem
    exact .malformed (Issue.ofLocated (1 + before.length, .malformedMarker))
      (mem_issues.mpr ⟨_, Or.inl hmem, rfl⟩) rfl hfirst line hline
  · rw [← hls] at hmem
    exact .unmatchedEnd (Issue.ofLocated (1 + before.length, .unmatchedEnd))
      (mem_issues.mpr ⟨_, Or.inl hmem, rfl⟩) rfl hfirst line hline

-- The issues of a text without a bad marker: warnings, and what is still open at the end.
theorem issues_of_reads {separator text : Text} {last : OpenStack}
    (hr : OpenStack.Reads .standard separator (Text.lines text) last) {issue : Issue Nat}
    (hi : issue ∈ (check text).issues) :
    issue.severity = .warning ∨
      ∃ entry ∈ (scan text).openAt, issue = Issue.ofLocated (entry.1, .unclosed entry.2 entry.1) := by
  obtain ⟨f, hf, rfl⟩ := mem_issues.mp hi
  rcases hf with hf | ⟨entry, he, rfl⟩
  · obtain ⟨new, hnew, hw⟩ := reads_warns hr
    rw [scan, hnew] at hf
    exact Or.inl (hw f (by simpa [Scan.initial] using hf))
  · exact Or.inr ⟨entry, he, rfl⟩

theorem unclosed_of_reads {separator text : Text} {last : OpenStack}
    (hr : OpenStack.Reads .standard separator (Text.lines text) last) {issue : Issue Nat}
    (hi : issue ∈ (check text).issues) (hs : issue.severity = .error) :
    ∃ entry ∈ (scan text).openAt, issue = Issue.ofLocated (entry.1, .unclosed entry.2 entry.1) := by
  refine (issues_of_reads hr hi).resolve_left ?_
  rw [hs]
  decide

theorem foretells_of_finish_error {separator text : Text} {last : OpenStack} {e : StructureError}
    (hr : OpenStack.Reads .standard separator (Text.lines text) last)
    (h : last.finish (Text.lines text).length = .error e) :
    Foretells (check text) (Text.lines text) e := by
  have hb : last.below ≠ [] := by
    intro hb
    simp [OpenStack.finish, hb] at h
  obtain ⟨n, name, rest, hopen, htop, hrest⟩ := reads_openAt_inside hr hb
  have he : e = .unterminated (Text.lines text).length (some name) := by
    obtain ⟨outer, below, hb⟩ := List.exists_cons_of_ne_nil hb
    simpa [OpenStack.finish, hb, htop, eq_comm] using h
  have hentry : ((n, name) : Nat × Text) ∈ (scan text).openAt := by simp [scan, hopen]
  have hmem : Issue.ofLocated (n, .unclosed name n) ∈ (check text).issues :=
    mem_issues.mpr ⟨_, Or.inr ⟨(n, name), hentry, rfl⟩, rfl⟩
  obtain ⟨line, hline, hname⟩ :=
    (Scan.mem_lines_openAt hentry).resolve_left List.not_mem_nil
  rw [he]
  refine .unterminated ?_ ?_ _ hmem rfl ?_ line name hline hname
  · intro other ho hstops
    obtain ⟨entry, -, rfl⟩ := unclosed_of_reads hr ho (severity_of_stops ho hstops)
    rcases stops_ofLocated.mp hstops with hs | hs <;> contradiction
  · intro other ho hs
    obtain ⟨entry, -, rfl⟩ := unclosed_of_reads hr ho hs
    rfl
  · intro other ho hcode
    obtain ⟨entry, hentry, rfl⟩ := unclosed_of_reads hr ho (severity_of_unclosed ho hcode)
    rw [scan, hopen] at hentry
    rcases List.mem_cons.mp hentry with rfl | hentry
    · exact Nat.le_refl _
    · exact hrest entry hentry

theorem foretells_of_parse_error {separator text : Text} {e : StructureError}
    (h : Section.parse .standard separator text = .error e) :
    Foretells (check text) (Text.lines text) e := by
  unfold Section.parse Section.ofLines at h
  split at h
  · rename_i hc
    rw [Except.error.inj h] at hc
    exact foretells_of_consumeAll_error hc
  · rename_i last hc
    have hr := OpenStack.Reads.initial.consumeAll Vocabulary.standard_named hc
    exact foretells_of_finish_error hr h

theorem valid_of_parse_ok {separator text : Text} {root : Section}
    (h : Section.parse .standard separator text = .ok root) : (check text).valid = true := by
  obtain ⟨layout, hls, -⟩ :=
    (Section.ofLines_eq_ok_iff Vocabulary.standard_named separator _ root).mp h
  have hr := @OpenStack.Reads.root _ separator layout
  rw [hls] at hr
  rw [valid_iff]
  intro issue hi
  rcases issues_of_reads hr hi with hw | ⟨entry, he, -⟩
  · rw [hw]
    decide
  · rw [scan, reads_openAt_root hr rfl] at he
    exact absurd he List.not_mem_nil

-- An edit that cannot fail by itself succeeds on the texts without errors in their report, and
-- otherwise fails with the error that the report foretells. A section left open is named by its
-- start marker, never by the slash that stands for a nameless one.
theorem edit_error_iff_foretells (options : Options) (hook : Hook) (hh : hook.NeverFails)
    (memory : Memory) (hm : memory.AtRest) (text : Text) :
    (((options.editor hook).edit memory text).result.isOk = true ↔ (check text).valid = true) ∧
      (∀ e, ((options.editor hook).edit memory text).result = .error e ↔
        ∃ cause, e = .markers cause ∧ Foretells (check text) (Text.lines text) cause) ∧
      ∀ n, ((options.editor hook).edit memory text).result ≠ .error (.markers (.unterminated n none)) := by
  cases h : Section.parse .standard options.separator text with
  | ok root =>
      have hv := valid_of_parse_ok h
      have hr := ((options.editor hook).edit_of_neverFails hm hh h).1
      rw [hr]
      refine ⟨iff_of_true rfl hv, fun e => iff_of_false (by simp) ?_, fun n => by simp⟩
      rintro ⟨cause, -, hc⟩
      exact hc.not_valid hv
  | error cause =>
      have hc := foretells_of_parse_error h
      have hr := (options.editor hook).edit_of_parse_error hm h
      rw [hr]
      refine ⟨iff_of_false (by simp [Except.isOk, Except.toBool]) hc.not_valid, fun e => ?_, ?_⟩
      · constructor
        · intro he
          exact ⟨cause, (Except.error.inj he).symm, hc⟩
        · rintro ⟨other, rfl, ho⟩
          rw [hc.unique ho]
      · intro n hn
        rw [EditError.markers.inj (Except.error.inj hn)] at hc
        cases hc

-- One section is closed. The last line opens another one, for all that it looks like an end.
def leftOpen : Text :=
  "SECTION-START[a]\r\nx\nSECTION-START[/]\rSECTION-END\nSECTION-START[b]SECTION-END\n".units

theorem edit_error_iff_foretells_leftOpen :
    Hook.identity.NeverFails ∧ Memory.fresh.AtRest ∧
      Foretells (check leftOpen) (Text.lines leftOpen) (.unterminated 5 (some ['b'.unit])) := by
  refine ⟨Hook.identity_neverFails, rfl, ?_⟩
  obtain ⟨-, herror, -⟩ := edit_error_iff_foretells ⟨['\n'.unit], .sequential⟩ .identity
    Hook.identity_neverFails .fresh rfl leftOpen
  obtain ⟨cause, hc, hf⟩ := (herror (.markers (.unterminated 5 (some ['b'.unit])))).mp (by rfl)
  rw [EditError.markers.inj hc]
  exact hf

end Check

end Sections
