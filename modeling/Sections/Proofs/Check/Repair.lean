import Sections.Proofs.Check.Pairing
import Sections.Proofs.Nesting.Removal

namespace Sections.Check

-- No error is found on line n.
def Report.passes (report : Report Nat) (n : Nat) : Bool :=
  report.issues.all fun issue => issue.line ≠ n || issue.severity ≠ .error

-- The lines of a text on which no error is found, with their places.
def passing (text : Text) (ls : List Text) : List (Text × Nat) :=
  Vocabulary.keptLines (fun i => (check text).passes (i + 1)) ls

def places (text : Text) (ls : List Text) : List Nat := (passing text ls).map Prod.snd

-- Those lines alone, as a text.
def repaired (text : Text) (ls : List Text) : Text :=
  Text.unlines ['\n'.unit] ((passing text ls).map Prod.fst)

-- The lines of a text, with or without the empty one behind a last terminator.
def Cuts (ls : List Text) (text : Text) : Prop := ls = Text.lines text ∨ ls = Text.pieces text

theorem Cuts.scan {ls : List Text} {text : Text} (h : Cuts ls text) :
    Scan.lines 1 ls .initial = Check.scan text := by
  rcases h with rfl | rfl
  · rfl
  · exact scan_pieces text

theorem Cuts.unbroken {ls : List Text} {text : Text} (h : Cuts ls text) :
    ∀ line ∈ ls, Text.Unbroken line := by
  rcases h with rfl | rfl
  · exact fun line hl => Text.unbroken_of_mem_lines hl
  · exact Text.unbroken_of_mem_pieces text

theorem mem_passing {text : Text} {ls : List Text} {line : Text} {i : Nat} :
    (line, i) ∈ passing text ls ↔ ls[i]? = some line ∧ (check text).passes (i + 1) = true :=
  Vocabulary.mem_keptLines

theorem getElem?_places {text : Text} {ls : List Text} {a i : Nat} {line : Text}
    (h : (passing text ls)[a]? = some (line, i)) : (places text ls)[a]? = some i := by
  rw [places, List.getElem?_map, h]
  rfl

theorem passes_eq_true_iff {report : Report Nat} {n : Nat} :
    report.passes n = true ↔ ∀ issue ∈ report.issues, issue.line = n → issue.severity ≠ .error := by
  simp only [Report.passes, List.all_eq_true, Bool.or_eq_true, decide_eq_true_eq]
  exact forall_congr' fun issue => forall_congr' fun _ => by tauto

-- A line passes if it is not malformed and belongs to a pair where it is a marker.
theorem passes_iff {text : Text} {ls : List Text} (hls : Cuts ls text) {i : Nat} {line : Text}
    (hl : ls[i]? = some line) :
    (check text).passes (i + 1) = true ↔
      Marker.opening line ≠ .malformed ∧
        (Vocabulary.standard.isStart line = true → ∃ k, Vocabulary.standard.Pairs ls i k) ∧
        (Vocabulary.standard.IsEnd line → ∃ j, Vocabulary.standard.Pairs ls j i) := by
  rw [passes_eq_true_iff]
  simp only [mem_issues_iff_reported hls.scan]
  constructor
  · intro h
    refine ⟨fun ho => h _ (.malformed hl ho) rfl rfl, fun hs => ?_, fun he => ?_⟩
    · obtain ⟨name, ho⟩ := Vocabulary.standard_named.exists_opens hs
      by_contra hn
      exact h _ (.unclosed hl ho (not_exists.mp hn)) rfl rfl
    · by_contra hn
      exact h _ (.unmatchedEnd hl he (not_exists.mp hn)) rfl rfl
  · rintro ⟨hm, hs, he⟩ issue hi hn hsev
    have hline : ∀ {j : Nat} {other : Text}, ls[j]? = some other → j + 1 = i + 1 →
        j = i ∧ other = line := by
      intro j other ho hj
      obtain rfl := Nat.succ.inj hj
      exact ⟨rfl, Option.some.inj (ho.symm.trans hl)⟩
    cases hi with
    | malformed hother ho =>
        obtain ⟨rfl, rfl⟩ := hline hother hn
        exact hm ho
    | unmatchedEnd hother hend hnone =>
        obtain ⟨rfl, rfl⟩ := hline hother hn
        obtain ⟨j, hp⟩ := he hend
        exact hnone j hp
    | unclosed hother ho hnone =>
        obtain ⟨rfl, rfl⟩ := hline hother hn
        obtain ⟨k, hp⟩ := hs (Vocabulary.isStart_iff.mpr ⟨_, ho⟩)
        exact hnone k hp
    | emptyName => contradiction
    | duplicate => contradiction

theorem keepsPairs {text : Text} {ls : List Text} (hls : Cuts ls text) :
    Vocabulary.standard.KeepsPairs (fun i => (check text).passes (i + 1)) ls := by
  constructor
  · intro i k hp
    obtain ⟨start, hstart, hs⟩ := hp.2.1
    obtain ⟨stop, hstop, he⟩ := hp.2.2.1
    obtain ⟨name, ho⟩ := Vocabulary.standard_named.exists_opens hs
    constructor
    · refine (passes_iff hls hstart).mpr ⟨?_, fun _ => ⟨k, hp⟩, fun he => ?_⟩
      · intro hm
        exact absurd (ho.symm.trans hm) (by simp)
      · exact absurd he (Vocabulary.not_isEnd_of_isStart hs)
    · refine (passes_iff hls hstop).mpr ⟨?_, fun hs => ?_, fun _ => ⟨i, hp⟩⟩
      · intro hm
        exact absurd (he.1.symm.trans hm) (by simp)
      · exact absurd he (Vocabulary.not_isEnd_of_isStart hs)
  · intro i line hl hs hk
    exact ((passes_iff hls hl).mp hk).2.1 hs
  · intro k line hl he hk
    exact ((passes_iff hls hl).mp hk).2.2 he

-- The lines of a repaired text are those that pass; there is one empty line if none does.
theorem exists_lines_repaired {text : Text} {ls : List Text} (hls : Cuts ls text) :
    ∃ more, Text.lines (repaired text ls) = (passing text ls).map Prod.fst ++ more ∧
      ∀ line ∈ more, line = [] := by
  by_cases hn : (passing text ls).map Prod.fst = []
  · refine ⟨[[]], ?_, fun line hl => List.mem_singleton.mp hl⟩
    rw [repaired, hn]
    rfl
  · refine ⟨[], ?_, fun line hl => absurd hl List.not_mem_nil⟩
    rw [List.append_nil]
    refine Text.lines_unlines (Or.inl rfl) hn fun line hl => ?_
    obtain ⟨⟨kept, place⟩, hkept, rfl⟩ := List.mem_map.mp hl
    exact hls.unbroken _ (List.mem_of_getElem? (Vocabulary.mem_keptLines.mp hkept).1)

theorem exists_passing {text : Text} {ls : List Text} (hls : Cuts ls text) {a : Nat} {line : Text}
    (hl : (Text.lines (repaired text ls))[a]? = some line) (hn : line ≠ []) :
    ∃ i, (passing text ls)[a]? = some (line, i) ∧ ls[i]? = some line ∧
      (check text).passes (i + 1) = true := by
  obtain ⟨more, hlines, hmore⟩ := exists_lines_repaired hls
  rw [hlines, List.getElem?_append] at hl
  split at hl
  · rw [List.getElem?_map, Option.map_eq_some_iff] at hl
    obtain ⟨⟨kept, i⟩, hkept, rfl⟩ := hl
    exact ⟨i, hkept, mem_passing.mp (List.mem_of_getElem? hkept)⟩
  · exact absurd (hmore line (List.mem_of_getElem? hl)) hn

theorem pairs_repaired {text : Text} {ls : List Text} (hls : Cuts ls text) {a b : Nat} :
    Vocabulary.standard.Pairs (Text.lines (repaired text ls)) a b ↔
      ∃ i k, (places text ls)[a]? = some i ∧ (places text ls)[b]? = some k ∧
        Vocabulary.standard.Pairs ls i k := by
  obtain ⟨more, hlines, hmore⟩ := exists_lines_repaired hls
  have hplain : ∀ line ∈ more, Vocabulary.standard.IsPlain line := by
    intro line hl
    rw [hmore line hl]
    exact ⟨rfl, rfl⟩
  rw [hlines, Vocabulary.Pairs.append_plain_iff hplain]
  exact (keepsPairs hls).pairs_iff_kept

theorem start_ne_nil {line : Text} (h : Vocabulary.standard.isStart line = true) : line ≠ [] := by
  rintro rfl
  contradiction

theorem end_ne_nil {line : Text} (h : Vocabulary.standard.IsEnd line) : line ≠ [] := by
  rintro rfl
  exact absurd h.2 (by decide)

-- A line that passes belongs to a pair of the repaired text if it is a marker.
theorem repaired_valid {text : Text} {ls : List Text} (hls : Cuts ls text) :
    (check (repaired text ls)).valid = true := by
  refine valid_iff.mpr fun issue hi hsev => ?_
  cases (mem_issues_iff_reported rfl).mp hi with
  | malformed hl ho =>
      obtain ⟨i, -, hline, hpass⟩ := exists_passing hls hl (by rintro rfl; contradiction)
      exact ((passes_iff hls hline).mp hpass).1 ho
  | @unmatchedEnd b line hl he hn =>
      obtain ⟨k, hkept, hline, hpass⟩ := exists_passing hls hl (end_ne_nil he)
      obtain ⟨i, hp⟩ := ((passes_iff hls hline).mp hpass).2.2 he
      obtain ⟨a, -, ha, -, -⟩ := (keepsPairs hls).exists_kept hp
      exact hn a ((pairs_repaired hls).mpr ⟨i, k, ha, getElem?_places hkept, hp⟩)
  | @unclosed a line name hl ho hn =>
      have hs : Vocabulary.standard.isStart line = true := Vocabulary.isStart_iff.mpr ⟨_, ho⟩
      obtain ⟨i, hkept, hline, hpass⟩ := exists_passing hls hl (start_ne_nil hs)
      obtain ⟨k, hp⟩ := ((passes_iff hls hline).mp hpass).2.1 hs
      obtain ⟨-, b, -, hb, -⟩ := (keepsPairs hls).exists_kept hp
      exact hn b ((pairs_repaired hls).mpr ⟨i, k, getElem?_places hkept, hb, hp⟩)
  | emptyName => contradiction
  | duplicate => contradiction

theorem mem_places_iff {text : Text} {ls : List Text} (hls : Cuts ls text) {i : Nat} {line : Text}
    (hl : ls[i]? = some line) (hs : Vocabulary.standard.isStart line = true) :
    i ∈ places text ls ↔ ∃ k, Vocabulary.standard.Pairs ls i k := by
  constructor
  · intro hi
    obtain ⟨⟨kept, place⟩, hkept, rfl⟩ := List.mem_map.mp hi
    exact (keepsPairs hls).start place line hl hs (mem_passing.mp hkept).2
  · rintro ⟨k, hp⟩
    exact List.mem_map_of_mem (mem_passing.mpr ⟨hl, ((keepsPairs hls).pair i k hp).1⟩)

theorem start_repaired_iff {text : Text} {ls : List Text} (hls : Cuts ls text) {a : Nat}
    {line : Text} (hs : Vocabulary.standard.isStart line = true) :
    (Text.lines (repaired text ls))[a]? = some line ↔
      ∃ i k, (places text ls)[a]? = some i ∧ ls[i]? = some line ∧
        Vocabulary.standard.Pairs ls i k := by
  constructor
  · intro hl
    obtain ⟨i, hkept, hline, hpass⟩ := exists_passing hls hl (start_ne_nil hs)
    obtain ⟨k, hp⟩ := ((passes_iff hls hline).mp hpass).2.1 hs
    exact ⟨i, k, getElem?_places hkept, hline, hp⟩
  · rintro ⟨i, k, ha, hl, -⟩
    obtain ⟨more, hlines, -⟩ := exists_lines_repaired hls
    rw [places, List.getElem?_map, Option.map_eq_some_iff] at ha
    obtain ⟨⟨kept, place⟩, hkept, rfl⟩ := ha
    obtain rfl := Option.some.inj (hl.symm.trans (mem_passing.mp (List.mem_of_getElem? hkept)).1)
    have hlt := (List.getElem?_eq_some_iff.mp hkept).1
    rw [hlines, List.getElem?_append_left (by rwa [List.length_map]), List.getElem?_map, hkept]
    rfl

theorem exists_parse_of_valid {text : Text} (separator : Text) (h : (check text).valid = true) :
    ∃ root, Section.parse .standard separator text = .ok root := by
  cases hp : Section.parse .standard separator text with
  | ok root => exact ⟨root, rfl⟩
  | error e => exact absurd h (foretells_of_parse_error hp).not_valid

-- Without the lines on which an error is found, every text is valid and accepted. Of its start
-- lines those that had an end line are left, each with the same end line.
theorem repaired_sound {text : Text} {ls : List Text} (hls : Cuts ls text) (options : Options)
    {hook : Hook} (hh : hook.NeverFails) {memory : Memory} (hm : memory.AtRest) :
    let fixed := repaired text ls
    (check fixed).valid = true ∧
      (∃ tree, ((options.editor hook).edit memory fixed).result = .ok tree) ∧
      (∀ (i : Nat) line, ls[i]? = some line → Vocabulary.standard.isStart line = true →
        (i ∈ places text ls ↔ ∃ k, Vocabulary.standard.Pairs ls i k)) ∧
      (∀ (a : Nat) line, Vocabulary.standard.isStart line = true →
        ((Text.lines fixed)[a]? = some line ↔
          ∃ i k, (places text ls)[a]? = some i ∧ ls[i]? = some line ∧
            Vocabulary.standard.Pairs ls i k)) ∧
      ∀ a b, Vocabulary.standard.Pairs (Text.lines fixed) a b ↔
        ∃ i k, (places text ls)[a]? = some i ∧ (places text ls)[b]? = some k ∧
          Vocabulary.standard.Pairs ls i k := by
  have hv := repaired_valid hls
  refine ⟨hv, ?_, ?_, ?_, ?_⟩
  · obtain ⟨root, hp⟩ := exists_parse_of_valid options.separator hv
    exact ⟨_, ((options.editor hook).edit_of_neverFails hm hh hp).1⟩
  · intro i line hl hs
    exact mem_places_iff hls hl hs
  · intro a line hs
    exact start_repaired_iff hls hs
  · intro a b
    exact pairs_repaired hls

-- An end too many, a marker without its bracket between the lines of a section, and a section that
-- is never closed around one that is.
def muddled : Text :=
  ["SECTION-END\r\n".units, "SECTION-START[a]\n".units, "x\n".units, "SECTION-START[b\r".units,
    "SECTION-START[b]\n".units, "SECTION-END\n".units, "SECTION-END\n".units,
    "SECTION-START[c]\n".units, ['\n'.unit], "SECTION-START[a]SECTION-END\n".units,
    "SECTION-END\n".units].flatten

theorem repaired_sound_muddled :
    Cuts (Text.lines muddled) muddled ∧ Hook.identity.NeverFails ∧ Memory.fresh.AtRest ∧
      repaired muddled (Text.lines muddled) =
        Text.unlines ['\n'.unit] ["SECTION-START[a]".units, ['x'.unit], "SECTION-START[b]".units,
          "SECTION-END".units, "SECTION-END".units, [], "SECTION-START[a]SECTION-END".units,
          "SECTION-END".units] ∧
      (check (repaired muddled (Text.lines muddled))).valid = true ∧
      (∃ tree, ((Options.editor ⟨['|'.unit], .sequential⟩ .identity).edit .fresh
        (repaired muddled (Text.lines muddled))).result = .ok tree) ∧
      places muddled (Text.lines muddled) = [1, 2, 4, 5, 6, 8, 9, 10] ∧
      Vocabulary.standard.Pairs (Text.lines (repaired muddled (Text.lines muddled))) 0 4 ∧
      Vocabulary.standard.Pairs (Text.lines muddled) 1 6 := by
  have hcuts : Cuts (Text.lines muddled) muddled := Or.inl rfl
  obtain ⟨hv, hedit, -, -, hpairs⟩ := repaired_sound hcuts ⟨['|'.unit], .sequential⟩
    Hook.identity_neverFails Memory.fresh_atRest
  have hplaces : places muddled (Text.lines muddled) = [1, 2, 4, 5, 6, 8, 9, 10] := by
    decide +kernel
  have hpair : Vocabulary.standard.Pairs (Text.lines muddled) 1 6 := by decide +kernel
  refine ⟨hcuts, Hook.identity_neverFails, Memory.fresh_atRest, by decide +kernel, hv, hedit,
    hplaces, (hpairs 0 4).mpr ⟨1, 6, ?_, ?_, hpair⟩, hpair⟩
  · rw [hplaces]
    rfl
  · rw [hplaces]
    rfl

end Sections.Check
