import Sections.Proofs.Check.Agreement
import Sections.Proofs.Nesting.LeftOpen

namespace Sections.Check

-- The place of the first start line of a name.
def firstPlace? (name : Text) (ls : List Text) : Option Nat :=
  ls.findIdx? fun line => Marker.opening line = .opens (some name)

-- The issues of some lines, with their texts. Places are counted from zero, line numbers from one.
inductive Reported (ls : List Text) : Issue Nat → Prop where
  | malformed {i : Nat} {line : Text} (hl : ls[i]? = some line)
      (ho : Marker.opening line = .malformed) :
      Reported ls ⟨i + 1, .error, "MALFORMED_MARKER".units,
        "Malformed section start marker. Expected format: SECTION-START[name]".units⟩
  | unmatchedEnd {k : Nat} {line : Text} (hl : ls[k]? = some line)
      (he : Vocabulary.standard.IsEnd line) (hn : ∀ i, ¬Vocabulary.standard.Pairs ls i k) :
      Reported ls ⟨k + 1, .error, "UNMATCHED_END".units,
        "Section end marker without an open section".units⟩
  | unclosed {i : Nat} {line name : Text} (hl : ls[i]? = some line)
      (ho : Marker.opening line = .opens (some name))
      (hn : ∀ k, ¬Vocabulary.standard.Pairs ls i k) :
      Reported ls ⟨i + 1, .error, "UNCLOSED_SECTION".units,
        "Section ".units ++ Text.quoted name ++ " opened at line ".units ++ Text.ofNat (i + 1) ++
          " is never closed".units⟩
  | emptyName {i : Nat} {line : Text} (hl : ls[i]? = some line)
      (ho : Marker.opening line = .opens (some [])) :
      Reported ls ⟨i + 1, .warning, "EMPTY_NAME".units, "Section has an empty name".units⟩
  | duplicate {first i : Nat} {line name : Text} (hl : ls[i]? = some line)
      (ho : Marker.opening line = .opens (some name)) (hf : firstPlace? name ls = some first)
      (hlt : first < i) :
      Reported ls ⟨i + 1, .warning, "DUPLICATE_SECTION".units,
        "Section ".units ++ Text.quoted name ++ " already opened at line ".units ++
          Text.ofNat (first + 1)⟩

-- Two findings of one line are of different kinds.
def Apart (f g : Located) : Prop := f.1 = g.1 → f.2.code ≠ g.2.code

namespace Scan

-- What a line adds to the findings, by what is open and which names were seen before it.
inductive Adds (s : Scan) (n : Nat) (line : Text) : Located → Prop where
  | malformed (ho : Marker.opening line = .malformed) : Adds s n line (n, .malformedMarker)
  | unmatchedEnd (he : Vocabulary.standard.IsEnd line) (hs : s.openAt = []) :
      Adds s n line (n, .unmatchedEnd)
  | emptyName (ho : Marker.opening line = .opens (some [])) : Adds s n line (n, .emptyName)
  | duplicate {name : Text} {first : Nat} (ho : Marker.opening line = .opens (some name))
      (hf : s.firstSeen.lookup name = some first) : Adds s n line (n, .duplicate name first)

theorem Adds.fst {s : Scan} {n : Nat} {line : Text} {f : Located} (h : s.Adds n line f) :
    f.1 = n := by
  cases h <;> rfl

theorem openSection_findings (s : Scan) (n : Nat) (name : Text) :
    (s.openSection n name).findings =
      s.findings ++ ((if name = [] then [(n, .emptyName)] else []) ++
        ((s.firstSeen.lookup name).map fun first => (n, Finding.duplicate name first)).toList) := by
  unfold openSection noteName
  by_cases hn : name = []
  · subst hn
    cases hf : s.firstSeen.lookup [] <;> simp [report, hf]
  · cases hf : s.firstSeen.lookup name <;> simp [report, hf, hn]

theorem adds_start {s : Scan} {n : Nat} {line name : Text}
    (ho : Marker.opening line = .opens (some name)) {f : Located} :
    s.Adds n line f ↔ (name = [] ∧ f = (n, .emptyName)) ∨
      ∃ first, s.firstSeen.lookup name = some first ∧ f = (n, .duplicate name first) := by
  constructor
  · intro h
    cases h with
    | malformed hm => exact absurd (ho.symm.trans hm) (by simp)
    | unmatchedEnd he => exact absurd (ho.symm.trans he.1) (by simp)
    | emptyName he =>
        have hname := Opening.opens.inj (ho.symm.trans he)
        exact Or.inl ⟨Option.some.inj hname, rfl⟩
    | @duplicate other first hd hf =>
        have hname := Option.some.inj (Opening.opens.inj (ho.symm.trans hd))
        subst hname
        exact Or.inr ⟨first, hf, rfl⟩
  · rintro (⟨rfl, rfl⟩ | ⟨first, hf, rfl⟩)
    · exact .emptyName ho
    · exact .duplicate ho hf

theorem adds_malformed {s : Scan} {n : Nat} {line : Text} (ho : Marker.opening line = .malformed)
    {f : Located} : s.Adds n line f ↔ f = (n, .malformedMarker) := by
  constructor
  · intro h
    cases h with
    | malformed => rfl
    | unmatchedEnd he => exact absurd (ho.symm.trans he.1) (by simp)
    | emptyName he => exact absurd (ho.symm.trans he) (by simp)
    | duplicate hd => exact absurd (ho.symm.trans hd) (by simp)
  · rintro rfl
    exact .malformed ho

theorem not_adds_plain {s : Scan} {n : Nat} {line : Text}
    (hp : Vocabulary.standard.IsPlain line) (f : Located) : ¬s.Adds n line f := by
  intro h
  cases h with
  | malformed hm => exact absurd (hp.1.symm.trans hm) (by simp)
  | unmatchedEnd he => exact absurd (hp.2.symm.trans he.2) (by simp)
  | emptyName he => exact absurd (hp.1.symm.trans he) (by simp)
  | duplicate hd => exact absurd (hp.1.symm.trans hd) (by simp)

theorem adds_end {s : Scan} {n : Nat} {line : Text} (he : Vocabulary.standard.IsEnd line)
    {f : Located} : s.Adds n line f ↔ s.openAt = [] ∧ f = (n, .unmatchedEnd) := by
  constructor
  · intro h
    cases h with
    | malformed hm => exact absurd (he.1.symm.trans hm) (by simp)
    | unmatchedEnd _ hs => exact ⟨hs, rfl⟩
    | emptyName ho => exact absurd (he.1.symm.trans ho) (by simp)
    | duplicate ho => exact absurd (he.1.symm.trans ho) (by simp)
  · rintro ⟨hs, rfl⟩
    exact .unmatchedEnd he hs

-- One line: the findings grow by what the line adds, each kind at most once.
theorem exists_added (s : Scan) (n : Nat) (line : Text) :
    ∃ new, (s.line n line).findings = s.findings ++ new ∧ (∀ f, f ∈ new ↔ s.Adds n line f) ∧
      new.Pairwise Apart := by
  cases Vocabulary.standard_named.kind line with
  | malformed ho =>
      rw [line_malformed ho]
      refine ⟨[(n, .malformedMarker)], rfl, fun f => ?_, List.pairwise_singleton _ _⟩
      rw [List.mem_singleton, adds_malformed ho]
  | start name ho =>
      rw [line_opens ho]
      refine ⟨_, openSection_findings s n name, fun f => ?_, ?_⟩
      · rw [adds_start ho, List.mem_append, Option.mem_toList, Option.map_eq_some_iff]
        refine or_congr ?_ (exists_congr fun first => and_congr_right fun _ => eq_comm)
        by_cases hn : name = [] <;> simp [hn]
      · have hcodes : ∀ first, Apart (n, .emptyName) (n, .duplicate name first) := by
          intro first _
          show "EMPTY_NAME".units ≠ "DUPLICATE_SECTION".units
          decide
        by_cases hn : name = []
        · cases s.firstSeen.lookup name with
          | none => simp [hn]
          | some first => simpa [hn] using hcodes first
        · cases s.firstSeen.lookup name <;> simp [hn]
  | plain hp =>
      rw [line_plain hp]
      refine ⟨[], (List.append_nil _).symm, fun f => ?_, List.Pairwise.nil⟩
      exact iff_of_false List.not_mem_nil (not_adds_plain hp f)
  | stop he =>
      rw [line_end he, closeSection]
      cases hs : s.openAt with
      | nil =>
          exact ⟨[(n, .unmatchedEnd)], rfl, by simp [adds_end he, hs], List.pairwise_singleton _ _⟩
      | cons entry rest => exact ⟨[], by simp, by simp [adds_end he, hs], List.Pairwise.nil⟩

theorem lines_concat (ls : List Text) (line : Text) :
    lines 1 (ls ++ [line]) .initial = (lines 1 ls .initial).line (ls.length + 1) line := by
  rw [lines_append, Nat.add_comm]
  rfl

theorem mem_lines_iff {ls : List Text} {f : Located} :
    f ∈ (lines 1 ls .initial).findings ↔
      ∃ i line, ls[i]? = some line ∧ (lines 1 (ls.take i) .initial).Adds (i + 1) line f := by
  induction ls using List.reverseRecOn with
  | nil => simp [lines, initial]
  | append_singleton ls line ih =>
      obtain ⟨new, hnew, hmem, -⟩ := exists_added (lines 1 ls .initial) (ls.length + 1) line
      rw [lines_concat, hnew, List.mem_append, ih, hmem]
      constructor
      · rintro (⟨i, other, hi, hadds⟩ | hadds)
        · have hlt := (List.getElem?_eq_some_iff.mp hi).1
          refine ⟨i, other, by rw [List.getElem?_append_left hlt, hi], ?_⟩
          rwa [List.take_append_of_le_length (Nat.le_of_lt hlt)]
        · exact ⟨ls.length, line, by simp, by simpa using hadds⟩
      · rintro ⟨i, other, hi, hadds⟩
        rcases Nat.lt_or_ge i ls.length with hlt | hge
        · rw [List.getElem?_append_left hlt] at hi
          rw [List.take_append_of_le_length (Nat.le_of_lt hlt)] at hadds
          exact Or.inl ⟨i, other, hi, hadds⟩
        · have hlen := (List.getElem?_eq_some_iff.mp hi).1
          rw [List.length_append, List.length_singleton] at hlen
          obtain rfl : i = ls.length := by omega
          obtain rfl : line = other := by simpa using hi
          exact Or.inr (by simpa using hadds)

theorem findings_apart (ls : List Text) : (lines 1 ls .initial).findings.Pairwise Apart := by
  induction ls using List.reverseRecOn with
  | nil => exact List.Pairwise.nil
  | append_singleton ls line ih =>
      obtain ⟨new, hnew, hmem, hapart⟩ := exists_added (lines 1 ls .initial) (ls.length + 1) line
      rw [lines_concat, hnew, List.pairwise_append]
      refine ⟨ih, hapart, fun f hf g hg heq => ?_⟩
      obtain ⟨i, other, hi, hadds⟩ := mem_lines_iff.mp hf
      have hlt := (List.getElem?_eq_some_iff.mp hi).1
      have hfirst := hadds.fst
      have hsecond := ((hmem g).mp hg).fst
      omega

-- The open sections of a scan are those that the lines leave open.
theorem leaves_openAt (ls : List Text) :
    Vocabulary.standard.Leaves ls ((lines 1 ls .initial).openAt.map fun entry => entry.1 - 1) := by
  induction ls using List.reverseRecOn with
  | nil => exact .settled Vocabulary.settled_nil
  | append_singleton ls line ih =>
      rw [lines_concat]
      cases Vocabulary.standard_named.kind line with
      | malformed ho =>
          rw [line_malformed ho]
          exact ih.append (Vocabulary.balanced_malformed ho)
      | start name ho =>
          rw [line_opens ho, openSection_openAt]
          exact ih.start (Vocabulary.isStart_iff.mpr ⟨_, ho⟩)
      | plain hp =>
          rw [line_plain hp]
          exact ih.append (Vocabulary.balanced_plain hp)
      | stop he =>
          rw [line_end he, closeSection]
          cases hs : (lines 1 ls .initial).openAt with
          | nil =>
              rw [hs] at ih
              simp only [report, hs]
              exact ih.end_nil he
          | cons entry rest =>
              rw [hs] at ih
              exact ih.end_cons he

@[simp] theorem firstSeen_report (s : Scan) (n : Nat) (finding : Finding) :
    (s.report n finding).firstSeen = s.firstSeen := rfl

theorem lookup_openSection (s : Scan) (n : Nat) (name other : Text) :
    (s.openSection n other).firstSeen.lookup name =
      (s.firstSeen.lookup name).or (if name = other then some n else none) := by
  have hseen : ∀ s : Scan, (s.noteName n other).firstSeen.lookup name =
      (s.firstSeen.lookup name).or (if name = other then some n else none) := by
    intro s
    by_cases hn : name = other
    · subst hn
      cases hf : s.firstSeen.lookup name <;> simp [noteName, hf]
    · have hne : (name == other) = false := beq_eq_false_iff_ne.mpr hn
      cases hf : s.firstSeen.lookup other <;> simp [noteName, hf, hn, hne, List.lookup_cons]
  have hempty : (if other.isEmpty then s.report n .emptyName else s).firstSeen = s.firstSeen := by
    split <;> rfl
  simp only [openSection, hseen, hempty]

theorem firstPlace?_concat (name : Text) (ls : List Text) (line : Text) :
    firstPlace? name (ls ++ [line]) =
      (firstPlace? name ls).or
        (if Marker.opening line = .opens (some name) then some ls.length else none) := by
  rw [firstPlace?, List.findIdx?_append, List.findIdx?_singleton]
  by_cases ho : Marker.opening line = .opens (some name) <;> simp [firstPlace?, ho]

-- A name was seen first on its first start line.
theorem lookup_firstSeen (name : Text) (ls : List Text) :
    (lines 1 ls .initial).firstSeen.lookup name = (firstPlace? name ls).map (· + 1) := by
  induction ls using List.reverseRecOn with
  | nil => rfl
  | append_singleton ls line ih =>
      rw [lines_concat, firstPlace?_concat]
      cases Vocabulary.standard_named.kind line with
      | malformed ho =>
          have hm : Marker.opening line = .malformed := ho
          rw [line_malformed ho, hm]
          simpa using ih
      | start other ho =>
          have hs : Marker.opening line = .opens (some other) := ho
          rw [line_opens ho, lookup_openSection, ih, hs]
          by_cases hn : name = other
          · cases firstPlace? name ls <;> simp [hn]
          · cases firstPlace? name ls <;> simp [hn, Ne.symm hn]
      | plain hp =>
          have hnone : Marker.opening line = .none := hp.1
          rw [line_plain hp, hnone]
          simpa using ih
      | stop he =>
          have hnone : Marker.opening line = .none := he.1
          rw [line_end he, hnone, closeSection]
          cases (lines 1 ls .initial).openAt <;> simpa using ih

-- Nothing is open before an end line that belongs to no start line, and only there.
theorem openAt_eq_nil_iff {ls : List Text} {k : Nat} {line : Text} (hl : ls[k]? = some line)
    (he : Vocabulary.standard.IsEnd line) :
    (lines 1 (ls.take k) .initial).openAt = [] ↔ ∀ i, ¬Vocabulary.standard.Pairs ls i k := by
  obtain ⟨hk, rfl⟩ := List.getElem?_eq_some_iff.mp hl
  have hlen : (ls.take k).length = k := List.length_take_of_le (Nat.le_of_lt hk)
  have hcut : ls = ls.take k ++ [ls[k]] ++ ls.drop (k + 1) := by
    rw [List.append_assoc, List.singleton_append, ← List.drop_eq_getElem_cons hk,
      List.take_append_drop]
  have hpairs : ∀ i, Vocabulary.standard.Pairs ls i k ↔
      Vocabulary.standard.Pairs (ls.take k ++ [ls[k]]) i (ls.take k).length := by
    intro i
    rw [hlen]
    nth_rewrite 1 [hcut]
    exact Vocabulary.Pairs.append_iff (by rw [List.length_append, hlen]; exact Nat.lt_succ_self k) _
  have hleaves := leaves_openAt (ls.take k)
  simp only [hpairs]
  cases hs : (lines 1 (ls.take k) .initial).openAt with
  | nil =>
      rw [hs] at hleaves
      exact iff_of_true rfl hleaves.not_pairs_end
  | cons entry rest =>
      rw [hs] at hleaves
      exact iff_of_false (List.cons_ne_nil _ _) fun hn => hn _ (hleaves.pairs_end he)

-- What is open at the end are the start lines that belong to no end line.
theorem mem_openAt_iff {ls : List Text} {entry : Nat × Text} :
    entry ∈ (lines 1 ls .initial).openAt ↔
      ∃ i line, ls[i]? = some line ∧ Marker.opening line = .opens (some entry.2) ∧
        entry.1 = i + 1 ∧ ∀ k, ¬Vocabulary.standard.Pairs ls i k := by
  have hat : ∀ {entry : Nat × Text}, entry ∈ (lines 1 ls .initial).openAt →
      ∃ i line, ls[i]? = some line ∧ Marker.opening line = .opens (some entry.2) ∧
        entry.1 = i + 1 := by
    intro entry h
    obtain ⟨line, ⟨i, hi, hn⟩, ho⟩ := (mem_lines_openAt h).resolve_left List.not_mem_nil
    exact ⟨i, line, hi, ho, by omega⟩
  constructor
  · intro h
    obtain ⟨i, line, hi, ho, hn⟩ := hat h
    have hmem : i ∈ (lines 1 ls .initial).openAt.map fun entry => entry.1 - 1 :=
      List.mem_map.mpr ⟨entry, h, by omega⟩
    exact ⟨i, line, hi, ho, hn, ((leaves_openAt ls).mem_iff.mp hmem).2⟩
  · rintro ⟨i, line, hi, ho, hn, hpairs⟩
    have hstart : Vocabulary.standard.isStart line = true := Vocabulary.isStart_iff.mpr ⟨_, ho⟩
    have hmem := (leaves_openAt ls).mem_iff.mpr ⟨⟨line, hi, hstart⟩, hpairs⟩
    obtain ⟨other, hother, heq⟩ := List.mem_map.mp hmem
    obtain ⟨m, found, hm, hfound, hplace⟩ := hat hother
    obtain rfl : m = i := by omega
    obtain rfl := Option.some.inj (hi.symm.trans hm)
    have hname := Option.some.inj (Opening.opens.inj (ho.symm.trans hfound))
    have hentry : entry = other := Prod.ext (by omega) hname
    rwa [hentry]

end Scan

theorem firstPlace?_take_eq_some_iff {name : Text} {ls : List Text} {i first : Nat} :
    firstPlace? name (ls.take i) = some first ↔ firstPlace? name ls = some first ∧ first < i := by
  rw [firstPlace?, List.findIdx?_take, ← firstPlace?]
  cases firstPlace? name ls with
  | none => simp
  | some place =>
      simp only [Option.bind_some, Option.guard_eq_some_iff, Option.some.injEq, decide_eq_true_eq]
      refine and_congr_right ?_
      rintro rfl
      rfl

theorem mem_issues_iff_reported {text : Text} {ls : List Text}
    (hls : Scan.lines 1 ls .initial = scan text) {issue : Issue Nat} :
    issue ∈ (check text).issues ↔ Reported ls issue := by
  rw [mem_issues, ← hls]
  constructor
  · rintro ⟨f, hf | ⟨entry, he, rfl⟩, rfl⟩
    · obtain ⟨i, line, hl, hadds⟩ := Scan.mem_lines_iff.mp hf
      cases hadds with
      | malformed ho => exact .malformed hl ho
      | unmatchedEnd he hs => exact .unmatchedEnd hl he ((Scan.openAt_eq_nil_iff hl he).mp hs)
      | emptyName ho => exact .emptyName hl ho
      | duplicate ho hseen =>
          rw [Scan.lookup_firstSeen] at hseen
          obtain ⟨first, hfirst, rfl⟩ := Option.map_eq_some_iff.mp hseen
          obtain ⟨hplace, hlt⟩ := firstPlace?_take_eq_some_iff.mp hfirst
          exact .duplicate hl ho hplace hlt
    · obtain ⟨n, name⟩ := entry
      obtain ⟨i, line, hl, ho, rfl, hn⟩ := Scan.mem_openAt_iff.mp he
      exact .unclosed hl ho hn
  · intro h
    cases h with
    | @malformed i line hl ho =>
        refine ⟨(i + 1, .malformedMarker), Or.inl (Scan.mem_lines_iff.mpr ⟨i, line, hl, ?_⟩), rfl⟩
        exact .malformed ho
    | @unmatchedEnd k line hl he hn =>
        refine ⟨(k + 1, .unmatchedEnd), Or.inl (Scan.mem_lines_iff.mpr ⟨k, line, hl, ?_⟩), rfl⟩
        exact .unmatchedEnd he ((Scan.openAt_eq_nil_iff hl he).mpr hn)
    | @unclosed i line name hl ho hn =>
        refine ⟨(i + 1, .unclosed name (i + 1)), Or.inr ⟨(i + 1, name), ?_, rfl⟩, rfl⟩
        exact Scan.mem_openAt_iff.mpr ⟨i, line, hl, ho, rfl, hn⟩
    | @emptyName i line hl ho =>
        refine ⟨(i + 1, .emptyName), Or.inl (Scan.mem_lines_iff.mpr ⟨i, line, hl, ?_⟩), rfl⟩
        exact .emptyName ho
    | @duplicate first i line name hl ho hf hlt =>
        refine ⟨(i + 1, .duplicate name (first + 1)),
          Or.inl (Scan.mem_lines_iff.mpr ⟨i, line, hl, ?_⟩), rfl⟩
        have hfirst := firstPlace?_take_eq_some_iff.mpr ⟨hf, hlt⟩
        exact .duplicate ho (by rw [Scan.lookup_firstSeen, hfirst]; rfl)

theorem Apart.symm {f g : Located} (h : Apart f g) : Apart g f :=
  fun hn => (h hn.symm).symm

theorem findings_unclosed_apart (ls : List Text) :
    ((Scan.lines 1 ls .initial).findings ++
      (Scan.lines 1 ls .initial).unclosed).Pairwise Apart := by
  refine List.pairwise_append.mpr ⟨Scan.findings_apart ls, ?_, fun f hf g hg _ => ?_⟩
  · have hplaces := List.pairwise_map.mp (Scan.leaves_openAt ls).pairwise_gt
    rw [Scan.unclosed, List.pairwise_map, List.pairwise_reverse]
    refine hplaces.imp fun hlt heq => ?_
    simp only at heq
    omega
  · obtain ⟨i, line, -, hadds⟩ := Scan.mem_lines_iff.mp hf
    obtain ⟨entry, -, rfl⟩ := List.mem_map.mp hg
    intro hcode
    obtain ⟨name, n, hunclosed⟩ := Finding.code_eq_unclosed.mp hcode
    cases hadds <;> simp at hunclosed

-- Issues are listed by line, and of each kind at most one for a line.
theorem issues_pairwise (text : Text) :
    (check text).issues.Pairwise fun a b =>
      a.line < b.line ∨ a.line = b.line ∧ a.code ≠ b.code := by
  have hsorted := @Text.sortBy_pairwise Located (fun a b => a.1 ≤ b.1)
    (fun a b => by simpa using Nat.le_total a.1 b.1)
    (fun a b c => by simpa using Nat.le_trans)
    ((scan text).findings ++ (scan text).unclosed)
  have hapart := ((@Text.sortBy_perm Located (fun a b => a.1 ≤ b.1) _).pairwise_iff
    Apart.symm).mpr (findings_unclosed_apart (Text.lines text))
  simp only [check, findings, scan_pieces, List.pairwise_map]
  refine (hsorted.and hapart).imp fun {a b} hab => ?_
  have hle : a.1 ≤ b.1 := of_decide_eq_true hab.1
  rcases Nat.lt_or_eq_of_le hle with hlt | heq
  · exact Or.inl hlt
  · exact Or.inr ⟨heq, hab.2 heq⟩

-- A report lists what cannot be paired and the names that are empty or not new, and nothing else.
theorem check_reports (text : Text) :
    (∀ issue, issue ∈ (check text).issues ↔ Reported (Text.lines text) issue) ∧
      ((check text).issues.Pairwise fun a b =>
        a.line < b.line ∨ a.line = b.line ∧ a.code ≠ b.code) ∧
      (check text).errors = (check text).issues.countP (·.severity = .error) ∧
      (check text).warnings = (check text).issues.countP (·.severity = .warning) ∧
      ((check text).valid = true ↔ (check text).errors = 0) := by
  refine ⟨fun issue => mem_issues_iff_reported rfl, issues_pairwise text, ?_, ?_, ?_⟩
  · simp [check, List.countP_eq_length_filter]
  · simp [check, List.countP_eq_length_filter]
  · simp [check]

end Sections.Check
