import Sections.Outline
import Sections.Proofs.Edit.SectionEditor
import Sections.Proofs.Nesting.MarkedHeads
import Sections.Proofs.Nesting.Pairs
import Sections.Proofs.Nesting.Reads
import Sections.Proofs.Number.Whole
import Sections.Proofs.Text.UnitCount

namespace Sections

namespace Vocabulary

variable (v : Vocabulary)

-- The sections that are open behind some lines.
def openCount (ls : List Text) : Nat := v.starts ls - v.ends ls

-- The names on the start lines among some of the lines from a place on, each with the number of
-- sections that are open before it.
def entriesFrom (ls : List Text) (n : Nat) (part : List Text) : List (Nat × Text) :=
  (part.zipIdx n).filterMap fun entry =>
    (v.startName? entry.1).map fun name => (v.openCount (ls.take entry.2), name)

-- One line for each start line: its name behind two spaces for every section that is open there.
def outlineLines (ls : List Text) : List Text :=
  (v.entriesFrom ls 0 ls).map fun entry => Outline.indent entry.1 ++ entry.2

variable {v} {ls before : List Text} {line name : Text} {n level : Nat}

@[simp] theorem entriesFrom_nil : v.entriesFrom ls n [] = [] := rfl

theorem entriesFrom_skip (h : v.startName? line = none) (rest : List Text) :
    v.entriesFrom ls n (line :: rest) = v.entriesFrom ls (n + 1) rest := by
  simp [entriesFrom, List.zipIdx_cons, h]

theorem entriesFrom_start (h : v.startName? line = some name) (rest : List Text) :
    v.entriesFrom ls n (line :: rest) =
      (v.openCount (ls.take n), name) :: v.entriesFrom ls (n + 1) rest := by
  simp [entriesFrom, List.zipIdx_cons, h]

theorem entriesFrom_append (n : Nat) (first second : List Text) :
    v.entriesFrom ls n (first ++ second) =
      v.entriesFrom ls n first ++ v.entriesFrom ls (n + first.length) second := by
  rw [entriesFrom, List.zipIdx_append, List.filterMap_append]
  rfl

theorem openCount_eq (hl : v.starts before = v.ends before + level) :
    v.openCount before = level := by
  rw [openCount, hl, Nat.add_sub_cancel_left]

theorem Balanced.keeps_level {more : List Text} (hb : v.Balanced more)
    (hl : v.starts before = v.ends before + level) :
    v.starts (before ++ more) = v.ends (before ++ more) + level := by
  have heq := hb.1
  rw [starts_append, ends_append]
  omega

theorem level_start (h : v.isStart line = true) (hl : v.starts before = v.ends before + level) :
    v.starts (before ++ [line]) = v.ends (before ++ [line]) + (level + 1) := by
  rw [starts_append, ends_append, starts_cons_start h, ends_cons_start h, starts_nil, ends_nil]
  omega

end Vocabulary

namespace Outline

@[simp] theorem entriesOf_append (level : Nat) (first second : List Outline) :
    entriesOf level (first ++ second) = entriesOf level first ++ entriesOf level second := by
  induction first with
  | nil => rfl
  | cons entry rest ih => simp [entriesOf, ih]

end Outline

theorem outlineOf_append (first second : List Section) :
    outlineOf (first ++ second) = outlineOf first ++ outlineOf second := by
  induction first with
  | nil => rfl
  | cons child rest ih => simp [outlineOf, ih]

-- A wrapper gives way to the section that it holds.
theorem outlineOf_adopt (o : OpenSection) {child : Section} {name : Text}
    (h : child.name = some name) :
    outlineOf (o.adopt child).children = outlineOf o.children ++ [⟨name, child.outline⟩] := by
  unfold OpenSection.adopt
  split <;> simp [outlineOf_append, outlineOf, Section.outline, h]

namespace Layout

variable {v : Vocabulary} {separator : Text}

-- The entries of a tree are its start lines. The lines before these ones tell how many sections
-- are open.
theorem entriesOf_into (layout : Layout v) (o : OpenSection) {before : List Text} {level : Nat}
    (hl : v.starts before = v.ends before + level) (after : List Text) {ls : List Text}
    (hls : ls = before ++ layout.lines ++ after) :
    Outline.entriesOf level (outlineOf (layout.into separator o).children) =
      Outline.entriesOf level (outlineOf o.children) ++
        v.entriesFrom ls before.length layout.lines := by
  induction layout generalizing o before level after with
  | empty => rw [into, lines, Vocabulary.entriesFrom_nil, List.append_nil]
  | plain line hp rest ih =>
      have hline := (Vocabulary.balanced_plain hp).keeps_level hl
      have hrest := ih (o.write (line ++ separator)) hline after
        (by rw [hls, lines, List.append_cons before])
      rw [into, hrest, OpenSection.children_write, lines, Vocabulary.entriesFrom_skip hp.startName?,
        List.length_append, List.length_singleton]
  | block start name hs inner stop he rest ihi ihr =>
      let opened := OpenSection.opened (some name) start
      let child := (inner.into separator opened).close (some stop)
      have hstart : v.isStart start = true := Vocabulary.isStart_iff.mpr ⟨_, hs⟩
      have hstarted : v.startName? start = some name := by rw [Vocabulary.startName?, hs]
      have hname : child.name = some name := inner.name_into opened
      have hblock : v.starts (before ++ [start] ++ inner.lines ++ [stop]) =
          v.ends (before ++ [start] ++ inner.lines ++ [stop]) + level := by
        have hb := (inner.balanced_lines.enclose hstart he).keeps_level hl
        simpa using hb
      have hinner := ihi opened (Vocabulary.level_start hstart hl) ([stop] ++ (rest.lines ++ after))
        (by simp [hls, lines])
      have hrest := ihr (o.adopt child) hblock after (by rw [hls, append_lines_block])
      rw [List.length_append, List.length_append, List.length_append, List.length_singleton,
        List.length_singleton] at hrest
      have hchild : child.outline = outlineOf (inner.into separator opened).children := rfl
      have hnone : outlineOf opened.children = [] := rfl
      have hbefore : ls.take before.length = before := by
        rw [hls, List.append_assoc, List.take_left]
      rw [into, hrest, outlineOf_adopt o hname, Outline.entriesOf_append, hchild]
      rw [lines, Vocabulary.entriesFrom_start hstarted, hbefore, Vocabulary.openCount_eq hl,
        Vocabulary.entriesFrom_append, Vocabulary.entriesFrom_skip he.startName?]
      simp only [Outline.entriesOf, Outline.entries, hinner, hnone, List.length_append,
        List.length_singleton, List.nil_append, List.append_nil, List.append_assoc,
        List.cons_append]

theorem entriesOf_tree (layout : Layout v) :
    Outline.entriesOf 0 (layout.tree separator).outline =
      v.entriesFrom layout.lines 0 layout.lines := by
  have hroot : v.starts [] = v.ends [] + 0 := rfl
  exact layout.entriesOf_into .root hroot [] (List.append_nil _).symm

theorem lines_outline_tree (separator : Text) (layout : Layout v) :
    Outline.lines (layout.tree separator).outline = v.outlineLines layout.lines := by
  rw [Outline.lines, entriesOf_tree, Vocabulary.outlineLines]

end Layout

namespace Outline

theorem isWhole_deeper {level : Nat} (h : level < 2 ^ 53) :
    (deeper (.ofNat 0) level).IsWhole level := by
  induction level with
  | zero => exact Number.isWhole_ofNat_zero
  | succ level ih => exact (ih (by omega)).add Number.isWhole_ofNat_one h

theorem lineAt_deeper {level : Nat} {name : Text}
    (h : 2 * level + name.length ≤ longest) :
    lineAt (deeper (.ofNat 0) level) name = .ok (indent level ++ name) := by
  have hlevel : level < 2 ^ 53 := by
    have hlongest : longest < 2 ^ 53 := by decide
    omega
  rw [lineAt, (isWhole_deeper hlevel).truncate?]
  simp only [Int.toNat_natCast]
  rw [if_neg (by omega), if_neg (by omega)]

-- No line is longer than a line may be.
theorem format_eq_lines {outline : List Outline}
    (h : ∀ entry ∈ entriesOf 0 outline, 2 * entry.1 + entry.2.length ≤ longest) :
    format (.ofNat 0) outline = .ok (lines outline) := by
  rw [format, lines]
  generalize entriesOf 0 outline = entries at h ⊢
  induction entries with
  | nil => rfl
  | cons entry rest ih =>
      have hrest := ih fun other ho => h other (List.mem_cons_of_mem _ ho)
      rw [List.mapM_cons, lineAt_deeper (h entry List.mem_cons_self), hrest]
      rfl

end Outline

namespace Vocabulary

variable {ls : List Text}

theorem two_mul_starts_le (ls : List Text) : 2 * standard.starts ls ≤ Text.unitCount ls := by
  induction ls with
  | nil => exact Nat.le_refl _
  | cons line rest ih =>
      rw [Text.unitCount]
      cases hs : standard.isStart line with
      | false =>
          rw [starts_cons_of_not_isStart hs]
          omega
      | true =>
          obtain ⟨name, ho⟩ := standard_named.exists_opens hs
          have hunits := Marker.length_of_opens ho
          rw [starts_cons_start hs]
          omega

-- An entry needs no more units than the lines up to its start line.
theorem size_of_mem_entriesFrom {entry : Nat × Text} (h : entry ∈ standard.entriesFrom ls 0 ls) :
    2 * entry.1 + entry.2.length ≤ Text.unitCount ls := by
  rw [entriesFrom, List.mem_filterMap] at h
  obtain ⟨⟨line, i⟩, hmem, he⟩ := h
  obtain ⟨name, hname, rfl⟩ := Option.map_eq_some_iff.mp he
  obtain ⟨hi, hline⟩ := List.getElem?_eq_some_iff.mp (List.mk_mem_zipIdx_iff_getElem?.mp hmem)
  have hstarts := two_mul_starts_le (ls.take i)
  have hunits : 2 + name.length ≤ line.length :=
    Marker.length_of_opens (startName?_eq_some_iff.mp hname)
  have hcut : Text.unitCount ls =
      Text.unitCount (ls.take i) +
        (line.length + Text.unitCount (ls.drop (i + 1))) := by
    rw [← hline, ← Text.unitCount, ← List.drop_eq_getElem_cons hi, ← Text.unitCount_append,
      List.take_append_drop]
  show 2 * (standard.starts (ls.take i) - standard.ends (ls.take i)) + name.length ≤
    Text.unitCount ls
  omega

theorem length_entriesFrom {v : Vocabulary} (hv : v.Named) (n : Nat) (part : List Text) :
    (v.entriesFrom ls n part).length = v.starts part := by
  induction part generalizing n with
  | nil => rfl
  | cons line rest ih =>
      cases hs : v.startName? line with
      | some name =>
          have hstart : v.isStart line = true := isStart_iff.mpr ⟨_, startName?_eq_some_iff.mp hs⟩
          rw [entriesFrom_start hs, List.length_cons, ih, starts_cons_start hstart]
      | none =>
          have hstart : v.isStart line = false := by
            rw [← Bool.not_eq_true]
            intro hstart
            obtain ⟨name, ho⟩ := hv.exists_opens hstart
            exact absurd (hs.symm.trans (startName?_eq_some_iff.mpr ho)) (by simp)
          rw [entriesFrom_skip hs, ih, starts_cons_of_not_isStart hstart]

end Vocabulary

namespace Options

-- An outline lists the start lines, each below the sections that are open before it. It can always
-- be written, since an entry is no longer than the text.
theorem readTree_outline (options : Options) {text : Text} {root : Section}
    (hr : options.readTree text = .ok root) :
    Outline.lines root.outline = Vocabulary.standard.outlineLines (Text.lines text) ∧
      (Outline.lines root.outline).length = Vocabulary.standard.starts (Text.lines text) ∧
      (∀ i, Vocabulary.standard.ends ((Text.lines text).take i) ≤
        Vocabulary.standard.starts ((Text.lines text).take i)) ∧
      (text.length ≤ Outline.longest →
        Outline.format (.ofNat 0) root.outline =
          .ok (Vocabulary.standard.outlineLines (Text.lines text))) := by
  obtain ⟨layout, hls, rfl⟩ := (Section.ofLines_eq_ok_iff Vocabulary.standard_named
    options.separator _ root).mp (readTree_eq_ok_iff.mp hr)
  have hlines := layout.lines_outline_tree options.separator
  rw [hls] at hlines
  refine ⟨hlines, ?_, fun i => ?_, fun hlen => ?_⟩
  · rw [hlines, Vocabulary.outlineLines, List.length_map,
      Vocabulary.length_entriesFrom Vocabulary.standard_named]
  · rw [← hls]
    exact layout.balanced_lines.2 _ (List.take_prefix i _)
  · rw [Outline.format_eq_lines, hlines]
    intro entry he
    rw [layout.entriesOf_tree, hls] at he
    have hsize := Vocabulary.size_of_mem_entriesFrom he
    have htext := Text.unitCount_lines_le text
    omega

-- Text between siblings is kept in wrappers, which take no place in the outline.
def chapters : Text :=
  Text.unlines ['\n'.unit] ["SECTION-START[1]".units, "SECTION-START[1.1]".units,
    "SECTION-END".units, "text".units, "SECTION-START[1.2]".units, "SECTION-START[]".units, "SECTION-END".units,
    "SECTION-END".units, "SECTION-END".units, "text".units, "SECTION-START[2]SECTION-END".units,
    "SECTION-END".units]

theorem readTree_outline_chapters :
    ∃ root, Options.readTree ⟨['|'.unit], .sequential⟩ chapters = .ok root ∧
      Outline.lines root.outline =
        ["1".units, "  1.1".units, "  1.2".units, "    ".units, "2".units] ∧
      Outline.format (.ofNat 0) root.outline =
        .ok ["1".units, "  1.1".units, "  1.2".units, "    ".units, "2".units] := by
  obtain ⟨root, hr⟩ := @exists_readTree ⟨['|'.unit], .sequential⟩ chapters (by decide +kernel)
  have hlen : chapters.length ≤ Outline.longest := by decide +kernel
  have hmarked : Vocabulary.standard.outlineLines (Text.lines chapters) =
      ["1".units, "  1.1".units, "  1.2".units, "    ".units, "2".units] := by
    decide +kernel
  obtain ⟨hlines, -, -, hformat⟩ := readTree_outline ⟨['|'.unit], .sequential⟩ hr
  exact ⟨root, hr, hlines.trans hmarked, (hformat hlen).trans (congrArg Except.ok hmarked)⟩

end Options

end Sections
