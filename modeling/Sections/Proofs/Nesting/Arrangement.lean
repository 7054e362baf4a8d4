import Mathlib.Data.List.Forall2
import Sections.Proofs.Nesting.LeftOpen
import Sections.Proofs.Nesting.Linked

namespace Sections

namespace Vocabulary

-- The places of the start lines whose end lines are still to come, the outermost first.
def openStarts (v : Vocabulary) (ls : List Text) : List Nat :=
  (List.range ls.length).filter fun i =>
    (∃ start ∈ ls[i]?, v.isStart start = true) ∧ ∀ k < ls.length, ¬v.Pairs ls i k

-- The line at a place opens a section of the name.
def StartsAt (v : Vocabulary) (ls : List Text) (i : Nat) (name startLine : Option Text) : Prop :=
  ∃ line given, ls[i]? = some line ∧ v.opening line = .opens (some given) ∧ name = some given ∧
    startLine = some line

variable {v : Vocabulary} {ls : List Text}

theorem StartsAt.append {i : Nat} {name startLine : Option Text}
    (h : v.StartsAt ls i name startLine) (more : List Text) :
    v.StartsAt (ls ++ more) i name startLine := by
  obtain ⟨line, given, hl, ho, hn, hs⟩ := h
  refine ⟨line, given, ?_, ho, hn, hs⟩
  rw [List.getElem?_append_left (List.getElem?_eq_some_iff.mp hl).1, hl]

theorem StartsAt.name_ne_none {i : Nat} {name startLine : Option Text}
    (h : v.StartsAt ls i name startLine) : name ≠ none := by
  obtain ⟨-, given, -, -, rfl, -⟩ := h
  exact Option.some_ne_none given

theorem mem_openStarts {i : Nat} :
    i ∈ v.openStarts ls ↔
      (∃ start ∈ ls[i]?, v.isStart start = true) ∧ ∀ k, ¬v.Pairs ls i k := by
  rw [openStarts, List.mem_filter, List.mem_range, decide_eq_true_eq]
  constructor
  · rintro ⟨-, hs, hn⟩
    exact ⟨hs, fun k hp => hn k hp.lt_length.2 hp⟩
  · rintro ⟨⟨start, hl, hs⟩, hn⟩
    exact ⟨(List.getElem?_eq_some_iff.mp hl).1, ⟨start, hl, hs⟩, fun k _ => hn k⟩

theorem Leaves.reverse_eq {places : List Nat} (h : v.Leaves ls places) :
    places.reverse = v.openStarts ls := by
  have hsorted : places.reverse.Pairwise (· < ·) := List.pairwise_reverse.mpr h.pairwise_gt
  have hopen : (v.openStarts ls).Pairwise (· < ·) := List.pairwise_lt_range.filter _
  have hperm : places.reverse.Perm (v.openStarts ls) := by
    refine (List.perm_ext_iff_of_nodup (hsorted.imp Nat.ne_of_lt) (hopen.imp Nat.ne_of_lt)).mpr ?_
    intro i
    rw [List.mem_reverse, h.mem_iff, mem_openStarts]
  exact hperm.eq_of_pairwise (fun i k _ _ hik hki => absurd hik (Nat.lt_asymm hki)) hsorted hopen

end Vocabulary

namespace OpenSection

-- Plain lines still go to the head of a section just if no child was opened in it.
def HeadFirst (o : OpenSection) : Prop := o.mode = .head ↔ o.children = []

variable {v : Vocabulary} {separator : Text} {o : OpenSection}

theorem HeadFirst.into (h : o.HeadFirst) (layout : Layout v) :
    (layout.into separator o).HeadFirst := by
  induction layout generalizing o with
  | empty => exact h
  | plain line hp rest ih =>
      refine ih ?_
      unfold OpenSection.write
      split <;> exact h
  | block start name ho inner stop he rest _ ih =>
      refine ih ?_
      unfold OpenSection.adopt
      split
      · rename_i ht
        simp [HeadFirst, ht.1]
      · simp [HeadFirst]

end OpenSection

namespace OpenStack

-- The open sections, the innermost first, over the places of their start lines. Each stands on
-- another one or on a wrapper in it that holds nothing else, and the root is at the bottom.
inductive Tower (v : Vocabulary) (ls : List Text) : List OpenSection → List Nat → Prop where
  | root {o : OpenSection} (hn : o.name = none) (hs : o.startLine = none) : Tower v ls [o] []
  | direct {o outer : OpenSection} {rest : List OpenSection} {i : Nat} {places : List Nat}
      (ho : v.StartsAt ls i o.name o.startLine) (h : Tower v ls (outer :: rest) places) :
      Tower v ls (o :: outer :: rest) (i :: places)
  | wrapped {o wrapper outer : OpenSection} {rest : List OpenSection} {i : Nat} {places : List Nat}
      (ho : v.StartsAt ls i o.name o.startLine) (hn : wrapper.name = none)
      (hs : wrapper.startLine = none) (hc : wrapper.children = [])
      (h : Tower v ls (outer :: rest) places) :
      Tower v ls (o :: wrapper :: outer :: rest) (i :: places)

variable {v : Vocabulary} {separator : Text} {ls : List Text} {places : List Nat}
  {os : List OpenSection}

theorem Tower.append (h : Tower v ls os places) (more : List Text) :
    Tower v (ls ++ more) os places := by
  induction h with
  | root hn hs => exact .root hn hs
  | direct ho _ ih => exact .direct (ho.append more) ih
  | wrapped ho hn hs hc _ ih => exact .wrapped (ho.append more) hn hs hc ih

-- What the section on top holds so far plays no part.
theorem Tower.congr {o other : OpenSection} (h : Tower v ls (o :: os) places)
    (hn : other.name = o.name) (hs : other.startLine = o.startLine) :
    Tower v ls (other :: os) places := by
  cases h with
  | root hname hstart => exact .root (hn.trans hname) (hs.trans hstart)
  | direct ho h => exact .direct (by rwa [hn, hs]) h
  | wrapped ho hwn hws hc h => exact .wrapped (by rwa [hn, hs]) hwn hws hc h

-- Reading stands in the sections that the lines leave open.
theorem Reads.exists_tower {st : OpenStack} (h : Reads v separator ls st) :
    ∃ places, v.Leaves ls places ∧ Tower v ls (st.top :: st.below) places := by
  induction h with
  | root layout =>
      exact ⟨[], .settled layout.balanced_lines.settled, .root (by simp [OpenSection.root])
        (by simp [OpenSection.root])⟩
  | @inside ls st outer start name ho layout ih =>
      obtain ⟨places, hl, ht⟩ := ih
      have hs : v.isStart start = true := Vocabulary.isStart_iff.mpr ⟨_, ho⟩
      refine ⟨_, hl.inside hs layout.balanced_lines, ?_⟩
      have hstarts : v.StartsAt (ls ++ start :: layout.lines) ls.length
          (layout.into separator (.opened (some name) start)).name
          (layout.into separator (.opened (some name) start)).startLine :=
        ⟨start, name, by simp, ho, by simp [OpenSection.opened], by simp [OpenSection.opened]⟩
      have hbelow := ht.append (start :: layout.lines)
      unfold push
      split
      · exact .wrapped hstarts rfl rfl rfl (hbelow.congr rfl rfl)
      · exact .direct hstarts (hbelow.congr rfl rfl)

theorem Reads.headFirst {st : OpenStack} (h : Reads v separator ls st) : st.top.HeadFirst := by
  cases h with
  | root layout =>
      exact OpenSection.HeadFirst.into (o := .root) (iff_of_true rfl rfl) layout
  | inside outer start name ho layout =>
      exact OpenSection.HeadFirst.into (o := .opened (some name) start) (iff_of_true rfl rfl) layout

theorem Tower.bottom (h : Tower v ls os places) {i : Nat} {o : OpenSection}
    (ho : os[i]? = some o) (hi : i + 1 = os.length) : o.name = none ∧ o.startLine = none := by
  induction h generalizing i with
  | root hn hs =>
      obtain rfl : i = 0 := Nat.succ.inj hi
      obtain rfl := Option.some.inj ho
      exact ⟨hn, hs⟩
  | direct _ _ ih =>
      cases i with
      | zero => simp at hi
      | succ i => exact ih ho (Nat.succ.inj hi)
  | wrapped _ _ _ _ _ ih =>
      match i with
      | 0 => simp at hi
      | 1 => simp at hi
      | i + 2 => exact ih ho (Nat.succ.inj (Nat.succ.inj hi))

-- A nameless section above the root is a wrapper, with a named section on it.
theorem Tower.wrapper (h : Tower v ls os places) {i : Nat} {w : OpenSection}
    (hw : os[i]? = some w) (hn : w.name = none) (hi : i + 1 < os.length) :
    w.children = [] ∧ ∃ k o, i = k + 1 ∧ os[k]? = some o ∧ o.name ≠ none := by
  induction h generalizing i with
  | root => exact absurd hi (by simp)
  | direct ho _ ih =>
      cases i with
      | zero =>
          obtain rfl := Option.some.inj hw
          exact absurd hn ho.name_ne_none
      | succ i =>
          obtain ⟨hc, k, o, rfl, hk, hon⟩ := ih hw (Nat.lt_of_succ_lt_succ hi)
          exact ⟨hc, k + 1, o, rfl, hk, hon⟩
  | @wrapped o _ _ _ _ _ ho _ _ hc _ ih =>
      match i with
      | 0 =>
          obtain rfl := Option.some.inj hw
          exact absurd hn ho.name_ne_none
      | 1 =>
          obtain rfl := Option.some.inj hw
          exact ⟨hc, 0, o, rfl, rfl, ho.name_ne_none⟩
      | i + 2 =>
          obtain ⟨hc, k, o, rfl, hk, hon⟩ :=
            ih hw (Nat.lt_of_succ_lt_succ (Nat.lt_of_succ_lt_succ hi))
          exact ⟨hc, k + 2, o, rfl, hk, hon⟩

end OpenStack

section Frames

variable {store : Nat → Record} {closed : Nat → Prop} {upper : Option Nat} {f lower : Frame}
  {fs : List Frame} {os : List OpenSection}

theorem Frame.Shows.name {o : OpenSection} (h : f.Shows store closed upper o) :
    (store f.place).name = o.name := by
  obtain ⟨places, -, hr⟩ := h.record
  rw [hr, OpenSection.record]

theorem Frame.Shows.startLine {o : OpenSection} (h : f.Shows store closed upper o) :
    (store f.place).startLine = o.startLine := by
  obtain ⟨places, -, hr⟩ := h.record
  rw [hr, OpenSection.record]

theorem FramesShow.length_eq (h : FramesShow store closed upper fs os) :
    fs.length = os.length := by
  induction h with
  | nil => rfl
  | cons _ _ ih => rw [List.length_cons, List.length_cons, ih]

theorem FramesShow.get (h : FramesShow store closed upper fs os) {i : Nat} (hf : fs[i]? = some f) :
    ∃ o, os[i]? = some o ∧ ∃ on, f.Shows store closed on o := by
  induction h generalizing i with
  | nil => contradiction
  | cons hshows _ ih =>
      cases i with
      | zero =>
          obtain rfl := Option.some.inj hf
          exact ⟨_, rfl, _, hshows⟩
      | succ i => exact ih hf

-- An entry below another one refers to it.
theorem FramesShow.get_below (h : FramesShow store closed upper fs os) {i : Nat}
    (hf : fs[i]? = some f) (hl : fs[i + 1]? = some lower) :
    ∃ o, os[i + 1]? = some o ∧ lower.Shows store closed (some f.place) o := by
  induction h generalizing i with
  | nil => contradiction
  | cons _ hrest ih =>
      cases i with
      | zero =>
          obtain rfl := Option.some.inj hf
          cases hrest with
          | nil => contradiction
          | cons hshows _ =>
              obtain rfl := Option.some.inj hl
              exact ⟨_, rfl, hshows⟩
      | succ i => exact ih hf hl

theorem FramesShow.named {v : Vocabulary} {ls : List Text} {places : List Nat}
    (h : FramesShow store closed upper fs os) (ht : OpenStack.Tower v ls os places) :
    List.Forall₂ (fun i f => v.StartsAt ls i (store f.place).name (store f.place).startLine) places
      (fs.filter fun f => (store f.place).name.isSome) := by
  induction ht generalizing upper fs with
  | root hn hs =>
      cases h with
      | cons hshows hrest =>
          cases hrest
          rw [List.filter_cons_of_neg (by rw [hshows.name, hn]; simp)]
          exact .nil
  | direct ho _ ih =>
      cases h with
      | cons hshows hrest =>
          rw [← hshows.name, ← hshows.startLine] at ho
          rw [List.filter_cons, if_pos (Option.isSome_iff_ne_none.mpr ho.name_ne_none)]
          exact .cons ho (ih hrest)
  | wrapped ho hn _ _ _ ih =>
      cases h with
      | cons hshows hrest =>
          cases hrest with
          | cons hwrapper hrest =>
              rw [← hshows.name, ← hshows.startLine] at ho
              rw [List.filter_cons, if_pos (Option.isSome_iff_ne_none.mpr ho.name_ne_none),
                List.filter_cons_of_neg (by rw [hwrapper.name, hn]; simp)]
              exact .cons ho (ih hrest)

end Frames

namespace LinkedStack

-- A nameless section above the root.
def IsWrapper (l : LinkedStack) (f : Frame) : Prop := f.place ≠ 0 ∧ (l.record f).name = none

instance (l : LinkedStack) (f : Frame) : Decidable (l.IsWrapper f) :=
  inferInstanceAs (Decidable (_ ∧ _))

-- How a stack stands after some lines. Entries are listed from the top on.
structure Arranged (v : Vocabulary) (ls : List Text) (l : LinkedStack) : Prop where
  -- The root is at the bottom. Without the wrappers, what stands above it are the sections that
  -- the lines leave open, the outermost first.
  sections : ∃ above root, l.frames = above ++ [root] ∧ root.place = 0 ∧
    (l.record root).name = none ∧ (l.record root).startLine = none ∧
    List.Forall₂ (fun i f => v.StartsAt ls i (l.record f).name (l.record f).startLine)
      (v.openStarts ls) (above.reverse.filter fun f => ¬l.IsWrapper f)
  -- On a wrapper stands its only child, which is named.
  wrapper : ∀ i w, l.frames[i]? = some w → l.IsWrapper w →
    ∃ k inner, i = k + 1 ∧ l.frames[k]? = some inner ∧
      (l.record w).children = [inner.place] ∧ (l.record inner).name ≠ none
  -- The last child of an entry below the top is the entry on it.
  below : ∀ i inner outer, l.frames[i]? = some inner → l.frames[i + 1]? = some outer →
    outer.mode = .tail ∧ (l.record outer).tail = [] ∧
      (l.record outer).children.getLast? = some inner.place
  mode : ∀ f ∈ l.frames, (f.mode = .head ↔ (l.record f).children = []) ∧
    (f.mode = .head → (l.record f).tail = [])

variable {l : LinkedStack} {st : OpenStack} {v : Vocabulary} {ls : List Text} {places : List Nat}

theorem Shows.bottom_place (h : l.Shows st) {i : Nat} {f : Frame} (hf : l.frames[i]? = some f)
    (hi : i + 1 = l.frames.length) : f.place = 0 := by
  have hbottom := h.bottom
  rw [List.getLast?_eq_getElem?, List.getElem?_map, List.length_map, ← hi, Nat.add_sub_cancel, hf]
    at hbottom
  exact Option.some.inj hbottom

theorem Shows.below_top (h : l.Shows st) (hb : ∀ o ∈ st.below, o.TakesChild) {i : Nat}
    {inner outer : Frame} (hi : l.frames[i]? = some inner) (ho : l.frames[i + 1]? = some outer) :
    outer.mode = .tail ∧ (l.record outer).tail = [] ∧
      (l.record outer).children.getLast? = some inner.place := by
  obtain ⟨o, hget, hshows⟩ := h.frames.get_below hi ho
  obtain ⟨hmode, htail⟩ := hb o (List.mem_of_getElem? hget)
  obtain ⟨places, -, hr⟩ := hshows.record
  rw [record, hr]
  exact ⟨hshows.mode.trans hmode, htail, List.getLast?_concat ..⟩

theorem Shows.mode_top (h : l.Shows st) (hw : st.top.WritesLast) (hh : st.top.HeadFirst) :
    (l.top.mode = .head ↔ (l.record l.top).children = []) ∧
      (l.top.mode = .head → (l.record l.top).tail = []) := by
  obtain ⟨places, hp, hr⟩ := Shows.top h |>.record
  rw [record, hr, (Shows.top h).mode]
  simp only [OpenSection.record, Option.toList_none, List.append_nil]
  exact ⟨hh.trans hp.eq_nil_iff.symm, fun hm => (hw hm).2⟩

-- Only the root and the wrappers are nameless, and the root stands at the bottom alone.
theorem Shows.sections_tower (h : l.Shows st)
    (ht : OpenStack.Tower v ls (st.top :: st.below) places) :
    ∃ above root, l.frames = above ++ [root] ∧ root.place = 0 ∧ (l.record root).name = none ∧
      (l.record root).startLine = none ∧
      List.Forall₂ (fun i f => v.StartsAt ls i (l.record f).name (l.record f).startLine) places
        (above.filter fun f => ¬l.IsWrapper f) := by
  obtain ⟨above, root, hframes⟩ : ∃ above root, l.frames = above ++ [root] :=
    List.eq_nil_or_concat' l.frames |>.resolve_left (by simp [LinkedStack.frames])
  have hget : l.frames[above.length]? = some root := by rw [hframes]; simp
  have hlast : above.length + 1 = l.frames.length := by rw [hframes]; simp
  have hplace := h.bottom_place hget hlast
  obtain ⟨o, hos, _, hshows⟩ := h.frames.get hget
  obtain ⟨hname, hstart⟩ := ht.bottom hos (hlast.trans h.frames.length_eq)
  refine ⟨above, root, hframes, hplace, hshows.name.trans hname, hshows.startLine.trans hstart, ?_⟩
  have hnodup := h.nodup
  rw [hframes, List.map_append, List.nodup_append] at hnodup
  have hfilter : (l.frames.filter fun f => (l.record f).name.isSome) =
      above.filter fun f => ¬l.IsWrapper f := by
    rw [hframes, List.filter_append,
      List.filter_cons_of_neg (by simp [record, hshows.name, hname]), List.filter_nil,
      List.append_nil]
    refine List.filter_congr fun f hf => ?_
    have hne : f.place ≠ 0 := by
      rw [← hplace]
      exact hnodup.2.2 _ (List.mem_map_of_mem hf) _ (by simp)
    cases hn : (l.record f).name <;> simp [IsWrapper, hne, hn]
  rw [← hfilter]
  exact h.frames.named ht

theorem Shows.wrapper_tower (h : l.Shows st)
    (ht : OpenStack.Tower v ls (st.top :: st.below) places) {i : Nat} {w : Frame}
    (hw : l.frames[i]? = some w) (hwrapper : l.IsWrapper w) :
    ∃ k inner, i = k + 1 ∧ l.frames[k]? = some inner ∧
      (l.record w).children = [inner.place] ∧ (l.record inner).name ≠ none := by
  obtain ⟨hplace, hname⟩ := hwrapper
  obtain ⟨o, hos, _, hshows⟩ := h.frames.get hw
  have hi := (List.getElem?_eq_some_iff.mp hw).1
  have hlt : i + 1 < (st.top :: st.below).length := by
    rw [← h.frames.length_eq]
    exact Nat.lt_of_le_of_ne hi fun hlast => hplace (h.bottom_place hw hlast)
  obtain ⟨hchildren, k, inner, rfl, hk, hinner⟩ :=
    ht.wrapper hos (hshows.name.symm.trans hname) hlt
  have hget := List.getElem?_eq_getElem (Nat.lt_of_succ_lt hi)
  obtain ⟨o', hos', hbelow⟩ := h.frames.get_below hget hw
  obtain rfl : o = o' := Option.some.inj (hos.symm.trans hos')
  obtain ⟨upper, hupper, _, hnamed⟩ := h.frames.get hget
  obtain rfl : inner = upper := Option.some.inj (hk.symm.trans hupper)
  refine ⟨k, _, rfl, hget, ?_, fun hn => hinner (hnamed.name.symm.trans hn)⟩
  obtain ⟨closed, hp, hrecord⟩ := hbelow.record
  rw [record, hrecord, hp.eq_nil_iff.mpr hchildren]
  rfl

theorem arranged_of_reads {separator : Text} (h : l.Shows st)
    (hr : OpenStack.Reads v separator ls st) (ho : st.Ordered) : l.Arranged v ls := by
  obtain ⟨places, hleaves, htower⟩ := hr.exists_tower
  constructor
  · obtain ⟨above, root, hframes, hplace, hname, hstart, hstarts⟩ := h.sections_tower htower
    refine ⟨above, root, hframes, hplace, hname, hstart, ?_⟩
    rw [List.filter_reverse, ← hleaves.reverse_eq, List.forall₂_reverse_iff]
    exact hstarts
  · exact fun i w => h.wrapper_tower htower
  · exact fun i inner outer => h.below_top ho.below
  · intro f hf
    obtain ⟨i, hi, rfl⟩ := List.getElem_of_mem hf
    cases i with
    | zero => exact h.mode_top ho.top hr.headFirst
    | succ i =>
        obtain ⟨hmode, -, hlast⟩ := h.below_top ho.below
          (List.getElem?_eq_getElem (Nat.lt_of_succ_lt hi)) (List.getElem?_eq_getElem hi)
        rw [hmode]
        refine ⟨iff_of_false (by decide) fun hnil => ?_, fun hm => absurd hm (by decide)⟩
        rw [hnil] at hlast
        contradiction

end LinkedStack

namespace Options

variable (options : Options) (hook : Hook)

-- While lines are taken in without an error, the stack always stands like this behind the last one
-- of them, and it shows the open sections that the editor remembers.
theorem feedAll_arranged {memory last : Memory} (hm : memory.AtRest) (ls rest : List Text)
    (h : (options.editor hook).feedAll (ls ++ rest) memory = (.ok (), last)) :
    ∃ after l, (options.editor hook).feedAll ls memory = (.ok (), after) ∧
      LinkedStack.consumeAll .standard options.separator (memory.lineNumber + 1) ls .initial =
        .ok l ∧
      l.Shows after.stack ∧ l.Arranged .standard ls := by
  have hagrees := LinkedStack.Shows.initial.consumeAll .standard options.separator
    (memory.lineNumber + 1) ls
  rw [SectionEditor.feedAll_append] at h
  cases hc : OpenStack.consumeAll .standard options.separator (memory.lineNumber + 1) ls
    .initial with
  | error e =>
      rw [(options.editor hook).feedAll_of_error (by rw [hm.stack]; exact hc)] at h
      simp at h
  | ok st =>
      obtain ⟨pending, rfl, hfeed⟩ :=
        (options.editor hook).feedAll_of_ok (by rw [hm.stack]; exact hc)
      have hreads := OpenStack.Reads.initial.consumeAll Vocabulary.standard_named hc
      have hordered := (OpenStack.Ordered.initial.consumeAll hc).1
      rw [hc] at hagrees
      generalize hl : LinkedStack.initial.consumeAll .standard _ _ _ = result at hagrees
      cases hagrees with
      | ok hshows =>
          exact ⟨_, _, hfeed, rfl, hshows, LinkedStack.arranged_of_reads hshows hreads hordered⟩

-- Text behind a closed section goes into a wrapper as soon as another section is opened.
def wrapped : List Text :=
  ["SECTION-START[a]", "x", "SECTION-START[b]", "SECTION-END", "y", "SECTION-START[c]"].map
    String.units

theorem feedAll_arranged_wrapped :
    Memory.fresh.AtRest ∧
      ∃ l, LinkedStack.consumeAll .standard ['\n'.unit] 1 wrapped .initial = .ok l ∧
        l.frames.map Frame.place = [4, 3, 1, 0] ∧ (l.store 1).children = [2, 3] ∧
        (l.store 3).children = [4] ∧ Vocabulary.standard.openStarts wrapped = [0, 5] ∧
        l.Arranged .standard wrapped := by
  have hrest : Memory.fresh.AtRest := rfl
  obtain ⟨-, l, -, hl, -, harranged⟩ :=
    feedAll_arranged ⟨['\n'.unit], .sequential⟩ .identity hrest wrapped ["SECTION-END".units] rfl
  refine ⟨hrest, l, hl, ?_⟩
  obtain rfl := Except.ok.inj (hl.symm.trans rfl)
  exact ⟨rfl, rfl, rfl, by decide, harranged⟩

end Options

end Sections
