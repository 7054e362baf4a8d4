import Sections.Proofs.Contents
import Sections.Proofs.Nesting.MarkedHeads
import Sections.Proofs.Nesting.Pairs

namespace Sections

namespace Vocabulary

variable (v : Vocabulary)

-- The place of the start line that the line at a place ends.
def partner? (ls : List Text) (k : Nat) : Option Nat :=
  (List.range k).find? fun i => v.Pairs ls i k

-- The name of the section that the line at a place ends.
def endedName? (ls : List Text) (k : Nat) : Option Text :=
  (v.partner? ls k).bind fun i => ls[i]?.bind v.startName?

-- The name of the section whose head some lines leave open: that of the last marker line, if it
-- is a start line.
def headName? (ls : List Text) : Option Text :=
  (ls.filter fun line => ¬v.IsPlain line).getLast?.bind v.startName?

-- What is put before the line at a place: before a marker line what its section adds to the head
-- that the line ends, and then what the section adds to its tail that the line ends.
def addition (h t : Text → Text) (ls : List Text) (i : Nat) (line : Text) : Text :=
  if v.IsPlain line then []
  else (v.headName? (ls.take i)).elim [] h ++ (v.endedName? ls i).elim [] t

-- Some of the lines from a place on, with what is put before each of them.
def addedFrom (separator : Text) (h t : Text → Text) (ls : List Text) (n : Nat)
    (part : List Text) : Text :=
  (part.zipIdx n).flatMap fun entry => v.addition h t ls entry.2 entry.1 ++ (entry.1 ++ separator)

def added (separator : Text) (h t : Text → Text) (ls : List Text) : Text :=
  v.addedFrom separator h t ls 0 ls

variable {v} {ls before : List Text} {line start stop name : Text} {i k : Nat}

theorem partner?_eq_some_iff : v.partner? ls k = some i ↔ v.Pairs ls i k := by
  constructor
  · intro h
    exact of_decide_eq_true (List.find?_some (p := fun i => decide (v.Pairs ls i k)) h)
  · intro hp
    cases hf : v.partner? ls k with
    | none =>
        have hnone := List.find?_eq_none.mp hf i (List.mem_range.mpr hp.1)
        exact absurd (decide_eq_true hp) hnone
    | some j =>
        have hj := of_decide_eq_true (List.find?_some (p := fun i => decide (v.Pairs ls i k)) hf)
        rw [hj.start_unique hp]

theorem Pairs.endedName? (hp : v.Pairs ls i k) (hl : ls[i]? = some start) :
    v.endedName? ls k = v.startName? start := by
  rw [Vocabulary.endedName?, partner?_eq_some_iff.mpr hp, Option.bind_some, hl, Option.bind_some]

theorem endedName?_eq_none (hl : ls[k]? = some line) (he : ¬v.IsEnd line) :
    v.endedName? ls k = none := by
  cases hf : v.partner? ls k with
  | none => rw [endedName?, hf, Option.bind_none]
  | some i => exact absurd ((partner?_eq_some_iff.mp hf).isEnd hl) he

theorem headName?_plain (h : v.IsPlain line) :
    v.headName? (before ++ [line]) = v.headName? before := by
  simp [headName?, h]

theorem headName?_marker (h : ¬v.IsPlain line) :
    v.headName? (before ++ [line]) = v.startName? line := by
  simp [headName?, h]

theorem headName?_start (h : v.opening start = .opens (some name)) :
    v.headName? (before ++ [start]) = some name := by
  rw [headName?_marker (not_isPlain_of_opens h), startName?, h]

theorem headName?_end (h : v.IsEnd stop) : v.headName? (before ++ [stop]) = none := by
  rw [headName?_marker h.not_isPlain, h.startName?]

section Text

variable {separator : Text} {h t : Text → Text}

theorem addition_plain (hp : v.IsPlain line) : v.addition h t ls i line = [] := if_pos hp

-- Nothing ends at a start line but the head before it.
theorem addition_start (hl : ls[i]? = some line) (hs : v.isStart line = true) :
    v.addition h t ls i line = (v.headName? (ls.take i)).elim [] h := by
  obtain ⟨name, ho⟩ := isStart_iff.mp hs
  have hp : ¬v.IsPlain line := by
    intro hp
    exact absurd (hp.1.symm.trans ho) (by simp)
  rw [addition, if_neg hp, endedName?_eq_none hl (not_isEnd_of_isStart hs)]
  exact List.append_nil _

theorem addition_end (hl : ls[i]? = some start) (hp : v.Pairs ls i k) (he : v.IsEnd stop) :
    v.addition h t ls k stop =
      (v.headName? (ls.take k)).elim [] h ++ (v.startName? start).elim [] t := by
  rw [addition, if_neg he.not_isPlain, hp.endedName? hl]

@[simp] theorem addedFrom_nil (n : Nat) : v.addedFrom separator h t ls n [] = [] := rfl

theorem addedFrom_cons (n : Nat) (line : Text) (rest : List Text) :
    v.addedFrom separator h t ls n (line :: rest) =
      v.addition h t ls n line ++ (line ++ separator) ++
        v.addedFrom separator h t ls (n + 1) rest := by
  rw [addedFrom, List.zipIdx_cons, List.flatMap_cons]
  rfl

theorem addedFrom_append (n : Nat) (first second : List Text) :
    v.addedFrom separator h t ls n (first ++ second) =
      v.addedFrom separator h t ls n first ++
        v.addedFrom separator h t ls (n + first.length) second := by
  rw [addedFrom, List.zipIdx_append, List.flatMap_append]
  rfl

theorem addedFrom_block {inner after : List Text}
    (hls : ls = before ++ [start] ++ inner ++ [stop] ++ after) (hs : v.isStart start = true)
    (he : v.IsEnd stop) (hb : v.Balanced inner) (rest : List Text) :
    v.addedFrom separator h t ls before.length (start :: (inner ++ stop :: rest)) =
      (v.headName? before).elim [] h ++ (start ++ separator) ++
        v.addedFrom separator h t ls (before ++ [start]).length inner ++
        ((v.headName? (before ++ [start] ++ inner)).elim [] h ++ (v.startName? start).elim [] t) ++
        (stop ++ separator) ++
        v.addedFrom separator h t ls (before ++ [start] ++ inner ++ [stop]).length rest := by
  have hpair : v.Pairs ls before.length (before ++ [start] ++ inner).length := by
    refine pairs_iff.mpr ⟨before, start, inner, stop, after, ?_, rfl, ?_, hs, he, hb⟩
    · simp [hls]
    · rw [List.length_append, List.length_append, List.length_singleton]
  have hat : ls[before.length]? = some start := by simp [hls]
  have hbefore : ls.take before.length = before := by simp [hls]
  have hwithin : ls.take (before ++ [start] ++ inner).length = before ++ [start] ++ inner := by
    rw [hls, List.append_assoc _ [stop], List.take_left]
  have hstarts : v.addition h t ls before.length start = (v.headName? before).elim [] h := by
    rw [addition_start hat hs, hbefore]
  have hends : v.addition h t ls (before ++ [start] ++ inner).length stop =
      (v.headName? (before ++ [start] ++ inner)).elim [] h ++ (v.startName? start).elim [] t := by
    rw [addition_end hat hpair he, hwithin]
  simp only [List.length_append, List.length_singleton] at hends ⊢
  rw [addedFrom_cons, addedFrom_append, addedFrom_cons, hstarts, hends]
  simp only [List.append_assoc]

end Text

end Vocabulary

-- A named section with a text added to its head and one to its tail.
def Slot.appended (h t : Text → Text) (slot : Slot) : Content :=
  match slot.name with
  | none => slot.content
  | some name => ⟨slot.content.head ++ h name, slot.content.tail ++ t name⟩

namespace OpenSection

variable {separator : Text} {h t : Text → Text}

def headName? (o : OpenSection) : Option Text := if o.mode = .head then o.name else none

-- The additions to an open section so far: those to a head that is ended, and those to children.
def added (h t : Text → Text) (o : OpenSection) : OpenSection :=
  { o with
    head := if o.mode = .head then o.head else o.head ++ o.name.elim [] h
    children := mapContents (Slot.appended h t) o.children }

theorem writesLast_opened (name : Option Text) (start : Text) :
    (opened name start).WritesLast := fun _ => ⟨rfl, rfl⟩

theorem render_added_opened (name : Option Text) (start : Text) :
    ((opened name start).added h t).render separator = start ++ separator := by
  simp [opened, added, render, markerText, mapContents, renderAll]

theorem headName?_write (o : OpenSection) (text : Text) :
    (o.write text).headName? = o.headName? := by
  simp [headName?]

theorem headName?_adopt (o : OpenSection) (child : Section) : (o.adopt child).headName? = none := by
  simp [headName?]

theorem render_added_write {o : OpenSection} (ho : o.WritesLast) (text : Text) :
    ((o.write text).added h t).render separator = (o.added h t).render separator ++ text := by
  cases hm : o.mode with
  | head =>
      obtain ⟨hc, ht⟩ := ho hm
      simp [write, added, render, hm, hc, ht, mapContents, renderAll]
  | tail => simp [write, added, render, hm]

-- The first child ends the head.
theorem render_added_adopt {o : OpenSection} (ho : o.WritesLast) (child : Section) :
    ((o.adopt child).added h t).render separator =
      (o.added h t).render separator ++ o.headName?.elim [] h ++
        (child.mapContent (Slot.appended h t)).render separator := by
  cases hm : o.mode with
  | head =>
      obtain ⟨hc, ht⟩ := ho hm
      simp [adopt, added, headName?, render, hm, hc, ht, mapContents, renderAll]
  | tail =>
      unfold adopt
      split
      · simp [added, headName?, render, hm, mapContents, Section.mapContent, Slot.appended,
          renderAll, Section.render, markerText]
      · rename_i ht
        simp [added, headName?, render, hm, mapContents, renderAll, ho.tail_eq_nil ht]

-- The end of a section ends its tail, and its head too if there is no child.
theorem render_appended_close {o : OpenSection} (ho : o.WritesLast) (endLine : Option Text) :
    ((o.close endLine).mapContent (Slot.appended h t)).render separator =
      (o.added h t).render separator ++ (o.headName?.elim [] h ++ o.name.elim [] t) ++
        markerText separator endLine := by
  cases hm : o.mode with
  | head =>
      obtain ⟨hc, ht⟩ := ho hm
      cases hn : o.name <;>
        simp [close, Section.mapContent, Slot.appended, added, headName?, render, Section.render,
          hm, hc, ht, hn, mapContents, renderAll]
  | tail =>
      cases hn : o.name <;>
        simp [close, Section.mapContent, Slot.appended, added, headName?, render, Section.render,
          hm, hn]

end OpenSection

namespace Layout

variable {v : Vocabulary} {separator : Text} {h t : Text → Text}

theorem writesLast_into (layout : Layout v) {o : OpenSection} (ho : o.WritesLast) :
    (layout.into separator o).WritesLast := by
  induction layout generalizing o with
  | empty => exact ho
  | plain line hp rest ih => exact ih (ho.write _)
  | block start name hs inner stop he rest _ ih => exact ih (ho.adopt _).writesLast

-- Whether the head of the open section is ended is seen from the last marker line.
theorem headName?_into (separator : Text) (layout : Layout v) {o : OpenSection} {before : List Text}
    (ho : v.headName? before = o.headName?) :
    v.headName? (before ++ layout.lines) = (layout.into separator o).headName? := by
  induction layout generalizing o before with
  | empty => rw [lines, List.append_nil, into, ho]
  | plain line hp rest ih =>
      rw [lines, List.append_cons, into]
      apply ih
      rw [Vocabulary.headName?_plain hp, OpenSection.headName?_write, ho]
  | block start name hs inner stop he rest _ ih =>
      rw [append_lines_block, into]
      apply ih
      rw [Vocabulary.headName?_end he, OpenSection.headName?_adopt]

-- What is added to the sections of a tree is put between the lines. The lines before these ones
-- tell whose head is open, and together with those behind them which lines are pairs.
theorem render_added_into (layout : Layout v) {o : OpenSection} (ho : o.WritesLast)
    {before : List Text} (hn : v.headName? before = o.headName?) (after : List Text)
    {ls : List Text} (hls : ls = before ++ layout.lines ++ after) :
    ((layout.into separator o).added h t).render separator =
      (o.added h t).render separator ++
        v.addedFrom separator h t ls before.length layout.lines := by
  induction layout generalizing o before after with
  | empty => rw [into, lines, Vocabulary.addedFrom_nil, List.append_nil]
  | plain line hp rest ih =>
      have hwritten : v.headName? (before ++ [line]) = (o.write (line ++ separator)).headName? := by
        rw [Vocabulary.headName?_plain hp, OpenSection.headName?_write, hn]
      have hrest := ih (ho.write _) hwritten after (by rw [hls, lines, List.append_cons before])
      rw [into, hrest, OpenSection.render_added_write ho, lines, Vocabulary.addedFrom_cons,
        Vocabulary.addition_plain hp, List.nil_append, List.append_assoc, List.length_append,
        List.length_singleton]
  | block start name hs inner stop he rest ihi ihr =>
      let opened := OpenSection.opened (some name) start
      let child := (inner.into separator opened).close (some stop)
      have hopened : opened.WritesLast := OpenSection.writesLast_opened _ _
      have hwhole : ls = before ++ [start] ++ inner.lines ++ [stop] ++ (rest.lines ++ after) := by
        rw [hls, append_lines_block, List.append_assoc _ rest.lines]
      have hbegin : v.headName? (before ++ [start]) = opened.headName? :=
        Vocabulary.headName?_start hs
      have hend : v.headName? (before ++ [start] ++ inner.lines ++ [stop]) =
          (o.adopt child).headName? := by
        rw [Vocabulary.headName?_end he, OpenSection.headName?_adopt]
      have hinner := ihi hopened hbegin ([stop] ++ (rest.lines ++ after))
        (by rw [hwhole, List.append_assoc _ [stop]])
      have hrest := ihr (ho.adopt child).writesLast hend after (by rw [hls, append_lines_block])
      have hchild : (child.mapContent (Slot.appended h t)).render separator = _ :=
        OpenSection.render_appended_close (inner.writesLast_into hopened) (some stop)
      have hname : (inner.into separator opened).name = some name := inner.name_into opened
      have hstarted : v.startName? start = some name := by rw [Vocabulary.startName?, hs]
      rw [into, hrest, OpenSection.render_added_adopt ho, hchild, hinner,
        OpenSection.render_added_opened, hname, lines,
        Vocabulary.addedFrom_block hwhole (Vocabulary.isStart_iff.mpr ⟨_, hs⟩) he
          inner.balanced_lines, inner.headName?_into separator hbegin, hn, hstarted]
      simp only [markerText, List.append_assoc]

-- The root has no name, so nothing is added to it.
theorem render_appended_tree (layout : Layout v) :
    ((layout.tree separator).mapContent (Slot.appended h t)).render separator =
      v.added separator h t layout.lines := by
  have hroot : OpenSection.root.WritesLast := fun _ => ⟨rfl, rfl⟩
  have hname : (layout.into separator .root).name = none := layout.name_into .root
  have hnone : (layout.into separator .root).headName? = none := by
    rw [OpenSection.headName?, hname, ite_self]
  have hstart : v.headName? [] = OpenSection.root.headName? := rfl
  have hempty : (OpenSection.root.added h t).render separator = [] := rfl
  rw [tree, OpenSection.render_appended_close (layout.writesLast_into hroot), hnone, hname,
    layout.render_added_into hroot hstart [] (List.append_nil _).symm, hempty, List.nil_append]
  simp only [Option.elim_none, markerText, List.append_nil]
  rfl

end Layout

end Sections
