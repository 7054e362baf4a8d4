import Sections.Edit.Hook
import Sections.Proofs.Contents
import Sections.Proofs.Nesting.MarkedHeads

namespace Sections

-- The lines with new heads, in one pass: behind the start marker of a name that has a new head,
-- the plain lines up to the next marker give way to it. The flag says that they do.
def Vocabulary.rewriteHeads (v : Vocabulary) (separator : Text) (heads : Text → Option Text) :
    Bool → List Text → Text
  | _, [] => []
  | drops, line :: rest =>
      if v.IsPlain line then
        (if drops then [] else line ++ separator) ++ rewriteHeads v separator heads drops rest
      else
        match (v.startName? line).bind heads with
        | some head => line ++ separator ++ head ++ rewriteHeads v separator heads true rest
        | none => line ++ separator ++ rewriteHeads v separator heads false rest

-- The new head of a section, if its name has one.
def Slot.newHead (heads : Text → Option Text) (slot : Slot) : Content :=
  { slot.content with head := (slot.name.bind heads).getD slot.content.head }

namespace Vocabulary

variable {v : Vocabulary} {separator : Text} {heads : Text → Option Text}

theorem rewriteHeads_plain {line : Text} (h : v.IsPlain line) (drops : Bool) (rest : List Text) :
    v.rewriteHeads separator heads drops (line :: rest) =
      (if drops then [] else line ++ separator) ++ v.rewriteHeads separator heads drops rest := by
  rw [rewriteHeads, if_pos h]

theorem rewriteHeads_start {line name : Text} (h : v.opening line = .opens (some name))
    (drops : Bool) (rest : List Text) :
    v.rewriteHeads separator heads drops (line :: rest) =
      line ++ separator ++ (heads name).getD [] ++
        v.rewriteHeads separator heads (heads name).isSome rest := by
  have hn : v.startName? line = some name := by simp [startName?, h]
  rw [rewriteHeads, if_neg (not_isPlain_of_opens h), hn]
  cases hh : heads name <;> simp [hh]

theorem rewriteHeads_stop {line : Text} (h : v.IsEnd line) (drops : Bool) (rest : List Text) :
    v.rewriteHeads separator heads drops (line :: rest) =
      line ++ separator ++ v.rewriteHeads separator heads false rest := by
  rw [rewriteHeads, if_neg h.not_isPlain, h.startName?]
  rfl

-- An end marker cuts the lines in two parts that do not depend on each other.
theorem rewriteHeads_append_stop (drops : Bool) (ls : List Text) {stop : Text} (h : v.IsEnd stop)
    (rest : List Text) :
    v.rewriteHeads separator heads drops (ls ++ stop :: rest) =
      v.rewriteHeads separator heads drops ls ++ (stop ++ separator) ++
        v.rewriteHeads separator heads false rest := by
  induction ls generalizing drops with
  | nil => exact rewriteHeads_stop h drops rest
  | cons line ls ih =>
      simp only [List.cons_append, rewriteHeads, ih]
      by_cases hp : v.IsPlain line
      · simp [hp]
      · rw [if_neg hp, if_neg hp]
        cases (v.startName? line).bind heads <;> simp

-- The first line is not dropped.
theorem rewriteHeads_ne_nil (hs : separator ≠ []) {ls : List Text} (hls : ls ≠ []) :
    v.rewriteHeads separator heads false ls ≠ [] := by
  cases ls with
  | nil => exact absurd rfl hls
  | cons line rest =>
      rw [rewriteHeads]
      split
      · simp [hs]
      · cases (v.startName? line).bind heads <;> simp [hs]

end Vocabulary

namespace OpenSection

variable {separator : Text} {heads : Text → Option Text}

def newHeads (heads : Text → Option Text) (o : OpenSection) : OpenSection :=
  { o with
    head := (o.name.bind heads).getD o.head
    children := mapContents (Slot.newHead heads) o.children }

-- What is written next belongs to a head that gives way to a new one.
def drops (heads : Text → Option Text) (o : OpenSection) : Bool :=
  o.mode = .head && (o.name.bind heads).isSome

theorem newHeads_close (o : OpenSection) (endLine : Option Text) :
    (o.close endLine).mapContent (Slot.newHead heads) = (o.newHeads heads).close endLine := rfl

@[simp] theorem drops_write (o : OpenSection) (text : Text) :
    (o.write text).drops heads = o.drops heads := by
  simp [drops]

@[simp] theorem drops_adopt (o : OpenSection) (child : Section) :
    (o.adopt child).drops heads = false := by
  simp [drops]

theorem render_newHeads_write {o : OpenSection} (h : o.WritesLast) (text : Text) :
    ((o.write text).newHeads heads).render separator =
      (o.newHeads heads).render separator ++ if o.drops heads then [] else text := by
  cases hm : o.mode with
  | head =>
      obtain ⟨hc, ht⟩ := h hm
      cases hn : o.name.bind heads <;>
        simp [write, newHeads, drops, render, hm, hc, ht, hn, mapContents, renderAll]
  | tail => simp [write, newHeads, drops, render, hm]

-- A wrapper keeps its text, since it has no name.
theorem render_newHeads_adopt {o : OpenSection} (h : o.WritesLast) (child : Section) :
    ((o.adopt child).newHeads heads).render separator =
      (o.newHeads heads).render separator ++
        (child.mapContent (Slot.newHead heads)).render separator := by
  unfold adopt
  split
  · simp [newHeads, render, mapContents, Section.mapContent, Slot.newHead, renderAll,
      Section.render, markerText]
  · rename_i ht
    simp [newHeads, render, mapContents, renderAll, h.tail_eq_nil ht]

end OpenSection

namespace Layout

variable {v : Vocabulary} {separator : Text} {heads : Text → Option Text}

-- New heads in the tree are new heads in the lines. What is already read is rendered first, and
-- the flag starts with whether the open head is dropped.
theorem render_newHeads_into (layout : Layout v) {o : OpenSection} (h : o.WritesLast) :
    ((layout.into separator o).newHeads heads).render separator =
      (o.newHeads heads).render separator ++
        v.rewriteHeads separator heads (o.drops heads) layout.lines := by
  induction layout generalizing o with
  | empty => simp [into, lines, Vocabulary.rewriteHeads]
  | plain line hp rest ih =>
      rw [into, ih (h.write _), OpenSection.render_newHeads_write h, OpenSection.drops_write, lines,
        Vocabulary.rewriteHeads_plain hp, List.append_assoc]
  | block start name ho inner stop he rest ihi ihr =>
      have hinner := ihi (o := .opened (some name) start) (fun _ => ⟨rfl, rfl⟩)
      have hopened : ((OpenSection.opened (some name) start).newHeads heads).render separator =
          start ++ separator ++ (heads name).getD [] := by
        simp [OpenSection.opened, OpenSection.newHeads, OpenSection.render, markerText, mapContents,
          renderAll]
      have hdrops : (OpenSection.opened (some name) start).drops heads = (heads name).isSome := by
        simp [OpenSection.opened, OpenSection.drops]
      rw [hopened, hdrops] at hinner
      rw [into, ihr (h.adopt _).writesLast, OpenSection.render_newHeads_adopt h,
        OpenSection.newHeads_close, OpenSection.render_close_some, hinner, OpenSection.drops_adopt,
        lines, Vocabulary.rewriteHeads_start ho, Vocabulary.rewriteHeads_append_stop _ _ he]
      simp only [List.append_assoc]

theorem render_newHeads_tree (layout : Layout v) :
    ((layout.tree separator).mapContent (Slot.newHead heads)).render separator =
      v.rewriteHeads separator heads false layout.lines := by
  rw [tree, OpenSection.newHeads_close, OpenSection.render_close_none,
    layout.render_newHeads_into (o := .root) fun _ => ⟨rfl, rfl⟩]
  rfl

end Layout

end Sections
