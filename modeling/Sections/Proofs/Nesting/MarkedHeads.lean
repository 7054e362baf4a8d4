import Sections.Proofs.Heads
import Sections.Proofs.Nesting.Layout

namespace Sections

namespace Vocabulary

variable (v : Vocabulary)

-- The name on a start marker.
def startName? (line : Text) : Option Text :=
  match v.opening line with
  | .opens name => name
  | _ => none

-- The names on the start markers, in order.
def startNames (ls : List Text) : List Text := ls.filterMap v.startName?

-- The lines up to the next marker.
def plainRun (ls : List Text) : List Text := ls.takeWhile fun line => v.IsPlain line

-- The lines between the first start marker of a name and the next marker.
def headLines? (name : Text) : List Text → Option (List Text)
  | [] => none
  | line :: rest =>
      if v.startName? line = some name then some (v.plainRun rest) else headLines? name rest

-- Every start marker with the text between it and the next marker.
def markedHeads (separator : Text) : List Text → Table
  | [] => []
  | line :: rest =>
      match v.startName? line with
      | some name => (name, Text.unlines separator (v.plainRun rest)) :: markedHeads separator rest
      | none => markedHeads separator rest

variable {v}

theorem startName?_eq_some_iff {line name : Text} :
    v.startName? line = some name ↔ v.opening line = .opens (some name) := by
  rw [startName?]
  cases v.opening line <;> simp

theorem IsPlain.startName? {line : Text} (h : v.IsPlain line) : v.startName? line = none := by
  simp [Vocabulary.startName?, h.1]

theorem IsEnd.startName? {line : Text} (h : v.IsEnd line) : v.startName? line = none := by
  simp [Vocabulary.startName?, h.1]

theorem IsEnd.not_isPlain {line : Text} (h : v.IsEnd line) : ¬v.IsPlain line := by
  intro hp
  have := hp.2.symm.trans h.2
  contradiction

theorem not_isPlain_of_opens {line : Text} {name : Option Text} (h : v.opening line = .opens name) :
    ¬v.IsPlain line := by
  intro hp
  have := hp.1.symm.trans h
  contradiction

theorem plainRun_marker {line : Text} (h : ¬v.IsPlain line) (rest : List Text) :
    v.plainRun (line :: rest) = [] := by
  simp [plainRun, h]

theorem plainRun_plain {line : Text} (h : v.IsPlain line) (rest : List Text) :
    v.plainRun (line :: rest) = line :: v.plainRun rest := by
  simp [plainRun, h]

-- What stands behind a marker belongs to no earlier head.
theorem plainRun_append_marker (ls : List Text) {line : Text} (h : ¬v.IsPlain line)
    (rest : List Text) : v.plainRun (ls ++ line :: rest) = v.plainRun ls := by
  induction ls with
  | nil => exact plainRun_marker h rest
  | cons first ls ih =>
      by_cases hf : v.IsPlain first
      · rw [List.cons_append, plainRun_plain hf, plainRun_plain hf, ih]
      · rw [List.cons_append, plainRun_marker hf, plainRun_marker hf]

theorem markedHeads_append_end (separator : Text) (ls : List Text) {stop : Text}
    (h : v.IsEnd stop) (rest : List Text) :
    v.markedHeads separator (ls ++ stop :: rest) =
      v.markedHeads separator ls ++ v.markedHeads separator rest := by
  induction ls with
  | nil => simp [markedHeads, h.startName?]
  | cons line ls ih =>
      simp only [List.cons_append, markedHeads, ih, plainRun_append_marker ls h.not_isPlain]
      cases v.startName? line <;> rfl

theorem get?_markedHeads (separator name : Text) (ls : List Text) :
    Table.get? name (v.markedHeads separator ls) =
      (v.headLines? name ls).map (Text.unlines separator) := by
  induction ls with
  | nil => rfl
  | cons line rest ih =>
      cases hn : v.startName? line with
      | none => simp [markedHeads, headLines?, hn, ih]
      | some other =>
          by_cases ho : other = name
          · simp [markedHeads, headLines?, hn, Table.get?, ho]
          · simp [markedHeads, headLines?, hn, Table.get?, ho, ih]

theorem keys_markedHeads (separator : Text) (ls : List Text) :
    (v.markedHeads separator ls).keys = v.startNames ls := by
  induction ls with
  | nil => rfl
  | cons line rest ih =>
      rw [Table.keys, startNames] at ih ⊢
      cases hn : v.startName? line <;> simp [markedHeads, hn, ih]

end Vocabulary

namespace OpenSection

@[simp] theorem head_adopt (o : OpenSection) (child : Section) : (o.adopt child).head = o.head := by
  unfold adopt
  split <;> rfl

@[simp] theorem mode_adopt (o : OpenSection) (child : Section) : (o.adopt child).mode = .tail := by
  unfold adopt
  split
  · rename_i h
    exact h.1
  · rfl

@[simp] theorem children_write (o : OpenSection) (text : Text) :
    (o.write text).children = o.children := by
  unfold write
  split <;> rfl

@[simp] theorem mode_write (o : OpenSection) (text : Text) : (o.write text).mode = o.mode := by
  unfold write
  split <;> rfl

-- A wrapper has no name and adds nothing to the named sections.
theorem namedHeadsOf_adopt (o : OpenSection) (child : Section) :
    namedHeadsOf (o.adopt child).children = namedHeadsOf o.children ++ child.namedHeads := by
  unfold adopt
  split <;>
    simp [namedHeadsOf, Section.namedHeads, slotsOf, Section.slots, Slot.namedHead?,
      List.filterMap_cons]

end OpenSection

namespace Layout

variable {v : Vocabulary} {separator : Text}

-- The head of a section ends at the first marker.
theorem head_into (separator : Text) (layout : Layout v) (o : OpenSection) :
    (layout.into separator o).head =
      match o.mode with
      | .head => o.head ++ Text.unlines separator (v.plainRun layout.lines)
      | .tail => o.head := by
  induction layout generalizing o with
  | empty => cases hm : o.mode <;> simp [into, lines, Vocabulary.plainRun]
  | plain line hp rest ih =>
      rw [into, ih, OpenSection.mode_write, lines, Vocabulary.plainRun_plain hp]
      cases hm : o.mode <;> simp [OpenSection.write, hm]
  | block start name ho inner stop he rest _ ihr =>
      simp only [into, ihr, OpenSection.mode_adopt, OpenSection.head_adopt]
      rw [lines, Vocabulary.plainRun_marker (Vocabulary.not_isPlain_of_opens ho)]
      cases hm : o.mode <;> simp

-- The named sections of the tree are the start markers, each with the lines up to the next marker.
theorem namedHeads_into (separator : Text) (layout : Layout v) (o : OpenSection) :
    namedHeadsOf (layout.into separator o).children =
      namedHeadsOf o.children ++ v.markedHeads separator layout.lines := by
  induction layout generalizing o with
  | empty => simp [into, lines, Vocabulary.markedHeads]
  | plain line hp rest ih =>
      rw [into, ih, OpenSection.children_write]
      simp [lines, Vocabulary.markedHeads, hp.startName?]
  | block start name ho inner stop he rest ihi ihr =>
      have hstart : v.startName? start = some name := by simp [Vocabulary.startName?, ho]
      have hchildren := ihi (.opened (some name) start)
      have hhead := inner.head_into separator (.opened (some name) start)
      have hchild : ((inner.into separator (.opened (some name) start)).close (some stop)).namedHeads =
          (name, Text.unlines separator (v.plainRun inner.lines)) ::
            v.markedHeads separator inner.lines := by
        rw [Section.namedHeads, OpenSection.close, Section.slots, List.filterMap_cons]
        simp only [Slot.namedHead?, name_into, OpenSection.opened, Option.map_some]
        rw [OpenSection.opened] at hhead hchildren
        rw [hhead]
        exact congrArg (List.cons _) hchildren
      rw [into, ihr, OpenSection.namedHeadsOf_adopt, hchild, lines, List.append_assoc,
        List.cons_append]
      simp only [Vocabulary.markedHeads, hstart, Vocabulary.markedHeads_append_end _ _ he,
        Vocabulary.plainRun_append_marker _ he.not_isPlain]

-- The root has no name, so it adds nothing.
theorem namedHeads_tree (layout : Layout v) :
    (layout.tree separator).namedHeads = v.markedHeads separator layout.lines := by
  have h := layout.namedHeads_into separator .root
  rw [tree, Section.namedHeads, OpenSection.close, Section.slots, List.filterMap_cons, name_into]
  exact h

-- Of sections with one name the first start marker counts.
theorem get?_heads_tree (layout : Layout v) (name : Text) :
    ((layout.tree separator).heads []).get? name =
      (v.headLines? name layout.lines).map (Text.unlines separator) := by
  rw [Section.heads_eq_putAllNew, Table.get?_putAllNew, namedHeads_tree,
    Vocabulary.get?_markedHeads]
  rfl

theorem mem_keys_heads_tree (layout : Layout v) (name : Text) :
    name ∈ ((layout.tree separator).heads []).keys ↔ name ∈ v.startNames layout.lines := by
  rw [← Table.isSome_get?, Section.heads_eq_putAllNew, Table.get?_putAllNew, namedHeads_tree,
    ← Vocabulary.keys_markedHeads separator, ← Table.isSome_get?]
  rfl

end Layout

end Sections
