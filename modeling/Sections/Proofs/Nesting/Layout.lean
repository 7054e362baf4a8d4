import Sections.Proofs.Nesting.Render

namespace Sections

namespace Vocabulary

def IsPlain (v : Vocabulary) (line : Text) : Prop :=
  v.opening line = .none ∧ v.closes line = false

def IsEnd (v : Vocabulary) (line : Text) : Prop :=
  v.opening line = .none ∧ v.closes line = true

instance (v : Vocabulary) (line : Text) : Decidable (v.IsPlain line) :=
  inferInstanceAs (Decidable (_ ∧ _))

instance (v : Vocabulary) (line : Text) : Decidable (v.IsEnd line) :=
  inferInstanceAs (Decidable (_ ∧ _))

-- Every section has a name.
def Named (v : Vocabulary) : Prop := ∀ line, v.opening line ≠ .opens none

theorem standard_named : standard.Named := by
  intro line
  simp only [standard, Marker.opening]
  split
  · simp
  · split <;> simp

-- All that a line can be where every section has a name.
inductive Kind (v : Vocabulary) (line : Text) : Prop where
  | malformed (h : v.opening line = .malformed)
  | start (name : Text) (h : v.opening line = .opens (some name))
  | plain (h : v.IsPlain line)
  | stop (h : v.IsEnd line)

theorem Named.kind {v : Vocabulary} (hv : v.Named) (line : Text) : v.Kind line := by
  cases ho : v.opening line with
  | malformed => exact .malformed ho
  | opens opened =>
      cases opened with
      | none => exact absurd ho (hv line)
      | some name => exact .start name ho
  | none =>
      cases hc : v.closes line with
      | false => exact .plain ⟨ho, hc⟩
      | true => exact .stop ⟨ho, hc⟩

end Vocabulary

-- Lines whose markers nest: plain lines, and sections between their marker lines.
inductive Layout (v : Vocabulary) where
  | empty
  | plain (line : Text) (isPlain : v.IsPlain line) (rest : Layout v)
  | block (start name : Text) (opens : v.opening start = .opens (some name)) (inner : Layout v)
      (stop : Text) (isEnd : v.IsEnd stop) (rest : Layout v)

namespace Layout

variable {v : Vocabulary}

def lines : Layout v → List Text
  | .empty => []
  | .plain line _ rest => line :: rest.lines
  | .block start _ _ inner stop _ rest => start :: (inner.lines ++ stop :: rest.lines)

def append : Layout v → Layout v → Layout v
  | .empty, other => other
  | .plain line h rest, other => .plain line h (rest.append other)
  | .block start name ho inner stop he rest, other =>
      .block start name ho inner stop he (rest.append other)

@[simp] theorem lines_append (first second : Layout v) :
    (first.append second).lines = first.lines ++ second.lines := by
  induction first with
  | empty => rfl
  | plain line h rest ih => simp [append, lines, ih]
  | block start name ho inner stop he rest _ ih => simp [append, lines, ih]

end Layout

-- A closed child with the text that precedes it, which moves into a wrapper around the child.
def OpenSection.adopt (o : OpenSection) (child : Section) : OpenSection :=
  if o.mode = .tail ∧ o.tail ≠ [] then
    { o with tail := [], children := o.children ++ [⟨none, none, o.tail, [child], [], none⟩] }
  else { o with mode := .tail, children := o.children ++ [child] }

-- The open section after lines that nest.
def Layout.into {v : Vocabulary} (separator : Text) : Layout v → OpenSection → OpenSection
  | .empty, o => o
  | .plain line _ rest, o => rest.into separator (o.write (line ++ separator))
  | .block start name _ inner stop _ rest, o =>
      let child := (inner.into separator (.opened (some name) start)).close (some stop)
      rest.into separator (o.adopt child)

def Layout.tree {v : Vocabulary} (separator : Text) (layout : Layout v) : Section :=
  (layout.into separator .root).close none

namespace OpenSection

@[simp] theorem name_write (o : OpenSection) (text : Text) : (o.write text).name = o.name := by
  unfold write
  split <;> rfl

@[simp] theorem name_adopt (o : OpenSection) (child : Section) : (o.adopt child).name = o.name := by
  unfold adopt
  split <;> rfl

@[simp] theorem startLine_write (o : OpenSection) (text : Text) :
    (o.write text).startLine = o.startLine := by
  unfold write
  split <;> rfl

@[simp] theorem startLine_adopt (o : OpenSection) (child : Section) :
    (o.adopt child).startLine = o.startLine := by
  unfold adopt
  split <;> rfl

theorem WritesLast.adopt {o : OpenSection} (h : o.WritesLast) (child : Section) :
    (o.adopt child).TakesChild := by
  unfold OpenSection.adopt
  split
  · rename_i ht
    exact ⟨ht.1, rfl⟩
  · rename_i ht
    exact ⟨rfl, h.tail_eq_nil ht⟩

end OpenSection

namespace Layout

variable {v : Vocabulary} {separator : Text}

@[simp] theorem name_into (layout : Layout v) (o : OpenSection) :
    (layout.into separator o).name = o.name := by
  induction layout generalizing o with
  | empty => rfl
  | plain line h rest ih => simp [into, ih]
  | block start name ho inner stop he rest _ ih => simp [into, ih]

@[simp] theorem startLine_into (layout : Layout v) (o : OpenSection) :
    (layout.into separator o).startLine = o.startLine := by
  induction layout generalizing o with
  | empty => rfl
  | plain line h rest ih => simp [into, ih]
  | block start name ho inner stop he rest _ ih => simp [into, ih]

theorem into_append (first second : Layout v) (o : OpenSection) :
    (first.append second).into separator o = second.into separator (first.into separator o) := by
  induction first generalizing o with
  | empty => rfl
  | plain line h rest ih => exact ih _
  | block start name ho inner stop he rest _ ih => exact ih _

end Layout

namespace OpenStack

variable {v : Vocabulary} {separator : Text}

-- The section that a start marker opened is closed into the section that was open before. Only
-- the root may be nameless there, since any other nameless section would be closed as well.
theorem pop_push {o : OpenSection} {below : List OpenSection} (h : o.name ≠ none ∨ below = [])
    (name : Option Text) (start : Text) (top : OpenSection) (stop : Text) :
    (OpenStack.mk top ((OpenStack.mk o below).push name start).below).pop? stop =
      some ⟨o.adopt (top.close (some stop)), below⟩ := by
  unfold push OpenSection.adopt
  simp only
  split
  · simp [pop?, endWrapper, OpenSection.wrapper, OpenSection.attach, OpenSection.close]
  · simp only [pop?, endWrapper, OpenSection.attach]
    split
    · rename_i hn
      rcases h with h | h
      · exact absurd hn h
      · contradiction
    · rfl

-- Lines that nest only change the innermost open section.
theorem consumeAll_layout (separator : Text) (layout : Layout v) (n : Nat) (more : List Text) (o : OpenSection)
    (below : List OpenSection) (h : o.name ≠ none ∨ below = []) :
    consumeAll v separator n (layout.lines ++ more) ⟨o, below⟩ =
      consumeAll v separator (n + layout.lines.length) more ⟨layout.into separator o, below⟩ := by
  induction layout generalizing n more o below with
  | empty => rfl
  | plain line hp rest ih =>
      have hstep : consume v separator n line ⟨o, below⟩ =
          .ok ⟨o.write (line ++ separator), below⟩ := by
        simp [consume, hp.1, hp.2, write]
      simp only [Layout.lines, List.cons_append, consumeAll, hstep, Layout.into, List.length_cons]
      rw [ih _ _ _ _ (by simpa using h), Nat.add_assoc, Nat.add_comm 1]
  | block start name ho inner stop he rest ihi ihr =>
      have hopen : consume v separator n start ⟨o, below⟩ =
          .ok ((OpenStack.mk o below).push (some name) start) := by
        simp [consume, ho]
      have htop : ((OpenStack.mk o below).push (some name) start).top = .opened (some name) start := by
        unfold push
        split <;> rfl
      have hinner := ihi (n + 1) (stop :: (rest.lines ++ more)) (.opened (some name) start)
        ((OpenStack.mk o below).push (some name) start).below (Or.inl (by simp [OpenSection.opened]))
      have hclose : consume v separator (n + 1 + inner.lines.length) stop
          ⟨inner.into separator (.opened (some name) start),
            ((OpenStack.mk o below).push (some name) start).below⟩ =
          .ok ⟨o.adopt ((inner.into separator (.opened (some name) start)).close (some stop)),
            below⟩ := by
        simp [consume, he.1, he.2, pop_push h]
      rw [← htop] at hinner
      simp only [Layout.lines, List.cons_append, List.append_assoc, consumeAll, hopen, Layout.into]
      rw [hinner, consumeAll, htop, hclose]
      simp only
      rw [ihr _ _ _ _ (by simpa using h)]
      simp only [List.length_cons, List.length_append]
      congr 1
      omega

end OpenStack

end Sections
