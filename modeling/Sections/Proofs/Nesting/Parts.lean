import Sections.Proofs.Nesting.TreeShape

namespace Sections

-- The part of a tree at a place. The numbers say which child to go to, from the root down.
def Section.part? : Section → List Nat → Option Section
  | s, [] => some s
  | s, i :: place => s.children[i]?.bind (part? · place)

-- A section that only keeps the text before its one child in place.
structure Section.IsWrapper (s : Section) : Prop where
  name : s.name = none
  startLine : s.startLine = none
  endLine : s.endLine = none
  head : s.head ≠ []
  tail : s.tail = []
  children : ∃ child name, s.children = [child] ∧ child.name = some name

-- A section between a line that names it and a line that ends it and starts nothing.
structure Section.IsMarked (s : Section) (name : Text) : Prop where
  named : s.name = some name
  startLine : ∃ start, s.startLine = some start ∧ Marker.opening start = .opens (some name)
  endLine : ∃ stop, s.endLine = some stop ∧ Text.contains stop Marker.endMark = true ∧
    Text.contains stop Marker.startMark = false

-- All that can stand below the root.
inductive Section.Placed (s : Section) : Prop where
  | marked (name : Text) (h : s.IsMarked name) (hempty : s.children = [] → s.tail = [])
  | wrapper (h : s.IsWrapper)

theorem Vocabulary.IsEnd.marks {line : Text} (h : Vocabulary.standard.IsEnd line) :
    Text.contains line Marker.endMark = true ∧ Text.contains line Marker.startMark = false := by
  have ho : Marker.opening line = .none := h.1
  refine ⟨h.2, ?_⟩
  unfold Marker.opening at ho
  unfold Text.contains
  cases ha : Text.after? Marker.startMark line with
  | none => rfl
  | some rest =>
      simp only [ha] at ho
      split at ho <;> contradiction

namespace Section

variable {s : Section}

-- A part below the root is a child of another part.
theorem part?_concat (s : Section) (place : List Nat) (i : Nat) :
    s.part? (place ++ [i]) = (s.part? place).bind fun parent => parent.children[i]? := by
  induction place generalizing s with
  | nil => simp [part?]
  | cons j place ih => cases hc : s.children[j]? <;> simp [part?, hc, ih]

theorem exists_parent {part : Section} {place : List Nat} {i : Nat}
    (h : s.part? (place ++ [i]) = some part) :
    ∃ parent, s.part? place = some parent ∧ parent.children[i]? = some part :=
  Option.bind_eq_some_iff.mp (part?_concat s place i ▸ h)

theorem Placed.tail_eq_nil (h : s.Placed) (hc : s.children = []) : s.tail = [] := by
  cases h with
  | marked name h hempty => exact hempty hc
  | wrapper h => exact h.tail

theorem Placed.isMarked {name : Text} (h : s.Placed) (hn : s.name = some name) :
    s.IsMarked name := by
  cases h with
  | marked other h _ =>
      obtain rfl : other = name := Option.some.inj (h.named.symm.trans hn)
      exact h
  | wrapper h =>
      rw [h.name] at hn
      contradiction

theorem Placed.isWrapper (h : s.Placed) (hn : s.name = none) : s.IsWrapper := by
  cases h with
  | marked name h _ =>
      rw [h.named] at hn
      contradiction
  | wrapper h => exact h

end Section

namespace Siblings

variable {separator : Text} {first : Bool} {child : Section} {children others : List Section}

-- Nothing stands before a first child that a wrapper could keep.
theorem first_named (h : Siblings separator true (child :: others)) :
    ∃ name, child.name = some name := by
  cases h
  exact ⟨_, rfl⟩

theorem only (h : Siblings separator true (child :: others)) : Siblings separator true [child] := by
  cases h with
  | named _ hstart ho hstop he hh ht hempty hc _ =>
      exact .named true hstart ho hstop he hh ht hempty hc (.nil false)

theorem placed (h : Siblings separator first children) {i : Nat} (hi : children[i]? = some child) :
    child.Placed ∧ Siblings separator true child.children := by
  induction h generalizing i with
  | nil first => simp at hi
  | @named first name start head tail stop children others hstart hopens hstop hend hh ht hempty
      hc _ _ ihr =>
      cases i with
      | zero =>
          obtain rfl := Option.some.inj hi
          exact ⟨.marked name ⟨rfl, ⟨start, rfl, hopens⟩, ⟨stop, rfl, hend.marks⟩⟩ hempty, hc⟩
      | succ i => exact ihr hi
  | @wrapped text inner others hne hp h ih =>
      cases i with
      | zero =>
          obtain ⟨name, hname⟩ := h.first_named
          obtain rfl := Option.some.inj hi
          exact ⟨.wrapper ⟨rfl, rfl, rfl, hne, rfl, inner, name, rfl, hname⟩, h.only⟩
      | succ i => exact @ih (i + 1) hi

end Siblings

namespace Section

variable {separator : Text} {s part : Section}

-- The children of every part are placed like those of the root.
theorem siblings_part? (h : Siblings separator true s.children) {place : List Nat}
    (hp : s.part? place = some part) : Siblings separator true part.children := by
  induction place generalizing s with
  | nil => exact Option.some.inj hp ▸ h
  | cons i place ih =>
      obtain ⟨child, hi, hrest⟩ := Option.bind_eq_some_iff.mp hp
      exact ih (h.placed hi).2 hrest

theorem placed_part? (h : Siblings separator true s.children) {place : List Nat} {i : Nat}
    (hp : s.part? (place ++ [i]) = some part) : part.Placed := by
  obtain ⟨parent, hparent, hi⟩ := exists_parent hp
  exact ((siblings_part? h hparent).placed hi).1

-- A wrapper is a later child of the root or of a named section.
theorem wrapper_part? (h : Siblings separator true s.children) {place : List Nat} {i : Nat}
    (hp : s.part? (place ++ [i]) = some part) (hn : part.name = none) :
    i ≠ 0 ∧ ∃ parent, s.part? place = some parent ∧ (place = [] ∨ parent.name ≠ none) := by
  obtain ⟨parent, hparent, hi⟩ := exists_parent hp
  have hs := siblings_part? h hparent
  constructor
  · rintro rfl
    cases hc : parent.children with
    | nil => simp [hc] at hi
    | cons first others =>
        obtain ⟨name, hname⟩ := (hc ▸ hs).first_named
        rw [hc] at hi
        obtain rfl := Option.some.inj hi
        rw [hname] at hn
        contradiction
  · refine ⟨parent, hparent, ?_⟩
    rcases List.eq_nil_or_concat' place with rfl | ⟨outer, j, rfl⟩
    · exact Or.inl rfl
    · -- The only child of a wrapper has a name.
      refine Or.inr fun hnone => ?_
      obtain ⟨child, name, hc, hname⟩ := ((placed_part? h hparent).isWrapper hnone).children
      have hchild : part = child := by
        rw [hc] at hi
        exact List.mem_singleton.mp (List.mem_of_getElem? hi)
      rw [hchild, hname] at hn
      contradiction

end Section

-- What stands where in the tree of a text: below the root only sections between their marker lines
-- and wrappers, and no wrapper in a wrapper or before all other children.
theorem Options.readTree_parts (options : Options) {text : Text} {root : Section}
    (h : options.readTree text = .ok root) :
    (root.name = none ∧ root.startLine = none ∧ root.endLine = none) ∧
      ∀ place part, root.part? place = some part →
        (part.children = [] → part.tail = []) ∧
        (∀ name, part.name = some name → part.IsMarked name) ∧
        (part.name = none → place ≠ [] → part.IsWrapper ∧
          ∃ outer i parent, place = outer ++ [i] ∧ i ≠ 0 ∧ root.part? outer = some parent ∧
            (outer = [] ∨ parent.name ≠ none)) := by
  cases Section.wellFormed_of_parse (readTree_eq_ok_iff.mp h) with
  | root hh ht hempty hc =>
      refine ⟨⟨rfl, rfl, rfl⟩, fun place part hp => ?_⟩
      rcases List.eq_nil_or_concat' place with rfl | ⟨outer, i, rfl⟩
      · obtain rfl := Option.some.inj hp
        exact ⟨hempty, nofun, fun _ hne => absurd rfl hne⟩
      · have hplaced := Section.placed_part? hc hp
        refine ⟨hplaced.tail_eq_nil, fun name => hplaced.isMarked, fun hn _ => ?_⟩
        obtain ⟨hlater, parent, hparent, hnamed⟩ := Section.wrapper_part? hc hp hn
        exact ⟨hplaced.isWrapper hn, outer, i, parent, rfl, hlater, hparent, hnamed⟩

-- Without a separator the lines around an empty one are kept as one text.
def gluedText : Text :=
  ("SECTION-START[a]\nSECTION-START[]\nSECTION-END\nx\n\ny\n" ++
    "SECTION-START[]\nSECTION-END\nSECTION-END").units

def gluedTree : Section :=
  let inner : Section :=
    ⟨some [], some "SECTION-START[]".units, [], [], [], some "SECTION-END".units⟩
  let wrapper : Section := ⟨none, none, "xy".units, [inner], [], none⟩
  ⟨none, none, [], [⟨some ['a'.unit], some "SECTION-START[a]".units, [], [inner, wrapper], [],
    some "SECTION-END".units⟩], [], none⟩

theorem Options.readTree_parts_glued :
    Options.readTree ⟨[], .concurrent .unbounded⟩ gluedText = .ok gluedTree ∧
      ∃ wrapper, gluedTree.part? [0, 1] = some wrapper ∧ wrapper.IsWrapper := by
  have h : Options.readTree ⟨[], .concurrent .unbounded⟩ gluedText = .ok gluedTree :=
    readTree_of_parse_ok rfl
  obtain ⟨-, hparts⟩ := readTree_parts ⟨[], .concurrent .unbounded⟩ h
  exact ⟨h, _, rfl, ((hparts [0, 1] _ rfl).2.2 rfl (by decide)).1⟩

end Sections
