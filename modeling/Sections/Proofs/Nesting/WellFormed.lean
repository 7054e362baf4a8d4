import Sections.Proofs.Edit.SectionEditor
import Sections.Proofs.Nesting.Reads

namespace Sections

-- Lines without markers, each followed by the separator.
def PlainText (separator text : Text) : Prop :=
  ∃ ls, (∀ line ∈ ls, Text.Unbroken line ∧ Vocabulary.standard.IsPlain line) ∧
    text = Text.unlines separator ls

-- The children of one section from some child on. A child is a section with its marker lines. Where
-- a section before it leaves room for text, it may stand alone in a wrapper with that text.
inductive Siblings (separator : Text) : Bool → List Section → Prop where
  | nil (first : Bool) : Siblings separator first []
  | named (first : Bool) {name start head tail stop : Text} {children others : List Section}
      (hstart : Text.Unbroken start) (ho : Marker.opening start = .opens (some name))
      (hstop : Text.Unbroken stop) (he : Vocabulary.standard.IsEnd stop)
      (hh : PlainText separator head) (ht : PlainText separator tail)
      (hempty : children = [] → tail = []) (hc : Siblings separator true children)
      (hr : Siblings separator false others) :
      Siblings separator first (⟨some name, some start, head, children, tail, some stop⟩ :: others)
  | wrapped {text : Text} {child : Section} {others : List Section} (hne : text ≠ [])
      (hp : PlainText separator text) (h : Siblings separator true (child :: others)) :
      Siblings separator false (⟨none, none, text, [child], [], none⟩ :: others)

-- A tree whose parts all stand where reading puts them.
inductive Section.WellFormed (separator : Text) : Section → Prop where
  | root {head tail : Text} {children : List Section} (hh : PlainText separator head)
      (ht : PlainText separator tail) (hempty : children = [] → tail = [])
      (hc : Siblings separator true children) :
      WellFormed separator ⟨none, none, head, children, tail, none⟩

namespace OpenSection

-- Children of which only the first may follow text.
def adoptAll (o : OpenSection) : List Section → OpenSection
  | [] => o
  | child :: others => { o.adopt child with children := (o.adopt child).children ++ others }

theorem adopt_of_takesChild {o : OpenSection} (h : o.TakesChild) (child : Section) :
    o.adopt child = { o with children := o.children ++ [child] } := by
  rw [adopt, if_neg (by simp [h.2]), ← h.1]

theorem adoptAll_of_takesChild {o : OpenSection} (h : o.TakesChild) (children : List Section) :
    o.adoptAll children = { o with children := o.children ++ children } := by
  cases children with
  | nil => simp [adoptAll]
  | cons child others => simp [adoptAll, adopt_of_takesChild h]

theorem write_nil (o : OpenSection) : o.write [] = o := by
  unfold write
  split <;> simp

theorem write_append (o : OpenSection) (first second : Text) :
    o.write (first ++ second) = (o.write first).write second := by
  obtain ⟨name, startLine, mode, head, children, tail⟩ := o
  cases mode <;> simp [write]

-- A section that is filled in the order in which it is written holds what was put in.
theorem close_filled (name startLine : Option Text) (head : Text) (children : List Section)
    (tail : Text) (endLine : Option Text) (hempty : children = [] → tail = []) :
    ((((OpenSection.mk name startLine .head [] [] []).write head).adoptAll children).write
      tail).close endLine = ⟨name, startLine, head, children, tail, endLine⟩ := by
  cases children with
  | nil => simp [hempty rfl, adoptAll, write, close]
  | cons child others => simp [adoptAll, adopt, write, close]

end OpenSection

namespace Layout

variable {v : Vocabulary} {separator : Text}

theorem exists_plain (separator : Text) (ls : List Text) (h : ∀ line ∈ ls, v.IsPlain line) :
    ∃ layout : Layout v, layout.lines = ls ∧
      ∀ o, layout.into separator o = o.write (Text.unlines separator ls) := by
  induction ls with
  | nil => exact ⟨.empty, rfl, fun o => (o.write_nil).symm⟩
  | cons line ls ih =>
      obtain ⟨layout, hl, hi⟩ := ih fun other ho => h other (List.mem_cons_of_mem line ho)
      refine ⟨.plain line (h line (by simp)) layout, by simp [lines, hl], fun o => ?_⟩
      rw [into, hi, Text.unlines_cons, ← OpenSection.write_append]

end Layout

section Body

variable {separator : Text}

-- The lines between the markers of one section, when those of its children are known.
theorem exists_body {head tail : Text} {children : List Section} {inner : Layout .standard}
    (hh : PlainText separator head) (ht : PlainText separator tail)
    (hempty : children = [] → tail = []) (hunbroken : ∀ line ∈ inner.lines, Text.Unbroken line)
    (hrender : Text.unlines separator inner.lines = renderAll separator children)
    (hinto : ∀ o : OpenSection, o.WritesLast → inner.into separator o = o.adoptAll children) :
    ∃ body : Layout .standard, (∀ line ∈ body.lines, Text.Unbroken line) ∧
      Text.unlines separator body.lines = head ++ renderAll separator children ++ tail ∧
      ∀ name startLine endLine,
        (body.into separator ⟨name, startLine, .head, [], [], []⟩).close endLine =
          ⟨name, startLine, head, children, tail, endLine⟩ := by
  obtain ⟨headLines, hhl, rfl⟩ := hh
  obtain ⟨tailLines, htl, rfl⟩ := ht
  obtain ⟨before, hbefore, hbi⟩ := Layout.exists_plain separator headLines fun l hl => (hhl l hl).2
  obtain ⟨after, hafter, hai⟩ := Layout.exists_plain separator tailLines fun l hl => (htl l hl).2
  refine ⟨before.append (inner.append after), fun line hl => ?_, ?_, fun name startLine endLine => ?_⟩
  · simp only [Layout.lines_append, hbefore, hafter, List.mem_append] at hl
    rcases hl with hl | hl | hl
    · exact (hhl line hl).1
    · exact hunbroken line hl
    · exact (htl line hl).1
  · simp [hbefore, hafter, hrender]
  · have hw : (OpenSection.mk name startLine .head [] [] []).WritesLast := fun _ => ⟨rfl, rfl⟩
    rw [Layout.into_append, Layout.into_append, hbi, hai, hinto _ (hw.write _),
      OpenSection.close_filled _ _ _ _ _ _ hempty]

theorem Siblings.exists_layout {first : Bool} {children : List Section}
    (h : Siblings separator first children) :
    ∃ layout : Layout .standard, (∀ line ∈ layout.lines, Text.Unbroken line) ∧
      Text.unlines separator layout.lines = renderAll separator children ∧
      ∀ o : OpenSection, o.WritesLast → first = true ∨ o.TakesChild →
        layout.into separator o = o.adoptAll children := by
  induction h with
  | nil first => exact ⟨.empty, fun _ hl => absurd hl List.not_mem_nil, rfl, fun _ _ _ => rfl⟩
  | @named first name start head tail stop children others hstart ho hstop he hh ht hempty _ _
      ihc ihr =>
      obtain ⟨inner, hiu, hir, hii⟩ := ihc
      obtain ⟨rest, hru, hrr, hri⟩ := ihr
      obtain ⟨body, hbu, hbr, hbi⟩ := exists_body hh ht hempty hiu hir
        fun o hw => hii o hw (Or.inl rfl)
      refine ⟨.block start name ho body stop he rest, fun line hl => ?_, ?_, fun o hw _ => ?_⟩
      · simp only [Layout.lines, List.mem_cons, List.mem_append] at hl
        rcases hl with rfl | hl | rfl | hl
        · exact hstart
        · exact hbu line hl
        · exact hstop
        · exact hru line hl
      · simp [Layout.lines, hbr, hrr, renderAll, Section.render, markerText]
      · have hchild := hbi (some name) (some start) (some stop)
        have htakes := hw.adopt ⟨some name, some start, head, children, tail, some stop⟩
        have hrest := hri _ htakes.writesLast (Or.inr htakes)
        simp only [Layout.into, OpenSection.opened, hchild, hrest]
        exact OpenSection.adoptAll_of_takesChild htakes others
  | @wrapped text child others hne hp _ ih =>
      obtain ⟨textLines, htl, rfl⟩ := hp
      obtain ⟨before, hbefore, hbi⟩ := Layout.exists_plain separator textLines
        fun l hl => (htl l hl).2
      obtain ⟨layout, hu, hr, hi⟩ := ih
      refine ⟨before.append layout, fun line hl => ?_, ?_, fun o hw hfirst => ?_⟩
      · rw [Layout.lines_append, hbefore] at hl
        exact (List.mem_append.mp hl).elim (fun hl => (htl line hl).1) (hu line)
      · simp [hbefore, hr, renderAll, Section.render, markerText]
      · have htakes := hfirst.resolve_left Bool.false_ne_true
        rw [Layout.into_append, hbi, hi _ (hw.write _) (Or.inl rfl),
          OpenSection.adoptAll_of_takesChild htakes]
        have hwrite : o.write (Text.unlines separator textLines) =
            { o with tail := Text.unlines separator textLines } := by
          simp [OpenSection.write, htakes.1, htakes.2]
        simp [OpenSection.adoptAll, OpenSection.adopt, hwrite, htakes.1, htakes.2, hne]

-- The lines of a well-formed tree nest, and reading them gives the tree.
theorem Section.WellFormed.exists_layout {tree : Section} (h : tree.WellFormed separator) :
    ∃ layout : Layout .standard, (∀ line ∈ layout.lines, Text.Unbroken line) ∧
      Text.unlines separator layout.lines = tree.render separator ∧
      layout.tree separator = tree := by
  cases h with
  | root hh ht hempty hc =>
      obtain ⟨inner, hiu, hir, hii⟩ := hc.exists_layout
      obtain ⟨body, hbu, hbr, hbi⟩ := exists_body hh ht hempty hiu hir
        fun o hw => hii o hw (Or.inl rfl)
      exact ⟨body, hbu, by simp [hbr, Section.render, markerText], hbi none none none⟩

end Body

-- Reading undoes rendering.
theorem Options.readTree_render (options : Options) (hs : Text.IsTerminator options.separator)
    (tree : Section) (hw : tree.WellFormed options.separator)
    (hne : tree.render options.separator ≠ []) :
    options.readTree (tree.render options.separator) = .ok tree := by
  obtain ⟨layout, hunbroken, hrender, htree⟩ := hw.exists_layout
  have hlines : Text.lines (tree.render options.separator) = layout.lines := by
    rw [← hrender]
    apply Text.lines_unlines hs _ hunbroken
    rintro hnil
    rw [hnil] at hrender
    exact hne hrender.symm
  have hparse : Section.parse .standard options.separator (tree.render options.separator) =
      .ok tree := by
    rw [Section.parse, Section.ofLines_eq_ok_iff Vocabulary.standard_named]
    exact ⟨layout, hlines.symm, htree⟩
  exact options.readTree_of_parse_ok hparse

-- A section with text around its two children, the second of which has the name of the first.
def siblingTree : Section :=
  let leaf (head : Text) : Section :=
    ⟨some ['a'.unit], some "# SECTION-START[a]".units, head, [], [], some "# SECTION-END".units⟩
  ⟨none, none, [], [⟨some [], some "SECTION-START[]".units, "x\r\n".units,
    [leaf [], ⟨none, none, "\r\n".units, [leaf "y\r\nz\r\n".units], [], none⟩],
    "w\r\n".units, some "SECTION-END".units⟩], [], none⟩

theorem siblingTree_wellFormed : siblingTree.WellFormed ['\r'.unit, '\n'.unit] := by
  have hempty : PlainText ['\r'.unit, '\n'.unit] [] := ⟨[], by decide, rfl⟩
  refine .root hempty hempty (fun _ => rfl) (.named true (by decide) rfl (by decide) (by decide)
    ⟨["x".units], by decide, rfl⟩ ⟨["w".units], by decide, rfl⟩ nofun ?_ (.nil false))
  refine .named true (by decide) rfl (by decide) (by decide) hempty hempty (fun _ => rfl)
    (.nil true) ?_
  exact .wrapped (by decide) ⟨[[]], by decide, rfl⟩ (.named true (by decide) rfl (by decide)
    (by decide) ⟨["y".units, "z".units], by decide, rfl⟩ hempty (fun _ => rfl) (.nil true)
    (.nil false))

theorem Options.readTree_render_siblingTree :
    Text.IsTerminator ['\r'.unit, '\n'.unit] ∧ siblingTree.WellFormed ['\r'.unit, '\n'.unit] ∧
      siblingTree.render ['\r'.unit, '\n'.unit] ≠ [] ∧
      Options.readTree ⟨['\r'.unit, '\n'.unit], .concurrent .unbounded⟩
          (siblingTree.render ['\r'.unit, '\n'.unit]) =
        .ok siblingTree :=
  ⟨by decide, siblingTree_wellFormed, by decide, Options.readTree_render
    ⟨['\r'.unit, '\n'.unit], .concurrent .unbounded⟩ (by decide) siblingTree siblingTree_wellFormed
    (by decide)⟩

end Sections
