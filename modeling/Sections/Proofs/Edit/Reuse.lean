import Mathlib.Data.List.Induction
import Sections.Edit.Session
import Sections.Proofs.Replacement

namespace Sections

open Text (Listing)

section Outcome

theorem SectionEditor.edit_of_atRest (editor : SectionEditor) {memory : Memory} (hm : memory.AtRest)
    (text : Text) : (editor.edit memory text).result = (editor.edit .fresh text).result := by
  cases h : Section.parse editor.vocabulary editor.separator text with
  | error e => rw [editor.edit_of_parse_error hm h, editor.edit_of_parse_error Memory.fresh_atRest h]
  | ok root =>
      simp only [editor.edit_of_parse_ok hm h, editor.edit_of_parse_ok Memory.fresh_atRest h]
      split <;> rfl

variable {stage : Stage} {stages : List Stage} {text : Text}

theorem Stage.output_of_atRest (h : stage.memory.AtRest) :
    (stage.edit text).output = ((Stage.fresh stage.editor).edit text).output := by
  obtain ⟨editor, memory⟩ := stage
  cases editor with
  | lines rule separator delay => rfl
  | sections editor => simp only [edit, fresh, editor.edit_of_atRest h text]

theorem Stage.editor_edit : (stage.edit text).stage.editor = stage.editor := by
  obtain ⟨editor, memory⟩ := stage
  cases editor <;> rfl

theorem Stage.edit_atRest (h : stage.memory.AtRest) : (stage.edit text).stage.memory.AtRest := by
  obtain ⟨editor, memory⟩ := stage
  cases editor with
  | lines rule separator delay => exact h
  | sections editor => exact editor.edit_atRest h text

-- What comes out of a chain does not depend on what its editors remember.
theorem editChain_output (h : ∀ stage ∈ stages, stage.memory.AtRest) :
    (editChain stages text).1 =
      (editChain ((stages.map Stage.editor).map Stage.fresh) text).1 := by
  induction stages generalizing text with
  | nil => rfl
  | cons stage rest ih =>
      obtain ⟨hstage, hrest⟩ := List.forall_mem_cons.mp h
      have hout := @Stage.output_of_atRest stage text hstage
      simp only [List.map_cons, editChain, ← hout]
      split
      · rfl
      · rfl
      · exact ih hrest

theorem editChain_editors :
    (editChain stages text).2.map (fun result => result.1.editor) = stages.map Stage.editor := by
  induction stages generalizing text with
  | nil => rfl
  | cons stage rest ih =>
      simp only [editChain]
      split
      · simp [Stage.editor_edit, Stage.idle, Function.comp_def]
      · simp [Stage.editor_edit, Stage.idle, Function.comp_def]
      · simp [Stage.editor_edit, ih]

theorem editChain_atRest (h : ∀ stage ∈ stages, stage.memory.AtRest) :
    ∀ result ∈ (editChain stages text).2, result.1.memory.AtRest := by
  induction stages generalizing text with
  | nil => exact fun _ hr => absurd hr List.not_mem_nil
  | cons stage rest ih =>
      obtain ⟨hstage, hrest⟩ := List.forall_mem_cons.mp h
      have hidle : ∀ result ∈ rest.map Stage.idle, result.1.memory.AtRest := by
        intro result hr
        obtain ⟨other, ho, rfl⟩ := List.mem_map.mp hr
        exact hrest other ho
      simp only [editChain]
      split
      · exact List.forall_mem_cons.mpr ⟨Stage.edit_atRest hstage, hidle⟩
      · exact List.forall_mem_cons.mpr ⟨Stage.edit_atRest hstage, hidle⟩
      · exact List.forall_mem_cons.mpr ⟨Stage.edit_atRest hstage, ih hrest⟩

end Outcome

section Recall

variable {editor : SectionEditor} {hook : Hook} {last : Option Section} {memory : Memory}

-- The names in a tree, if there is one.
def metNames (last : Option Section) : List Text := last.elim [] Section.names

-- An editor tells of earlier texts what there is to tell of one tree, or nothing without a tree.
structure Memory.Recalls (memory : Memory) (hook : Hook) (last : Option Section) : Prop where
  presentNames : Listing memory.presentNames (· ∈ metNames last)
  isPresent : ∀ name, memory.isPresent name = true ↔ name ∈ metNames last
  unmatched : ∀ replacements : Table, unmatchedNames replacements memory =
    Text.sorted (replacements.keys.filter fun name => name ∉ metNames last)
  root : memory.root = last.map (Section.mapContent (TreeEdit.edited hook))

-- Two memories that tell the same of earlier texts.
structure Memory.Matches (memory other : Memory) : Prop where
  presentNames : memory.presentNames = other.presentNames
  isPresent : memory.isPresent = other.isPresent
  unmatched : ∀ replacements, unmatchedNames replacements memory = unmatchedNames replacements other
  root : memory.root = other.root

theorem Memory.fresh_recalls : Memory.fresh.Recalls hook none := by
  have hpresent : ∀ name, Memory.fresh.isPresent name = true ↔ name ∈ metNames none := by
    simp [isPresent, fresh, metNames]
  exact ⟨(Listing.sorted_of_nodup List.nodup_nil), hpresent, unmatchedNames_eq hpresent, rfl⟩

theorem Memory.matches_of_present_root {other : Memory} (hp : memory.present = other.present)
    (hr : memory.root = other.root) : memory.Matches other := by
  have hpresent : memory.isPresent = other.isPresent := by
    funext name
    rw [isPresent, isPresent, hp]
  refine ⟨by rw [presentNames, presentNames, hp], hpresent, fun replacements => ?_, hr⟩
  rw [unmatchedNames, unmatchedNames, hpresent]

-- A text with bad markers leaves what is told of earlier texts as it was.
theorem SectionEditor.edit_matches (hm : memory.AtRest) {text : Text} {e : StructureError}
    (h : Section.parse editor.vocabulary editor.separator text = .error e) :
    (editor.edit memory text).memory.Matches memory := by
  rw [editor.edit_of_parse_error hm h]
  exact Memory.matches_of_present_root rfl rfl

theorem Memory.Recalls.of_matches {other : Memory} (h : memory.Recalls hook last)
    (ho : other.Matches memory) : other.Recalls hook last :=
  ⟨ho.presentNames ▸ h.presentNames, ho.isPresent ▸ h.isPresent,
    fun replacements => (ho.unmatched replacements).trans (h.unmatched replacements),
    ho.root.trans h.root⟩

-- The tree of a text whose markers nest.
def SectionEditor.tree? (editor : SectionEditor) (text : Text) : Option Section :=
  (Section.parse editor.vocabulary editor.separator text).toOption

theorem SectionEditor.tree?_eq_some_iff {text : Text} {root : Section} :
    editor.tree? text = some root ↔
      Section.parse editor.vocabulary editor.separator text = .ok root := by
  rw [tree?]
  cases Section.parse editor.vocabulary editor.separator text <;> simp [Except.toOption]

theorem SectionEditor.tree?_of_parse_error {text : Text} {e : StructureError}
    (h : Section.parse editor.vocabulary editor.separator text = .error e) :
    editor.tree? text = none := by
  rw [tree?, h]
  rfl

-- The tree of the last of some texts whose markers nest.
def SectionEditor.lastTree? (editor : SectionEditor) (texts : List Text) : Option Section :=
  (texts.filterMap editor.tree?).getLast?

theorem SectionEditor.lastTree?_append_singleton (texts : List Text) (text : Text) :
    editor.lastTree? (texts ++ [text]) = (editor.tree? text).or (editor.lastTree? texts) := by
  cases h : editor.tree? text <;> simp [lastTree?, h]

theorem SectionEditor.edit_recalls (hm : memory.AtRest) (hh : editor.hook.NeverFails)
    (h : memory.Recalls editor.hook last) (text : Text) :
    (editor.edit memory text).memory.Recalls editor.hook ((editor.tree? text).or last) := by
  cases hp : Section.parse editor.vocabulary editor.separator text with
  | error e =>
      rw [tree?_of_parse_error hp]
      exact h.of_matches (edit_matches hm hp)
  | ok root =>
      have ha := hh.accepts root
      have hpresent := editor.isPresent_iff hm hp ha
      rw [tree?_eq_some_iff.mpr hp]
      refine ⟨editor.listing_names hm hp ha, hpresent, unmatchedNames_eq hpresent, ?_⟩
      rw [editor.edit_of_accepts hm hp ha]
      rfl

end Recall

section Reuse

variable {editors : List Editor} {editor : SectionEditor} {next : List Editor} {s : Session}

namespace Session

-- The session after some texts, each with the turns that follow it.
def feed (s : Session) (texts : List (Nat × Text)) : Session :=
  texts.foldl (fun s entry => (s.edit entry.1 entry.2).after) s

-- What the first editor remembers.
def memory (s : Session) : Memory := (s.stages.head?.map Stage.memory).getD .fresh

-- No editor of the chain is in the midst of a text.
structure Ready (s : Session) (editors : List Editor) : Prop where
  editors : s.stages.map Stage.editor = editors
  atRest : ∀ stage ∈ s.stages, stage.memory.AtRest

theorem Ready.fresh (editors : List Editor) : (Session.fresh editors).Ready editors := by
  refine ⟨?_, fun stage hs => ?_⟩
  · simp [Session.fresh, Stage.fresh, Function.comp_def]
  · obtain ⟨editor, -, rfl⟩ := List.mem_map.mp hs
    exact Memory.fresh_atRest

theorem Ready.edit (h : s.Ready editors) (turns : Nat) (text : Text) :
    (s.edit turns text).after.Ready editors := by
  refine ⟨?_, fun stage hs => ?_⟩
  · rw [← h.editors, ← @editChain_editors s.stages text]
    exact List.map_map
  · obtain ⟨result, hr, rfl⟩ := List.mem_map.mp hs
    exact editChain_atRest h.atRest result hr

theorem Ready.feed (h : s.Ready editors) (texts : List (Nat × Text)) :
    (s.feed texts).Ready editors := by
  induction texts generalizing s with
  | nil => exact h
  | cons entry rest ih => exact ih (h.edit entry.1 entry.2)

theorem Ready.output (h : s.Ready editors) (turns : Nat) (text : Text) :
    (s.edit turns text).output = ((Session.fresh editors).edit turns text).output := by
  have hout := @editChain_output s.stages text h.atRest
  rw [h.editors] at hout
  exact hout

theorem Ready.memory_atRest (h : s.Ready (.sections editor :: next)) : s.memory.AtRest := by
  obtain ⟨stages, stragglers⟩ := s
  cases stages with
  | nil => exact Memory.fresh_atRest
  | cons stage rest => exact h.atRest stage List.mem_cons_self

theorem Ready.memory_edit (h : s.Ready (.sections editor :: next)) (turns : Nat) (text : Text) :
    (s.edit turns text).after.memory = (editor.edit s.memory text).memory := by
  obtain ⟨stages, stragglers⟩ := s
  cases stages with
  | nil => exact absurd h.editors.symm (List.cons_ne_nil _ _)
  | cons stage rest =>
      obtain ⟨first, memory⟩ := stage
      obtain rfl : first = .sections editor := (List.cons.inj h.editors).1
      simp only [Session.edit, editChain]
      split <;> rfl

theorem feed_append_singleton (texts : List (Nat × Text)) (entry : Nat × Text) :
    s.feed (texts ++ [entry]) = ((s.feed texts).edit entry.1 entry.2).after := by
  rw [feed, List.foldl_append, List.foldl_cons, List.foldl_nil]
  rfl

theorem feed_recalls (hh : editor.hook.NeverFails) (next : List Editor)
    (texts : List (Nat × Text)) :
    ((fresh (.sections editor :: next)).feed texts).memory.Recalls editor.hook
      (editor.lastTree? (texts.map (·.2))) := by
  induction texts using List.reverseRecOn with
  | nil => exact Memory.fresh_recalls
  | append_singleton texts entry ih =>
      have hready := (Ready.fresh (.sections editor :: next)).feed texts
      rw [feed_append_singleton, List.map_append, List.map_singleton,
        SectionEditor.lastTree?_append_singleton, hready.memory_edit]
      exact SectionEditor.edit_recalls hready.memory_atRest hh ih entry.2

-- An editor may be used again after any texts, with or without other editors after it. The next
-- text comes out as from a new editor, what is told of earlier texts is that of the last one
-- whose markers nest, and a text with bad markers leaves it as it was.
theorem edit_after_feed (editor : SectionEditor) (hh : editor.hook.NeverFails) (next : List Editor)
    (earlier : List (Nat × Text)) (turns : Nat) (text : Text) :
    let fresh := Session.fresh (.sections editor :: next)
    let s := fresh.feed earlier
    (s.edit turns text).output = (fresh.edit turns text).output ∧
      s.memory.Recalls editor.hook (editor.lastTree? (earlier.map (·.2))) ∧
      (editor.tree? text = none → (s.edit turns text).after.memory.Matches s.memory) := by
  have hready := (Ready.fresh (.sections editor :: next)).feed earlier
  refine ⟨hready.output turns text, feed_recalls hh next earlier, fun ht => ?_⟩
  rw [hready.memory_edit]
  cases hp : Section.parse editor.vocabulary editor.separator text with
  | error e => exact SectionEditor.edit_matches hready.memory_atRest hp
  | ok root =>
      rw [SectionEditor.tree?, hp] at ht
      contradiction

def replacer : SectionEditor :=
  ⟨.standard, ['\n'.unit], .sequential,
    .replacing ['\n'.unit] [(['b'.unit], ['y'.unit]), (['a'.unit], ['x'.unit])]⟩

-- Only the first of these texts has markers that nest.
def mixedTexts : List (Nat × Text) :=
  [(0, "SECTION-START[a]\nz\nSECTION-END".units), (2, "SECTION-START[".units),
    (0, "SECTION-START[b]\n".units)]

def endTwice : Text := "SECTION-START[b]\nSECTION-END\nSECTION-END".units

-- The tree of the first one.
def goodTree : Section :=
  ⟨none, none, [], [⟨some ['a'.unit], some "SECTION-START[a]".units, "z\n".units, [], [],
    some "SECTION-END".units⟩], [], none⟩

theorem edit_after_feed_mixedTexts :
    replacer.hook.NeverFails ∧ replacer.tree? endTwice = none ∧
      (((fresh [.sections replacer]).feed mixedTexts).edit 0 endTwice).output =
        ((fresh [.sections replacer]).edit 0 endTwice).output ∧
      ((fresh [.sections replacer]).feed mixedTexts).memory.Recalls replacer.hook (some goodTree) ∧
      (((fresh [.sections replacer]).feed mixedTexts).edit 0 endTwice).after.memory.Matches
        ((fresh [.sections replacer]).feed mixedTexts).memory := by
  have hh := Hook.replacing_neverFails ['\n'.unit]
    [(['b'.unit], ['y'.unit]), (['a'.unit], ['x'.unit])]
  have hn : replacer.tree? endTwice = none := rfl
  have hlast : replacer.lastTree? (mixedTexts.map (·.2)) = some goodTree := rfl
  obtain ⟨hout, hrecalls, hmatches⟩ := edit_after_feed replacer hh [] mixedTexts 0 endTwice
  exact ⟨hh, hn, hout, hlast ▸ hrecalls, hmatches hn⟩

end Session

end Reuse

end Sections
