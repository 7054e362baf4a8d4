import Sections.Edit.SectionEditor
import Sections.Proofs.Contents
import Sections.Proofs.Nesting.Render
import Sections.Proofs.Schedule.Success
import Sections.Proofs.Text.UnitOrder

namespace Sections

open Schedule (Strategy)

-- An edit of a section always gives a new content.
def Hook.NeverFails (hook : Hook) : Prop := ∀ slot, ∃ content, hook.edit slot = .ok content

theorem Hook.identity_neverFails : Hook.identity.NeverFails := fun slot => ⟨slot.content, rfl⟩

theorem Hook.replacing_neverFails (separator : Text) (replacements : Table) :
    (Hook.replacing separator replacements).NeverFails := by
  intro slot
  simp only [replacing]
  split
  · exact ⟨_, rfl⟩
  · exact ⟨_, rfl⟩

-- Every section of the tree is given a new content.
def Hook.Accepts (hook : Hook) (root : Section) : Prop :=
  ∀ slot ∈ root.slots, ∃ content, hook.edit slot = .ok content

theorem Hook.NeverFails.accepts {hook : Hook} (h : hook.NeverFails) (root : Section) :
    hook.Accepts root := fun slot _ => h slot

namespace TreeEdit

variable {strategy : Strategy} {hook : Hook} {root : Section}

theorem edited_identity : edited .identity = Slot.content := rfl

theorem failure?_eq_none {slot : Slot} :
    failure? hook slot = none ↔ ∃ content, hook.edit slot = .ok content := by
  unfold failure?
  cases hook.edit slot <;> simp

theorem tasks_unfailing :
    (∀ task ∈ tasksFor hook root.slots, task.failure = none) ↔ hook.Accepts root := by
  simp only [Hook.Accepts, ← failure?_eq_none]
  constructor
  · intro h slot hs
    rw [← List.zipIdx_map_fst 0 root.slots] at hs
    obtain ⟨entry, he, rfl⟩ := List.mem_map.mp hs
    exact h _ (List.mem_map_of_mem he)
  · intro h task ht
    obtain ⟨entry, he, rfl⟩ := List.mem_map.mp ht
    exact h entry.1 (List.fst_mem_of_mem_zipIdx he)

theorem run_faithful (strategy : Strategy) (hook : Hook) (root : Section) :
    (ofTree strategy hook root).run.Faithful (tasksFor hook root.slots) :=
  (strategyFor strategy root.slots).run_faithful _

-- The edits of a tree succeed together, whatever the order in which they are made.
theorem result_eq_ok_iff :
    (ofTree strategy hook root).run.result = .ok () ↔ hook.Accepts root :=
  (run_faithful strategy hook root).result.trans tasks_unfailing

theorem run_completes (h : hook.Accepts root) :
    (ofTree strategy hook root).run.Completes (List.range root.slots.length) := by
  have hc := (run_faithful strategy hook root).completes (result_eq_ok_iff.mpr h)
  simpa [tasksFor] using hc

-- Edits that are all done give every section its own new content.
theorem contents_eq_map (hook : Hook) (done : List Nat) (slots : List Slot)
    (h : ∀ i ∈ List.range slots.length, i ∈ done) :
    contents hook done slots = slots.map (edited hook) := by
  apply List.ext_getElem
  · simp [contents]
  · intro i hi _
    have hd := h i (by simpa [contents] using hi)
    simp [contents, hd]

theorem tree_eq_mapContent (h : hook.Accepts root) :
    (ofTree strategy hook root).tree = root.mapContent (edited hook) := by
  have hdone := (@run_completes strategy _ _ h).finished
  simp only [ofTree] at hdone ⊢
  rw [contents_eq_map hook _ _ hdone]
  have hr := root.refill_map (edited hook) []
  rw [List.append_nil] at hr
  rw [hr]

theorem mem_present_iff (h : hook.Accepts root) (name : Text) :
    name ∈ (ofTree strategy hook root).present ↔ name ∈ root.names := by
  have hstarted := (@run_completes strategy _ _ h).started
  rw [present, Text.mem_distinct, List.mem_filterMap, Section.mem_names]
  constructor
  · rintro ⟨i, -, hn⟩
    obtain ⟨slot, hs, hn⟩ := Option.bind_eq_some_iff.mp hn
    exact ⟨slot, List.mem_of_getElem? hs, hn⟩
  · rintro ⟨slot, hs, hn⟩
    obtain ⟨i, hi, rfl⟩ := List.getElem_of_mem hs
    refine ⟨i, hstarted.mem_iff.mpr (List.mem_range.mpr hi), ?_⟩
    exact Option.bind_eq_some_iff.mpr ⟨_, List.getElem?_eq_getElem hi, hn⟩

-- The names that are told after an edit are those of the tree.
theorem listing_present (h : hook.Accepts root) :
    Text.Listing (Text.sorted (ofTree strategy hook root).present) (· ∈ root.names) :=
  (Text.Listing.sorted_of_nodup (Text.nodup_distinct _)).congr (mem_present_iff h)

end TreeEdit

theorem OpenStack.lineNumber_consume {v : Vocabulary} {separator line : Text} {n : Nat}
    {st : OpenStack} {e : StructureError} (h : st.consume v separator n line = .error e) :
    e.lineNumber = n := by
  unfold OpenStack.consume at h
  split at h
  · rw [← Except.error.inj h]
    rfl
  · contradiction
  · split at h
    · split at h
      · rw [← Except.error.inj h]
        rfl
      · contradiction
    · contradiction

theorem OpenStack.lineNumber_finish {n : Nat} {st : OpenStack} {e : StructureError}
    (h : st.finish n = .error e) : e.lineNumber = n := by
  unfold OpenStack.finish at h
  split at h
  · contradiction
  · rw [← Except.error.inj h]
    rfl

-- No section of a text under way is open.
def Memory.AtRest (memory : Memory) : Prop := memory.pending = none

theorem Memory.fresh_atRest : Memory.fresh.AtRest := rfl

theorem Memory.AtRest.stack {memory : Memory} (h : memory.AtRest) : memory.stack = .initial := by
  unfold Memory.stack
  rw [h]
  rfl

namespace SectionEditor

variable (editor : SectionEditor) {memory : Memory}

theorem feedAll_of_ok {ls : List Text} {last : OpenStack}
    (h : OpenStack.consumeAll editor.vocabulary editor.separator (memory.lineNumber + 1) ls
      memory.stack = .ok last) :
    ∃ pending, pending.getD .initial = last ∧ editor.feedAll ls memory =
      (.ok (), { memory with lineNumber := memory.lineNumber + ls.length, pending := pending }) := by
  induction ls generalizing memory with
  | nil => exact ⟨memory.pending, Except.ok.inj h, rfl⟩
  | cons line rest ih =>
      rw [OpenStack.consumeAll] at h
      split at h
      · contradiction
      · rename_i next hn
        have hfeed : editor.feed memory line =
            (.ok (), { memory with lineNumber := memory.lineNumber + 1, pending := some next }) := by
          simp only [feed, hn]
        obtain ⟨pending, hp, ha⟩ := @ih
          { memory with lineNumber := memory.lineNumber + 1, pending := some next } h
        refine ⟨pending, hp, ?_⟩
        simp only [feedAll, hfeed, ha, List.length_cons]
        rw [Nat.add_assoc, Nat.add_comm 1]

theorem feedAll_of_error {ls : List Text} {e : StructureError}
    (h : OpenStack.consumeAll editor.vocabulary editor.separator (memory.lineNumber + 1) ls
      memory.stack = .error e) :
    editor.feedAll ls memory =
      (.error e, { memory with lineNumber := e.lineNumber, pending := none }) := by
  induction ls generalizing memory with
  | nil => contradiction
  | cons line rest ih =>
      rw [OpenStack.consumeAll] at h
      split at h
      · rename_i he
        rw [Except.error.inj h] at he
        simp only [feedAll, feed, he, OpenStack.lineNumber_consume he]
      · rename_i next hn
        have hfeed : editor.feed memory line =
            (.ok (), { memory with lineNumber := memory.lineNumber + 1, pending := some next }) := by
          simp only [feed, hn]
        simp only [feedAll, hfeed]
        exact @ih { memory with lineNumber := memory.lineNumber + 1, pending := some next } h

theorem feedAll_append (first second : List Text) :
    editor.feedAll (first ++ second) memory =
      match editor.feedAll first memory with
      | (.error e, next) => (.error e, next)
      | (.ok (), next) => editor.feedAll second next := by
  induction first generalizing memory with
  | nil => rfl
  | cons line rest ih =>
      rw [List.cons_append, feedAll, feedAll]
      rcases editor.feed memory line with ⟨result, next⟩
      cases result with
      | error e => rfl
      | ok done => exact ih

-- A text with bad markers changes nothing but the number of the last line.
theorem edit_of_parse_error (hm : memory.AtRest) {text : Text} {e : StructureError}
    (h : Section.parse editor.vocabulary editor.separator text = .error e) :
    editor.edit memory text =
      ⟨.error (.markers e), { memory with lineNumber := e.lineNumber, pending := none }, none⟩ := by
  unfold Section.parse Section.ofLines at h
  have hstack : Memory.stack { memory with lineNumber := 0 } = .initial := hm.stack
  split at h
  · rename_i he
    rw [Except.error.inj h] at he
    have hfeed := @feedAll_of_error editor { memory with lineNumber := 0 } (Text.lines text) e
      (by rw [hstack]; exact he)
    simp only [edit, hfeed]
  · rename_i last hc
    obtain ⟨pending, hp, hfeed⟩ :=
      @feedAll_of_ok editor { memory with lineNumber := 0 } (Text.lines text) last
        (by rw [hstack]; exact hc)
    rw [Nat.zero_add] at hfeed
    have hn := OpenStack.lineNumber_finish h
    simp only [edit, hfeed, close, Memory.stack, hp, h, hn]

-- A text whose markers nest is edited as its tree.
theorem edit_of_parse_ok (hm : memory.AtRest) {text : Text} {root : Section}
    (h : Section.parse editor.vocabulary editor.separator text = .ok root) :
    editor.edit memory text =
      let t := TreeEdit.ofTree editor.strategy editor.hook root
      let number := (Text.lines text).length
      match t.run.result with
      | .error e => ⟨.error e, ⟨number, none, t.present, memory.root⟩, some t⟩
      | .ok () => ⟨.ok t.tree, ⟨number, none, t.present, some t.tree⟩, some t⟩ := by
  unfold Section.parse Section.ofLines at h
  have hstack : Memory.stack { memory with lineNumber := 0 } = .initial := hm.stack
  split at h
  · contradiction
  · rename_i last hc
    obtain ⟨pending, hp, hfeed⟩ :=
      @feedAll_of_ok editor { memory with lineNumber := 0 } (Text.lines text) last
        (by rw [hstack]; exact hc)
    rw [Nat.zero_add] at hfeed
    cases hrun : (TreeEdit.ofTree editor.strategy editor.hook root).run.result <;>
      simp only [edit, hfeed, close, Memory.stack, hp, h, hrun]

-- Every edit leaves the editor ready for the next text.
theorem edit_atRest (hm : memory.AtRest) (text : Text) : (editor.edit memory text).memory.AtRest := by
  cases h : Section.parse editor.vocabulary editor.separator text with
  | error e =>
      rw [edit_of_parse_error editor hm h]
      rfl
  | ok root =>
      rw [edit_of_parse_ok editor hm h]
      simp only
      cases (TreeEdit.ofTree editor.strategy editor.hook root).run.result <;> rfl

-- The edits of a tree that all succeed: every section gets its new content.
theorem edit_of_accepts (hm : memory.AtRest) {text : Text} {root : Section}
    (h : Section.parse editor.vocabulary editor.separator text = .ok root)
    (ha : editor.hook.Accepts root) :
    editor.edit memory text =
      let t := TreeEdit.ofTree editor.strategy editor.hook root
      let tree := root.mapContent (TreeEdit.edited editor.hook)
      ⟨.ok tree, ⟨(Text.lines text).length, none, t.present, some tree⟩, some t⟩ := by
  have hr := (@TreeEdit.result_eq_ok_iff editor.strategy _ _).mpr ha
  simp only [edit_of_parse_ok editor hm h, hr, TreeEdit.tree_eq_mapContent ha]

-- The names that the editor tells then are those of the tree.
theorem listing_names (hm : memory.AtRest) {text : Text} {root : Section}
    (h : Section.parse editor.vocabulary editor.separator text = .ok root)
    (ha : editor.hook.Accepts root) :
    Text.Listing (editor.edit memory text).memory.presentNames (· ∈ root.names) := by
  rw [edit_of_accepts editor hm h ha]
  exact TreeEdit.listing_present ha

theorem isPresent_iff (hm : memory.AtRest) {text : Text} {root : Section}
    (h : Section.parse editor.vocabulary editor.separator text = .ok root)
    (ha : editor.hook.Accepts root) (name : Text) :
    (editor.edit memory text).memory.isPresent name = true ↔ name ∈ root.names := by
  rw [edit_of_accepts editor hm h ha, Memory.isPresent, List.contains_iff_mem]
  exact TreeEdit.mem_present_iff ha name

theorem edit_of_refused (hm : memory.AtRest) {text : Text} {root : Section}
    (h : Section.parse editor.vocabulary editor.separator text = .ok root)
    (hn : ¬editor.hook.Accepts root) : (editor.edit memory text).result.isOk = false := by
  simp only [edit_of_parse_ok editor hm h]
  split
  · rfl
  · rename_i hr
    exact absurd (TreeEdit.result_eq_ok_iff.mp hr) hn

theorem edit_of_neverFails (hm : memory.AtRest) (hh : editor.hook.NeverFails) {text : Text}
    {root : Section} (h : Section.parse editor.vocabulary editor.separator text = .ok root) :
    (editor.edit memory text).result =
        .ok (root.mapContent (TreeEdit.edited editor.hook)) ∧
      (editor.edit memory text).memory.present =
        (TreeEdit.ofTree editor.strategy editor.hook root).present := by
  rw [edit_of_accepts editor hm h (hh.accepts root)]
  exact ⟨rfl, rfl⟩

end SectionEditor

namespace Options

variable {options : Options} {text : Text}

theorem readTree_of_parse_ok {root : Section}
    (h : Section.parse .standard options.separator text = .ok root) :
    options.readTree text = .ok root := by
  have he := ((options.editor .identity).edit_of_neverFails Memory.fresh_atRest
    Hook.identity_neverFails h).1
  rw [readTree, he]
  exact congrArg Except.ok root.mapContent_content

theorem exists_readTree (h : (options.readTree text).isOk = true) :
    ∃ root, options.readTree text = .ok root := by
  cases hr : options.readTree text with
  | ok root => exact ⟨root, rfl⟩
  | error e =>
      rw [hr] at h
      contradiction

theorem readTree_of_parse_error {e : StructureError}
    (h : Section.parse .standard options.separator text = .error e) :
    options.readTree text = .error (.markers e) := by
  rw [readTree, (options.editor .identity).edit_of_parse_error Memory.fresh_atRest h]

theorem readTree_eq_ok_iff {root : Section} :
    options.readTree text = .ok root ↔
      Section.parse .standard options.separator text = .ok root := by
  constructor
  · intro h
    cases hp : Section.parse .standard options.separator text with
    | error e =>
        rw [readTree_of_parse_error hp] at h
        contradiction
    | ok tree =>
        rw [readTree_of_parse_ok hp] at h
        rw [Except.ok.inj h]
  · exact readTree_of_parse_ok

end Options

end Sections
