import Sections.Proofs.Edit.Reuse
import Sections.Proofs.Schedule.Begun

namespace Sections

open Schedule (Strategy failureOf)
open Text (Listing)

namespace TreeEdit

variable {strategy : Strategy} {hook : Hook} {root : Section}

-- The sections whose edit was started, in the order of the starts.
def begun (t : TreeEdit) : List Slot := t.run.started.filterMap fun i => t.slots[i]?

theorem mem_present_iff_begun {t : TreeEdit} {name : Text} :
    name ∈ t.present ↔ name ∈ t.begun.filterMap Slot.name := by
  rw [present, Text.mem_distinct, begun, List.filterMap_filterMap]
  rfl

theorem failureOf_tasksFor (hook : Hook) (slots : List Slot) (i : Nat) :
    failureOf (tasksFor hook slots) i = slots[i]?.bind (failure? hook) := by
  rw [failureOf, tasksFor, List.getElem?_map, List.getElem?_zipIdx]
  cases slots[i]? <;> rfl

theorem failure?_eq_some {slot : Slot} {e : EditError} :
    failure? hook slot = some e ↔ hook.edit slot = .error e := by
  unfold failure?
  cases hook.edit slot <;> simp

-- A section alone is in order either way.
theorem arrange_strategyFor (strategy : Strategy) (slots : List Slot) :
    (strategyFor strategy slots).arrange slots = strategy.arrange slots := by
  unfold strategyFor
  split
  · rfl
  · rename_i hlen
    match slots, hlen with
    | [], _ => cases strategy <;> rfl
    | [_], _ => cases strategy <;> rfl
    | _ :: _ :: _, hlen => simp at hlen

theorem oneByOne_strategyFor (h : strategy.OneByOne) (slots : List Slot) :
    (strategyFor strategy slots).OneByOne := by
  unfold strategyFor
  split
  · exact h
  · exact nofun

theorem begun_isPrefix (strategy : Strategy) (hook : Hook) (root : Section) :
    (ofTree strategy hook root).begun <+: strategy.arrange root.slots := by
  have hstarted := ((strategyFor strategy root.slots).started_isPrefix
    (tasksFor hook root.slots)).filterMap fun i => root.slots[i]?
  have hcount : (tasksFor hook root.slots).length = root.slots.length := by simp [tasksFor]
  rwa [← Strategy.arrange_filterMap, hcount, Schedule.filterMap_getElem?_range,
    arrange_strategyFor] at hstarted

theorem exists_error (h : ¬hook.Accepts root) :
    ∃ e, (ofTree strategy hook root).run.result = .error e := by
  cases hr : (ofTree strategy hook root).run.result with
  | error e => exact ⟨e, rfl⟩
  | ok _ => exact absurd (result_eq_ok_iff.mp hr) h

-- What the edits of a tree come to when one of them fails.
structure Refused (strategy : Strategy) (hook : Hook) (root : Section) (e : EditError) : Prop where
  order : (ofTree strategy hook root).begun <+: strategy.arrange root.slots
  blamed : ∃ slot ∈ (ofTree strategy hook root).begun, hook.edit slot = .error e
  last : strategy.OneByOne → ∃ before refused,
    (ofTree strategy hook root).begun = before ++ [refused] ∧
      ∀ slot ∈ before, ∃ content, hook.edit slot = .ok content

theorem slot_of_failureOf {slots : List Slot} {i : Nat} {e : EditError}
    (h : failureOf (tasksFor hook slots) i = some e) :
    ∃ slot, slots[i]? = some slot ∧ hook.edit slot = .error e := by
  rw [failureOf_tasksFor] at h
  obtain ⟨slot, hs, he⟩ := Option.bind_eq_some_iff.mp h
  exact ⟨slot, hs, failure?_eq_some.mp he⟩

theorem refused_of_error {e : EditError}
    (h : (ofTree strategy hook root).run.result = .error e) : Refused strategy hook root e := by
  refine ⟨begun_isPrefix strategy hook root, ?_, fun hs => ?_⟩
  · obtain ⟨i, hi, he⟩ := Strategy.exists_started_of_error h
    obtain ⟨slot, hslot, he⟩ := slot_of_failureOf he
    exact ⟨slot, List.mem_filterMap.mpr ⟨i, hi, hslot⟩, he⟩
  · -- One after another: the refused section was started last, and those before it went well.
    obtain ⟨before, i, hstarted, hbefore, he⟩ :=
      (oneByOne_strategyFor hs root.slots).started_of_error h
    obtain ⟨refused, hslot, he⟩ := slot_of_failureOf he
    refine ⟨before.filterMap fun k => root.slots[k]?, refused, ?_, fun slot hm => ?_⟩
    · have hbegun : (ofTree strategy hook root).begun =
          ((before ++ [i]).filterMap fun k => root.slots[k]?) := by
        rw [← hstarted]
        rfl
      simp [hbegun, List.filterMap_append, hslot]
    · obtain ⟨k, hk, hkslot⟩ := List.mem_filterMap.mp hm
      have hnone := hbefore k hk
      rw [failureOf_tasksFor, hkslot] at hnone
      exact failure?_eq_none.mp hnone

end TreeEdit

section Recall

variable {editor : SectionEditor} {memory : Memory}

-- An editor tells the names of these sections, and no other.
structure Memory.Tells (memory : Memory) (slots : List Slot) : Prop where
  presentNames : Listing memory.presentNames (· ∈ slots.filterMap Slot.name)
  isPresent : ∀ name, memory.isPresent name = true ↔ name ∈ slots.filterMap Slot.name

theorem Memory.tells_of_present {t : TreeEdit} (h : memory.present = t.present) :
    memory.Tells t.begun := by
  constructor
  · rw [presentNames, h]
    exact (Listing.sorted_of_nodup (Text.nodup_distinct _)).congr fun _ =>
      TreeEdit.mem_present_iff_begun
  · intro name
    rw [isPresent, h, List.contains_iff_mem]
    exact TreeEdit.mem_present_iff_begun

theorem Memory.Tells.of_present_eq {slots : List Slot} {other : Memory} (h : memory.Tells slots)
    (ho : other.present = memory.present) : other.Tells slots := by
  constructor
  · rw [Memory.presentNames, ho]
    exact h.presentNames
  · intro name
    rw [Memory.isPresent, ho]
    exact h.isPresent name

-- Two memories tell the same just when it is the same names that there is to tell.
theorem Memory.Tells.same_iff {slots others : List Slot} {other : Memory} (h : memory.Tells slots)
    (ho : other.Tells others) :
    memory.presentNames = other.presentNames ∧ memory.isPresent = other.isPresent ↔
      ∀ name, name ∈ slots.filterMap Slot.name ↔ name ∈ others.filterMap Slot.name := by
  constructor
  · rintro ⟨-, hp⟩ name
    rw [← h.isPresent name, ← ho.isPresent name, hp]
  · intro hnames
    refine ⟨(h.presentNames.congr hnames).unique ho.presentNames, funext fun name => ?_⟩
    rw [Bool.eq_iff_iff, h.isPresent name, ho.isPresent name]
    exact hnames name

-- The sections of a text whose edit was started.
def SectionEditor.begun (editor : SectionEditor) (root : Section) : List Slot :=
  (TreeEdit.ofTree editor.strategy editor.hook root).begun

-- The same for the last of some texts whose markers nest.
def SectionEditor.lastBegun (editor : SectionEditor) (texts : List Text) : List Slot :=
  (editor.lastTree? texts).elim [] editor.begun

-- The edited tree of the last of some texts whose edit was completed.
def SectionEditor.lastEdited? (editor : SectionEditor) (texts : List Text) : Option Section :=
  (texts.filterMap fun text => (editor.edit .fresh text).result.toOption).getLast?

-- What an editor remembers of some texts, whether their edits were completed or not.
structure Memory.Describes (memory : Memory) (editor : SectionEditor) (texts : List Text) :
    Prop where
  tells : memory.Tells (editor.lastBegun texts)
  root : memory.root = editor.lastEdited? texts

theorem SectionEditor.edit_of_error (hm : memory.AtRest) {text : Text} {root : Section}
    (h : Section.parse editor.vocabulary editor.separator text = .ok root) {e : EditError}
    (he : (TreeEdit.ofTree editor.strategy editor.hook root).run.result = .error e) :
    editor.edit memory text =
      let t := TreeEdit.ofTree editor.strategy editor.hook root
      ⟨.error e, ⟨(Text.lines text).length, none, t.present, memory.root⟩, some t⟩ := by
  simp only [editor.edit_of_parse_ok hm h, he]

theorem SectionEditor.lastEdited?_append_singleton (texts : List Text) (text : Text) :
    editor.lastEdited? (texts ++ [text]) =
      (editor.edit .fresh text).result.toOption.or (editor.lastEdited? texts) := by
  cases h : (editor.edit .fresh text).result.toOption <;> simp [lastEdited?, h]

theorem SectionEditor.root_edit (hm : memory.AtRest) (text : Text) :
    (editor.edit memory text).memory.root =
      (editor.edit .fresh text).result.toOption.or memory.root := by
  rw [← editor.edit_of_atRest hm text]
  cases h : Section.parse editor.vocabulary editor.separator text with
  | error e => rw [editor.edit_of_parse_error hm h]; rfl
  | ok root =>
      simp only [editor.edit_of_parse_ok hm h]
      split <;> rfl

theorem SectionEditor.present_edit (hm : memory.AtRest) {text : Text} {root : Section}
    (h : Section.parse editor.vocabulary editor.separator text = .ok root) :
    (editor.edit memory text).memory.present =
      (TreeEdit.ofTree editor.strategy editor.hook root).present := by
  simp only [editor.edit_of_parse_ok hm h]
  split <;> rfl

theorem Memory.Describes.edit {texts : List Text} (hm : memory.AtRest)
    (h : memory.Describes editor texts) (text : Text) :
    (editor.edit memory text).memory.Describes editor (texts ++ [text]) := by
  refine ⟨?_, ?_⟩
  · rw [SectionEditor.lastBegun, SectionEditor.lastTree?_append_singleton]
    cases hp : Section.parse editor.vocabulary editor.separator text with
    | error e =>
        rw [SectionEditor.tree?_of_parse_error hp, editor.edit_of_parse_error hm hp]
        exact h.tells.of_present_eq rfl
    | ok root =>
        rw [SectionEditor.tree?_eq_some_iff.mpr hp]
        exact Memory.tells_of_present (SectionEditor.present_edit hm hp)
  · rw [SectionEditor.lastEdited?_append_singleton, SectionEditor.root_edit hm, h.root]

theorem Memory.fresh_describes : Memory.fresh.Describes editor [] := by
  refine ⟨⟨Listing.sorted_of_nodup List.nodup_nil, fun name => ?_⟩, rfl⟩
  simp [Memory.isPresent, Memory.fresh, SectionEditor.lastBegun, SectionEditor.lastTree?]

end Recall

namespace Session

variable {editor : SectionEditor} {next : List Editor} {s : Session}

theorem feed_describes (editor : SectionEditor) (next : List Editor) (texts : List (Nat × Text)) :
    ((fresh (.sections editor :: next)).feed texts).memory.Describes editor
      (texts.map (·.2)) := by
  induction texts using List.reverseRecOn with
  | nil => exact Memory.fresh_describes
  | append_singleton texts entry ih =>
      have hready := (Ready.fresh (.sections editor :: next)).feed texts
      rw [feed_append_singleton, List.map_append, List.map_singleton, hready.memory_edit]
      exact ih.edit hready.memory_atRest entry.2

theorem Ready.output_of_error (h : s.Ready (.sections editor :: next)) {turns : Nat} {text : Text}
    {e : EditError} (he : (editor.edit s.memory text).result = .error e) :
    (s.edit turns text).output = .error e := by
  obtain ⟨stages, stragglers⟩ := s
  cases stages with
  | nil => exact absurd h.editors.symm (List.cons_ne_nil _ _)
  | cons stage rest =>
      obtain ⟨first, memory⟩ := stage
      obtain rfl : first = .sections editor := (List.cons.inj h.editors).1
      have hm : (editor.edit memory text).result = .error e := he
      simp only [Session.edit, editChain, Stage.edit, hm, Except.map]

-- An edit that a hook refuses fails with a section that it got to. What it leaves to be told are
-- the names of the sections that it got to and not those that were told before, whereas the tree is
-- still that of the last edit that was completed.
theorem edit_refused (editor : SectionEditor) (next : List Editor) (earlier : List (Nat × Text))
    (turns : Nat) (text : Text) (root : Section) (ht : editor.tree? text = some root)
    (hn : ¬editor.hook.Accepts root) :
    let s := (fresh (.sections editor :: next)).feed earlier
    let after := (s.edit turns text).after.memory
    s.memory.Describes editor (earlier.map (·.2)) ∧
      (∃ e, (s.edit turns text).output = .error e ∧
        TreeEdit.Refused editor.strategy editor.hook root e) ∧
      after.Tells (editor.begun root) ∧ after.root = s.memory.root ∧
      (after.presentNames = s.memory.presentNames ∧ after.isPresent = s.memory.isPresent ↔
        ∀ name, name ∈ (editor.begun root).filterMap Slot.name ↔
          name ∈ (editor.lastBegun (earlier.map (·.2))).filterMap Slot.name) := by
  intro s after
  have hready : s.Ready (.sections editor :: next) := (Ready.fresh _).feed earlier
  have hm := hready.memory_atRest
  have hbefore := feed_describes editor next earlier
  have hp := SectionEditor.tree?_eq_some_iff.mp ht
  have hafter : after = (editor.edit s.memory text).memory := hready.memory_edit turns text
  have htells : after.Tells (editor.begun root) :=
    Memory.tells_of_present (hafter ▸ SectionEditor.present_edit hm hp)
  obtain ⟨e, he⟩ := TreeEdit.exists_error hn
  have hedit := SectionEditor.edit_of_error hm hp he
  refine ⟨hbefore, ⟨e, ?_, TreeEdit.refused_of_error he⟩, htells, ?_, htells.same_iff hbefore.tells⟩
  · exact hready.output_of_error (by rw [hedit])
  · rw [hafter, hedit]

def refuser : SectionEditor :=
  ⟨.standard, ['\n'.unit], .sequential, .stamping ['\n'.unit] ⟨none, [['b'.unit]], false, none⟩⟩

def acceptedText : Text := "SECTION-START[a]\nSECTION-END\n".units

-- The edit never gets to the last section.
def refusedText : Text :=
  "SECTION-START[b]\nSECTION-END\nSECTION-START[c]\nSECTION-END\n".units

def refusedTree : Section :=
  ⟨none, none, [],
    [⟨some ['b'.unit], some "SECTION-START[b]".units, [], [], [], some "SECTION-END".units⟩,
      ⟨some ['c'.unit], some "SECTION-START[c]".units, [], [], [], some "SECTION-END".units⟩],
    [], none⟩

theorem edit_refused_midway :
    refuser.tree? refusedText = some refusedTree ∧ ¬refuser.hook.Accepts refusedTree ∧
      (∃ e, (((fresh [.sections refuser]).feed [(0, acceptedText)]).edit 0 refusedText).output =
          .error e ∧ TreeEdit.Refused refuser.strategy refuser.hook refusedTree e) ∧
      (((fresh [.sections refuser]).feed [(0, acceptedText)]).edit 0 refusedText).after.memory.Tells
        [⟨none, ⟨[], []⟩⟩, ⟨some ['b'.unit], ⟨[], []⟩⟩] := by
  have ht : refuser.tree? refusedText = some refusedTree := rfl
  have hn : ¬refuser.hook.Accepts refusedTree := by
    intro h
    obtain ⟨content, hc⟩ := h ⟨some ['b'.unit], ⟨[], []⟩⟩ (by decide)
    contradiction
  have hbegun : refuser.begun refusedTree = [⟨none, ⟨[], []⟩⟩, ⟨some ['b'.unit], ⟨[], []⟩⟩] := rfl
  obtain ⟨-, herror, htells, -⟩ := edit_refused refuser [] [(0, acceptedText)] 0 refusedText
    refusedTree ht hn
  rw [hbegun] at htells
  exact ⟨ht, hn, herror, htells⟩

-- Before the refused edit the name of the accepted text is told, afterwards it is forgotten.
theorem edit_refused_forgets :
    ((fresh [.sections refuser]).feed [(0, acceptedText)]).memory.presentNames = [['a'.unit]] ∧
      (((fresh [.sections refuser]).feed [(0, acceptedText)]).edit 0
        refusedText).output.isOk = false ∧
      (((fresh [.sections refuser]).feed [(0, acceptedText)]).edit 0
        refusedText).after.memory.presentNames = [['b'.unit]] ∧
      (((fresh [.sections refuser]).feed [(0, acceptedText)]).edit 0
        refusedText).after.memory.isPresent ['a'.unit] = false := by
  refine ⟨?_, ?_, ?_, ?_⟩ <;> decide +kernel

end Session

end Sections
