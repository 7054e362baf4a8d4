import Sections.Replacement
import Sections.Proofs.Edit.SectionEditor
import Sections.Proofs.Nesting.NewHeads
import Sections.Proofs.Nesting.Reads

namespace Sections

open Text (Listing)

theorem Layout.names_tree {v : Vocabulary} {separator : Text} (layout : Layout v) :
    (layout.tree separator).names = v.startNames layout.lines := by
  rw [← Section.keys_namedHeads, layout.namedHeads_tree, Vocabulary.keys_markedHeads]

theorem Section.names_eq_startNames {separator text : Text} {root : Section}
    (h : Section.parse .standard separator text = .ok root) :
    root.names = Vocabulary.standard.startNames (Text.lines text) := by
  obtain ⟨layout, hl, rfl⟩ :=
    (Section.ofLines_eq_ok_iff Vocabulary.standard_named separator _ root).mp h
  rw [layout.names_tree, hl]

-- The new head that a replacement gives to the sections of a name.
def Table.newHead? (separator : Text) (replacements : Table) (name : Text) : Option Text :=
  (replacements.get? name).map (Hook.terminated separator)

theorem TreeEdit.edited_replacing (separator : Text) (replacements : Table) :
    edited (.replacing separator replacements) = Slot.newHead (replacements.newHead? separator) := by
  funext slot
  cases hn : slot.name with
  | none => simp [edited, Hook.replacing, Slot.newHead, hn]
  | some name =>
      cases ht : replacements.get? name <;>
        simp [edited, Hook.replacing, Slot.newHead, Table.newHead?, hn, ht]

theorem unmatchedNames_eq {memory : Memory} {names : List Text}
    (h : ∀ name, memory.isPresent name = true ↔ name ∈ names) (replacements : Table) :
    unmatchedNames replacements memory =
      Text.sorted (replacements.keys.filter fun name => name ∉ names) := by
  have hname : ∀ name, (!memory.isPresent name) = decide (name ∉ names) := fun name => by
    rw [decide_not, Bool.eq_iff_iff.mpr ((h name).trans decide_eq_true_iff.symm)]
  simp only [unmatchedNames, hname]

namespace Options

variable {options : Options} {text : Text}

theorem replace_of_parse_error (replacements : Table) {e : StructureError}
    (h : Section.parse .standard options.separator text = .error e) :
    options.replace replacements text = .error (.markers e) := by
  have he := (options.editor (.replacing options.separator replacements)).edit_of_parse_error
    Memory.fresh_atRest h
  simp only [replace, he]

-- A replacer that was used before gives what a new one gives.
theorem edit_replacing (replacements : Table) {memory : Memory} (hm : memory.AtRest)
    {root : Section} (h : Section.parse .standard options.separator text = .ok root) :
    let done := (options.editor (.replacing options.separator replacements)).edit memory text
    done.result = .ok (root.mapContent (Slot.newHead (replacements.newHead? options.separator))) ∧
      Listing done.memory.presentNames (· ∈ root.names) ∧
      unmatchedNames replacements done.memory =
        Text.sorted (replacements.keys.filter fun name => name ∉ root.names) := by
  have ha := (Hook.replacing_neverFails options.separator replacements).accepts root
  refine ⟨?_, SectionEditor.listing_names _ hm h ha,
    unmatchedNames_eq (SectionEditor.isPresent_iff _ hm h ha) replacements⟩
  rw [SectionEditor.edit_of_accepts _ hm h ha, ← TreeEdit.edited_replacing]
  rfl

theorem replace_eq (replacements : Table) {root : Section}
    (h : Section.parse .standard options.separator text = .ok root) :
    ∃ present, Listing present (· ∈ root.names) ∧
      options.replace replacements text =
        .ok ⟨(root.mapContent (Slot.newHead (replacements.newHead? options.separator))).render
            options.separator,
          Text.sorted (replacements.keys.filter fun name => name ∉ root.names), present⟩ := by
  obtain ⟨hedit, hpresent, hunmatched⟩ := edit_replacing replacements Memory.fresh_atRest h
  refine ⟨_, hpresent, ?_⟩
  simp only [replace, hedit, hunmatched]

-- What a replacement gives for a text whose markers nest.
structure Replaces (options : Options) (replacements : Table) (source : Text) (replaced : Replaced) :
    Prop where
  text : replaced.text = Vocabulary.standard.rewriteHeads options.separator
    (replacements.newHead? options.separator) false (Text.lines source)
  present : Listing replaced.present (· ∈ Vocabulary.standard.startNames (Text.lines source))
  unmatched : replacements.keys.Nodup → Listing replaced.unmatched fun name =>
    name ∈ replacements.keys ∧ name ∉ Vocabulary.standard.startNames (Text.lines source)

theorem replace_of_parse_ok (replacements : Table) {root : Section}
    (h : Section.parse .standard options.separator text = .ok root) :
    ∃ replaced, options.replace replacements text = .ok replaced ∧
      options.Replaces replacements text replaced := by
  obtain ⟨present, hpresent, hreplace⟩ := replace_eq replacements h
  have hnames := Section.names_eq_startNames h
  obtain ⟨layout, hl, rfl⟩ :=
    (Section.ofLines_eq_ok_iff Vocabulary.standard_named options.separator _ root).mp h
  refine ⟨_, hreplace, ?_, hnames ▸ hpresent, ?_⟩
  · rw [← hl, ← layout.render_newHeads_tree]
  · intro hkeys
    refine (Listing.sorted_of_nodup (hkeys.filter _)).congr fun name => ?_
    simp [List.mem_filter, hnames]

-- What can be asked of a replacer after an edit.
def replacedBy (options : Options) (replacements : Table) (done : SectionEdit) :
    Except EditError Replaced :=
  done.result.map fun tree =>
    ⟨tree.render options.separator, unmatchedNames replacements done.memory,
      done.memory.presentNames⟩

-- Earlier texts leave no trace in what a replacer gives.
theorem replacedBy_edit (options : Options) (replacements : Table) {memory : Memory}
    (hm : memory.AtRest) (text : Text) :
    options.replacedBy replacements
        ((options.editor (.replacing options.separator replacements)).edit memory text) =
      options.replace replacements text := by
  cases h : Section.parse .standard options.separator text with
  | error e =>
      rw [replace_of_parse_error replacements h, replacedBy,
        SectionEditor.edit_of_parse_error _ hm h]
      rfl
  | ok root =>
      obtain ⟨hedit, hpresent, hunmatched⟩ := edit_replacing replacements hm h
      obtain ⟨present, hnew, hreplace⟩ := replace_eq replacements h
      simp only [replacedBy, hedit, Except.map, hunmatched, hpresent.unique hnew, hreplace]

-- A replacement is a single pass over the lines, whatever texts the replacer was given before and
-- in whatever order it edits the sections.
theorem replace_by_lines (options : Options) (replacements : Table) {memory : Memory}
    (hm : memory.AtRest) {root : Section} (h : options.readTree text = .ok root) :
    ∃ replaced,
      options.replacedBy replacements
          ((options.editor (.replacing options.separator replacements)).edit memory text) =
        .ok replaced ∧
      options.Replaces replacements text replaced := by
  rw [replacedBy_edit options replacements hm]
  exact replace_of_parse_ok replacements (readTree_eq_ok_iff.mp h)

section Spoiled

def piped : Options := ⟨['|'.unit], .concurrent (.atMost 2 Nat.zero_lt_two)⟩

-- One of the new heads holds markers, and one name is that of no section.
def newHeads : Table :=
  [(['a'.unit], "SECTION-START[z]\nSECTION-END".units), ("__proto__".units, [])]

def pipedReplacer : SectionEditor :=
  piped.editor (.replacing piped.separator newHeads)

-- The text before had a marker that is not closed.
def spoiled : Memory := (pipedReplacer.edit .fresh "SECTION-START[a".units).memory

def nestedText : Text :=
  "top\nSECTION-START[a]\nold\nSECTION-START[b]\nSECTION-END\nt\nSECTION-END".units

theorem readTree_nestedText :
    piped.readTree nestedText =
      .ok ⟨none, none, "top|".units, [⟨some ['a'.unit], some "SECTION-START[a]".units, "old|".units,
        [⟨some ['b'.unit], some "SECTION-START[b]".units, [], [], [], some "SECTION-END".units⟩],
        "t|".units, some "SECTION-END".units⟩], [], none⟩ :=
  readTree_of_parse_ok rfl

theorem replace_by_lines_spoiled :
    spoiled.AtRest ∧ newHeads.keys.Nodup ∧ ∃ replaced,
      piped.replacedBy newHeads (pipedReplacer.edit spoiled nestedText) = .ok replaced ∧
      replaced.text = ("top|SECTION-START[a]|SECTION-START[z]\nSECTION-END|SECTION-START[b]|" ++
        "SECTION-END|t|SECTION-END|").units ∧
      replaced.unmatched = ["__proto__".units] := by
  have hm : spoiled.AtRest :=
    pipedReplacer.edit_atRest Memory.fresh_atRest "SECTION-START[a".units
  have hkeys : newHeads.keys.Nodup := by decide +kernel
  obtain ⟨replaced, hdone, hreplaces⟩ := replace_by_lines piped newHeads hm readTree_nestedText
  have hnames : Vocabulary.standard.startNames (Text.lines nestedText) =
      [['a'.unit], ['b'.unit]] := by
    decide +kernel
  have hunmatched := hreplaces.unmatched hkeys
  rw [hnames] at hunmatched
  refine ⟨hm, hkeys, replaced, hdone, hreplaces.text.trans (by decide +kernel),
    hunmatched.unique ⟨List.pairwise_singleton _ _, by simp, fun name => ?_⟩⟩
  simp only [newHeads, Table.keys, List.map_cons, List.map_nil, List.mem_cons, List.not_mem_nil,
    or_false, not_or]
  refine ⟨?_, fun h => h.1.resolve_left h.2.1⟩
  rintro rfl
  decide

end Spoiled

end Options

end Sections
