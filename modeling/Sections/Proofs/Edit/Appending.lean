import Sections.Proofs.Edit.SectionEditor
import Sections.Proofs.Nesting.Additions
import Sections.Proofs.Nesting.LeftOpen
import Sections.Proofs.Nesting.Reads

namespace Sections

-- An edit adds to the head and the tail of every named section what its name gives.
def Hook.Appends (hook : Hook) (h t : Text → Text) : Prop :=
  ∀ slot, hook.edit slot = .ok (slot.appended h t)

theorem Hook.Appends.neverFails {hook : Hook} {h t : Text → Text} (ha : hook.Appends h t) :
    hook.NeverFails := fun slot => ⟨_, ha slot⟩

theorem Hook.Appends.edited_eq {hook : Hook} {h t : Text → Text} (ha : hook.Appends h t) :
    TreeEdit.edited hook = Slot.appended h t := by
  funext slot
  rw [TreeEdit.edited, ha slot]

theorem Hook.stamping_appends (separator : Text) (stamp : Hook.Stamp) (hr : stamp.refused = [])
    (hm : stamp.marked = true) (hb : stamp.body = none) :
    (Hook.stamping separator stamp).Appends (fun name => name ++ (" Head".units ++ separator))
      fun name => name ++ (" Tail".units ++ separator) := by
  intro slot
  cases hn : slot.name <;> simp [Hook.stamping, Slot.appended, hr, hm, hb, hn]

namespace Options

-- What is added to heads and tails comes before the marker lines that end them, and the rest of the
-- text stays. Every marker line has its counterpart there, so nothing that is added is lost.
theorem editText_appends (options : Options) {hook : Hook} {h t : Text → Text}
    (ha : hook.Appends h t) {memory : Memory} (hm : memory.AtRest) {text : Text} {root : Section}
    (hr : options.readTree text = .ok root) :
    (options.editor hook).editText memory text =
        .ok (Vocabulary.standard.added options.separator h t (Text.lines text)) ∧
      (∀ (i : Nat) line, (Text.lines text)[i]? = some line →
        Vocabulary.standard.isStart line = true →
        ∃! k, Vocabulary.standard.Pairs (Text.lines text) i k) ∧
      ∀ (k : Nat) line, (Text.lines text)[k]? = some line → Vocabulary.standard.IsEnd line →
        ∃! i, Vocabulary.standard.Pairs (Text.lines text) i k := by
  have hp := readTree_eq_ok_iff.mp hr
  obtain ⟨layout, hls, rfl⟩ :=
    (Section.ofLines_eq_ok_iff Vocabulary.standard_named options.separator _ root).mp hp
  have hedit := ((options.editor hook).edit_of_neverFails hm ha.neverFails hp).1
  rw [← hls]
  refine ⟨?_, fun i line => layout.existsUnique_end, fun k line => layout.existsUnique_start⟩
  rw [SectionEditor.editText, hedit, ← layout.render_appended_tree, ← ha.edited_eq]
  rfl

section Stamped

-- A section with a child, another one behind some text, and a section of the same name after it.
def siblings : Text :=
  Text.unlines ['\n'.unit] ["top".units, "SECTION-START[a]".units, ['x'.unit],
    "SECTION-START[b]".units, "SECTION-END".units, ['y'.unit],
    "SECTION-START[c]SECTION-END".units, [], "SECTION-END".units, ['z'.unit], "SECTION-END".units,
    "SECTION-START[a]".units, "SECTION-END".units]

def twoAtOnce : Options := ⟨['|'.unit], .concurrent (.atMost 2 Nat.zero_lt_two)⟩

-- The sections of one name take longer than the others.
def slowStamp : Hook.Stamp := ⟨some [(['a'.unit], 3), (['*'.unit], 1)], [], true, none⟩

def stampedSiblings : Text :=
  Text.unlines ['|'.unit] ["top".units, "SECTION-START[a]".units, ['x'.unit], "a Head".units,
    "SECTION-START[b]".units, "b Head".units, "b Tail".units, "SECTION-END".units, ['y'.unit],
    "SECTION-START[c]SECTION-END".units, [], "c Head".units, "c Tail".units,
    "SECTION-END".units, ['z'.unit], "a Tail".units, "SECTION-END".units, "SECTION-START[a]".units,
    "a Head".units, "a Tail".units, "SECTION-END".units]

theorem editText_appends_siblings :
    (Hook.stamping ['|'.unit] slowStamp).Appends (fun name => name ++ (" Head".units ++ ['|'.unit]))
        (fun name => name ++ (" Tail".units ++ ['|'.unit])) ∧
      Memory.fresh.AtRest ∧ (∃ root, twoAtOnce.readTree siblings = .ok root) ∧
      (twoAtOnce.editor (.stamping ['|'.unit] slowStamp)).editText .fresh siblings =
        .ok stampedSiblings ∧
      ∃! k, Vocabulary.standard.Pairs (Text.lines siblings) 1 k := by
  have ha := Hook.stamping_appends ['|'.unit] slowStamp rfl rfl rfl
  obtain ⟨root, hr⟩ := @exists_readTree twoAtOnce siblings (by decide +kernel)
  obtain ⟨hedit, hstart, -⟩ := editText_appends twoAtOnce ha Memory.fresh_atRest hr
  have hadded : Vocabulary.standard.added ['|'.unit]
      (fun name => name ++ (" Head".units ++ ['|'.unit]))
      (fun name => name ++ (" Tail".units ++ ['|'.unit])) (Text.lines siblings) =
        stampedSiblings := by
    decide +kernel
  refine ⟨ha, Memory.fresh_atRest, ⟨root, hr⟩, hedit.trans (congrArg Except.ok hadded), ?_⟩
  exact hstart 1 "SECTION-START[a]".units (by decide +kernel) (by decide)

end Stamped

end Options

end Sections
