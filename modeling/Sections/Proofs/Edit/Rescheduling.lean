import Sections.Proofs.Merge
import Sections.Proofs.Settings
import Sections.Tool

namespace Sections

open Schedule (Strategy)

section Agreement

variable {memory : Memory} {text : Text}

-- The same edits at other times: run by another strategy, and with other delays.
def SectionEditor.rescheduled (editor : SectionEditor) (strategy : Strategy)
    (delay : Nat → Slot → Option Nat) : SectionEditor :=
  { editor with strategy := strategy, hook := { editor.hook with delay := delay } }

-- Two edits that fail together, and otherwise give one tree and meet the same names.
structure SectionEdit.Agrees (e other : SectionEdit) : Prop where
  tree : e.result.toOption = other.result.toOption
  presentNames : e.result.isOk = true → e.memory.presentNames = other.memory.presentNames
  isPresent : e.result.isOk = true → e.memory.isPresent = other.memory.isPresent

-- No section is edited twice. Where the edit succeeds, each section of the tree was edited, and
-- all of that was done when the edits settled and the tree was given.
structure SectionEdit.Thorough (editor : SectionEditor) (text : Text) (e : SectionEdit) : Prop where
  once : ∀ t, e.activity = some t → t.run.started.Nodup
  all : e.result.isOk = true → ∃ root t,
    Section.parse editor.vocabulary editor.separator text = .ok root ∧ e.activity = some t ∧
      t.slots = root.slots ∧ t.run.Completes (List.range root.slots.length)

theorem SectionEdit.toOption_eq_none {e : SectionEdit} (h : e.result.isOk = false) :
    e.result.toOption = none := by
  cases hr : e.result with
  | error _ => rfl
  | ok tree =>
      rw [hr] at h
      contradiction

theorem SectionEditor.edit_rescheduled (editor : SectionEditor) (hm : memory.AtRest)
    (strategy : Strategy) (delay : Nat → Slot → Option Nat) :
    (editor.edit memory text).Agrees ((editor.rescheduled strategy delay).edit memory text) := by
  cases h : Section.parse editor.vocabulary editor.separator text with
  | error e =>
      have hother := (editor.rescheduled strategy delay).edit_of_parse_error hm h
      rw [editor.edit_of_parse_error hm h, hother]
      exact ⟨rfl, fun _ => rfl, fun _ => rfl⟩
  | ok root =>
      by_cases ha : editor.hook.Accepts root
      · have hedit := editor.edit_of_accepts hm h ha
        have hother := (editor.rescheduled strategy delay).edit_of_accepts hm h ha
        have hnames := (editor.rescheduled strategy delay).listing_names hm h ha
        have hpresent := (editor.rescheduled strategy delay).isPresent_iff hm h ha
        refine ⟨?_, fun _ => (editor.listing_names hm h ha).unique hnames, fun _ => ?_⟩
        · rw [hedit, hother]
          rfl
        · funext name
          rw [Bool.eq_iff_iff, editor.isPresent_iff hm h ha, hpresent]
      · have hfails := editor.edit_of_refused hm h ha
        have hother := (editor.rescheduled strategy delay).edit_of_refused hm h ha
        refine ⟨?_, ?_, ?_⟩
        · rw [SectionEdit.toOption_eq_none hfails, SectionEdit.toOption_eq_none hother]
        · rw [hfails]
          nofun
        · rw [hfails]
          nofun

theorem SectionEditor.toOption_editText (editor : SectionEditor) :
    (editor.editText memory text).toOption =
      (editor.edit memory text).result.toOption.map (Section.render editor.separator) := by
  unfold editText
  cases (editor.edit memory text).result <;> rfl

theorem SectionEditor.edit_thorough (editor : SectionEditor) (hm : memory.AtRest) :
    (editor.edit memory text).Thorough editor text := by
  cases h : Section.parse editor.vocabulary editor.separator text with
  | error e =>
      rw [editor.edit_of_parse_error hm h]
      exact ⟨nofun, nofun⟩
  | ok root =>
      constructor
      · intro t ht
        have hactivity : (editor.edit memory text).activity =
            some (TreeEdit.ofTree editor.strategy editor.hook root) := by
          simp only [editor.edit_of_parse_ok hm h]
          split <;> rfl
        rw [← Option.some.inj (hactivity.symm.trans ht)]
        exact (TreeEdit.run_faithful editor.strategy editor.hook root).nodup
      · intro hok
        have ha : editor.hook.Accepts root := by
          by_contra hn
          rw [editor.edit_of_refused hm h hn] at hok
          contradiction
        rw [editor.edit_of_accepts hm h ha]
        exact ⟨root, _, h, rfl, rfl, TreeEdit.run_completes ha⟩

end Agreement

section Answers

variable {options other : Options}

theorem Options.readTree_congr (h : options.separator = other.separator) (text : Text) :
    options.readTree text = other.readTree text := by
  cases hp : Section.parse .standard options.separator text with
  | error e => rw [readTree_of_parse_error hp, readTree_of_parse_error (h ▸ hp)]
  | ok root => rw [readTree_of_parse_ok hp, readTree_of_parse_ok (h ▸ hp)]

-- Heads are replaced alike by two strategies.
theorem Options.replace_congr (h : options.separator = other.separator) (replacements : Table)
    (text : Text) : options.replace replacements text = other.replace replacements text := by
  cases hp : Section.parse .standard options.separator text with
  | error e =>
      rw [replace_of_parse_error replacements hp, replace_of_parse_error replacements (h ▸ hp)]
  | ok root =>
      obtain ⟨present, hpresent, hreplace⟩ := replace_eq replacements hp
      obtain ⟨names, hnames, hother⟩ := @replace_eq other text replacements root (h ▸ hp)
      rw [hreplace, hother, h, hpresent.unique hnames]

theorem Options.merge_congr (h : options.separator = other.separator) (generated existing : Text) :
    options.merge generated existing = other.merge generated existing := by
  simp only [merge, readTree_congr h, replace_congr h]

end Answers

section Concurrency

variable {settings : Settings} {concurrency : Number} {options other : Options}

-- The settings but for the number of sections that may be edited at once.
def Settings.withConcurrency (settings : Settings) (concurrency : Number) : Settings :=
  { settings with concurrency := concurrency }

theorem ToolCall.run_withConcurrency (hs : settings.options = .ok options)
    (hc : (settings.withConcurrency concurrency).options = .ok other) (call : ToolCall) :
    call.run (settings.withConcurrency concurrency) = call.run settings := by
  have h : other.separator = options.separator :=
    (Settings.options_separator hc).trans (Settings.options_separator hs).symm
  have hread : ∀ source, readSource (settings.withConcurrency concurrency) source =
      readSource settings source := fun source => by cases source <;> rfl
  have hwrite : ∀ source write text,
      writeBack (settings.withConcurrency concurrency) source write text =
        writeBack settings source write text := fun source write text => by
    cases source <;> cases write <;> rfl
  cases call with
  | trim source =>
      rw [run, run, hread]
      rfl
  | _ =>
      simp only [run, hread, hwrite, hs, hc, FileWork.ofExcept, pure_bind,
        Options.readTree_congr h, Options.replace_congr h, Options.merge_congr h]

theorem Tool.run_withConcurrency (hs : settings.options = .ok options)
    (hc : (settings.withConcurrency concurrency).options = .ok other) (tool : Tool)
    (args : Option Json) :
    tool.run (settings.withConcurrency concurrency) args = tool.run settings args := by
  unfold Tool.run
  split
  · rfl
  · exact ToolCall.run_withConcurrency hs hc _

end Concurrency

-- When and in what order the sections of a text are edited makes no difference to the text that
-- comes out. A section is edited once, and the text waits for all of them. So the answer of a tool,
-- and what it writes, do not show how many sections may be edited at once.
theorem SectionEditor.schedule_independent (editor : SectionEditor) {memory : Memory}
    (hm : memory.AtRest) (strategy : Strategy) (delay : Nat → Slot → Option Nat) (text : Text)
    {settings : Settings} {concurrency : Number} {options other : Options}
    (hs : settings.options = .ok options)
    (hc : (settings.withConcurrency concurrency).options = .ok other)
    (tool : Tool) (args : Option Json) (tree : FileTree) :
    (editor.edit memory text).Agrees ((editor.rescheduled strategy delay).edit memory text) ∧
      (editor.editText memory text).toOption =
        ((editor.rescheduled strategy delay).editText memory text).toOption ∧
      (editor.edit memory text).Thorough editor text ∧
      (tool.run (settings.withConcurrency concurrency) args).perform tree =
        (tool.run settings args).perform tree := by
  have hagree := @editor.edit_rescheduled memory text hm strategy delay
  refine ⟨hagree, ?_, editor.edit_thorough hm, ?_⟩
  · rw [toOption_editText, toOption_editText, hagree.tree]
    rfl
  · rw [Tool.run_withConcurrency hs hc]

section Overtaking

def twoSections : Text := "SECTION-START[a]\nx\nSECTION-END\nSECTION-START[b]\nSECTION-END".units

def oneByOne : SectionEditor :=
  ⟨.standard, ['\n'.unit], .sequential, .stamping ['\n'.unit] ⟨none, [], true, none⟩⟩

-- The sections that come later are edited faster.
def overtaking : SectionEditor :=
  oneByOne.rescheduled (.concurrent (.atMost 2 (by decide))) fun i _ => some (3 - i)

def oneByOneSettings : Settings := ⟨['/'.unit], ['\n'.unit], .zero false⟩

def replaceInFile : Option Json :=
  some (.object [("file_path".units, .string ['f'.unit]), ("write".units, .bool true),
    ("sections".units, .object [(['b'.unit], .string ['y'.unit])])])

def oneFile : FileTree := ⟨[], [([['f'.unit]], .file (Text.encode twoSections))], []⟩

theorem SectionEditor.schedule_independent_overtaking :
    Memory.fresh.AtRest ∧
    oneByOneSettings.options = .ok ⟨['\n'.unit], .sequential⟩ ∧
    (oneByOneSettings.withConcurrency (.ofNat 4)).options =
      .ok ⟨['\n'.unit], .concurrent (.atMost 4 (by decide))⟩ ∧
    (overtaking.editText .fresh twoSections).toOption =
      some ("SECTION-START[a]\nx\na Head\na Tail\nSECTION-END\n" ++
        "SECTION-START[b]\nb Head\nb Tail\nSECTION-END\n").units ∧
    (Tool.replace.run (oneByOneSettings.withConcurrency (.ofNat 4)) replaceInFile).perform oneFile =
      (Tool.replace.run oneByOneSettings replaceInFile).perform oneFile := by
  obtain ⟨-, htext, -, htool⟩ := @schedule_independent oneByOne .fresh rfl
    (.concurrent (.atMost 2 (by decide))) (fun i _ => some (3 - i)) twoSections oneByOneSettings
    (.ofNat 4) _ _ rfl rfl .replace replaceInFile oneFile
  exact ⟨rfl, rfl, rfl, htext.symm.trans (by decide +kernel), htool⟩

end Overtaking

end Sections
