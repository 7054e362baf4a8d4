import Sections.Proofs.Json.Display
import Sections.Proofs.Number.Whole
import Sections.Proofs.Text.Lines
import Sections.Settings

namespace Sections.Settings

open Text (IsTerminator)

theorem options_separator {settings : Settings} {options : Options}
    (h : settings.options = .ok options) : options.separator = settings.lineSeparator := by
  unfold Settings.options at h
  cases hs : Schedule.Strategy.ofConcurrency settings.concurrency with
  | error e =>
      rw [hs] at h
      contradiction
  | ok strategy =>
      rw [hs] at h
      rw [← Except.ok.inj h]

-- Settings that texts can be edited with.
structure Usable (settings : Settings) : Prop where
  separator : IsTerminator settings.lineSeparator
  concurrency : settings.concurrency.toNat?.isSome

theorem exists_strategy {n : Number} (h : n.toNat?.isSome) :
    ∃ strategy, Schedule.Strategy.ofConcurrency n = .ok strategy := by
  obtain ⟨count, hcount⟩ := Option.isSome_iff_exists.mp h
  unfold Schedule.Strategy.ofConcurrency
  split
  · rename_i hpos
    have hfinite : n ≠ .infinite false := by
      rintro rfl
      contradiction
    have hlimit : Schedule.Limit.ofNumber n =
        .ok (.atMost count (Number.toNat?_pos hpos hcount)) := by
      simp only [Schedule.Limit.ofNumber, if_neg hfinite, hcount,
        dif_pos (Number.toNat?_pos hpos hcount)]
    exact ⟨.concurrent _, congrArg (Except.map Schedule.Strategy.concurrent) hlimit⟩
  · exact ⟨.sequential, rfl⟩

theorem Usable.exists_options {settings : Settings} (h : settings.Usable) :
    ∃ strategy, settings.options = .ok ⟨settings.lineSeparator, strategy⟩ := by
  obtain ⟨strategy, hs⟩ := exists_strategy h.concurrency
  exact ⟨strategy, by rw [options, hs, Except.map]⟩

section Checks

variable {α : Type} {platform : Text} {value : Json} {error : Text → SettingsError}
  {P : α → Prop}

-- What a check makes of a value: something usable, or a failure that shows the value. A value
-- that cannot be shown is not accepted, and the check fails over showing it.
inductive Checked (value : Json) (error : Text → SettingsError) (P : α → Prop) :
    Except LoadError α → Prop where
  | accepted {a : α} (ha : P a) (h : ¬value.Unprintable) : Checked value error P (.ok a)
  | refused (shown : Text) (h : ¬value.Unprintable) :
      Checked value error P (.error (.settings (error shown)))
  | stumbled (h : value.Unprintable) : Checked value error P (.error .unprintable)

theorem checked_refusal (value : Json) (error : Text → SettingsError) :
    Checked value error P (.error (refusal (some value) error)) := by
  have hiff := Json.display?_eq_none_iff value
  cases hd : value.display? with
  | none =>
      simp only [refusal, hd]
      exact .stumbled (hiff.mp hd)
  | some shown =>
      simp only [refusal, hd]
      refine .refused shown fun h => ?_
      rw [hiff.mpr h] at hd
      contradiction

theorem baseDirOf_checked (value : Json) :
    Checked value .badBaseDir (fun _ => True) (baseDirOf value) := by
  cases value with
  | string path => exact .accepted trivial (by rintro ⟨⟩)
  | null | bool | number | array | object => exact checked_refusal _ _

theorem isTerminator_of_lookup (hp : IsTerminator platform) {name separator : Text}
    (h : (separators platform).lookup name = some separator) : IsTerminator separator := by
  obtain ⟨before, behind, hsplit, -⟩ := List.lookup_eq_some_iff.mp h
  have hmem : (name, separator) ∈ separators platform :=
    hsplit ▸ List.mem_append_right before (List.mem_cons_self ..)
  have hs : separator ∈ [['\n'.unit], ['\r'.unit, '\n'.unit], ['\r'.unit], platform] :=
    (List.of_mem_zip hmem).2
  simp only [List.mem_cons, List.not_mem_nil, or_false] at hs
  rcases hs with rfl | rfl | rfl | rfl
  · exact .inl rfl
  · exact .inr (.inl rfl)
  · exact .inr (.inr rfl)
  · exact hp

theorem separatorOn_checked (hp : IsTerminator platform) (value : Json) :
    Checked value .badSeparator IsTerminator (separatorOn platform (some value)) := by
  cases value with
  | string name =>
      simp only [separatorOn]
      split
      · rename_i separator hl
        exact .accepted (isTerminator_of_lookup hp hl) (by rintro ⟨⟩)
      · exact checked_refusal _ _
  | null | bool | number | array | object => exact checked_refusal _ _

theorem concurrencyOf_checked (value : Json) :
    Checked value .badConcurrency (fun n : Number => n.toNat?.isSome) (concurrencyOf value) := by
  have hnumber : ∀ n : Number, ¬value.Unprintable →
      Checked value .badConcurrency (fun n : Number => n.toNat?.isSome)
        (if n.toNat?.isSome then .ok n else .error (refusal (some value) .badConcurrency)) := by
    intro n hv
    split
    · exact .accepted ‹_› hv
    · exact checked_refusal value _
  cases value with
  | string text =>
      cases hblank : (Text.trim text).isEmpty with
      | true =>
          simp only [concurrencyOf, hblank, if_true]
          exact checked_refusal _ _
      | false =>
          simp only [concurrencyOf, hblank, Bool.false_eq_true, if_false]
          exact hnumber _ (by rintro ⟨⟩)
  | number n => exact hnumber n (by rintro ⟨⟩)
  | null | bool | array | object => exact checked_refusal _ _

end Checks

-- A field of the file that has no plain text, where no variable takes its place.
def Unshown (fromVariable : Option Text) (name : String) (fields : Json) : Prop :=
  fromVariable = none ∧ ∃ value, field name fields = some value ∧ value.Unprintable

-- The first value that is not accepted has no plain text to be refused by.
inductive Stumbles (platform : Text) (env : Environment) (fields : Json) : Prop where
  | baseDir (h : Unshown none "baseDir" fields)
  | separator {baseDir : Text} (hb : baseDirOf (baseDirValue fields) = .ok baseDir)
      (h : Unshown env.lineSeparator "lineSeparator" fields)
  | concurrency {baseDir separator : Text} (hb : baseDirOf (baseDirValue fields) = .ok baseDir)
      (hs : separatorOn platform (some (separatorValue env fields)) = .ok separator)
      (h : Unshown env.concurrency "concurrency" fields)

-- The file can be read, and one of its values stumbles.
def Derails (platform : Text) (tree : FileTree) (path : Option Text) (env : Environment) : Prop :=
  ∃ fields directory, source tree (path.or env.config) = .ok (fields, directory) ∧
    Stumbles platform env fields

theorem chosen_unprintable_iff {fromVariable : Option Text} {name : String} {default : Json}
    (hd : ¬default.Unprintable) (fields : Json) :
    (chosen fromVariable name default fields).Unprintable ↔ Unshown fromVariable name fields := by
  cases fromVariable with
  | some text =>
      constructor
      · rintro ⟨⟩
      · rintro ⟨hnone, -⟩
        contradiction
  | none =>
      cases hf : field name fields with
      | none => simp [chosen, Unshown, hf, hd]
      | some value => simp [chosen, Unshown, hf]

section Loading

variable {platform : Text} {tree : FileTree} {path : Option Text} {env : Environment}
  {fields : Json} {directory : Route}

theorem baseDirValue_unprintable_iff (fields : Json) :
    (baseDirValue fields).Unprintable ↔ Unshown none "baseDir" fields :=
  chosen_unprintable_iff (by rintro ⟨⟩) fields

theorem separatorValue_unprintable_iff (env : Environment) (fields : Json) :
    (separatorValue env fields).Unprintable ↔
      Unshown env.lineSeparator "lineSeparator" fields :=
  chosen_unprintable_iff (by rintro ⟨⟩) fields

theorem concurrencyValue_unprintable_iff (env : Environment) (fields : Json) :
    (concurrencyValue env fields).Unprintable ↔ Unshown env.concurrency "concurrency" fields :=
  chosen_unprintable_iff (by rintro ⟨⟩) fields

-- The values are checked one after another, and the first one that is not accepted decides.
theorem loadOn_of_source (hp : IsTerminator platform)
    (hsource : source tree (path.or env.config) = .ok (fields, directory)) :
    (∃ settings, loadOn platform tree path env = .ok settings ∧ settings.Usable ∧
        ¬Stumbles platform env fields) ∨
      (∃ e, loadOn platform tree path env = .error (.settings e) ∧
        ¬Stumbles platform env fields) ∨
      loadOn platform tree path env = .error .unprintable ∧ Stumbles platform env fields := by
  have hbaseDir := baseDirOf_checked (baseDirValue fields)
  have hseparator := separatorOn_checked hp (separatorValue env fields)
  have hconcurrency := concurrencyOf_checked (concurrencyValue env fields)
  have hbu := baseDirValue_unprintable_iff fields
  have hsu := separatorValue_unprintable_iff env fields
  have hcu := concurrencyValue_unprintable_iff env fields
  simp only [loadOn, hsource]
  generalize hb : baseDirOf (baseDirValue fields) = baseDir at hbaseDir
  generalize hs : separatorOn platform (some (separatorValue env fields)) = separator at hseparator
  generalize concurrencyOf (concurrencyValue env fields) = concurrency at hconcurrency
  cases hbaseDir with
  | stumbled h => exact .inr (.inr ⟨rfl, .baseDir (hbu.mp h)⟩)
  | refused shown hbase =>
      refine .inr (.inl ⟨_, rfl, ?_⟩)
      rintro (h | ⟨hb', -⟩ | ⟨hb', -, -⟩)
      · exact hbase (hbu.mpr h)
      · exact absurd (hb.symm.trans hb') (by simp)
      · exact absurd (hb.symm.trans hb') (by simp)
  | accepted _ hbase =>
      cases hseparator with
      | stumbled h => exact .inr (.inr ⟨rfl, .separator hb (hsu.mp h)⟩)
      | refused shown hsep =>
          refine .inr (.inl ⟨_, rfl, ?_⟩)
          rintro (h | ⟨-, h⟩ | ⟨-, hs', -⟩)
          · exact hbase (hbu.mpr h)
          · exact hsep (hsu.mpr h)
          · exact absurd (hs.symm.trans hs') (by simp)
      | accepted hterminator hsep =>
          have hclear : ¬(concurrencyValue env fields).Unprintable →
              ¬Stumbles platform env fields := by
            rintro hcon (h | ⟨-, h⟩ | ⟨-, -, h⟩)
            · exact hbase (hbu.mpr h)
            · exact hsep (hsu.mpr h)
            · exact hcon (hcu.mpr h)
          cases hconcurrency with
          | stumbled h => exact .inr (.inr ⟨rfl, .concurrency hb hs (hcu.mp h)⟩)
          | refused shown hcon => exact .inr (.inl ⟨_, rfl, hclear hcon⟩)
          | accepted hwhole hcon =>
              exact .inl ⟨_, rfl, ⟨hterminator, hwhole⟩, hclear hcon⟩

theorem derails_iff (hsource : source tree (path.or env.config) = .ok (fields, directory)) :
    Derails platform tree path env ↔ Stumbles platform env fields := by
  constructor
  · rintro ⟨other, _, h, hs⟩
    rw [hsource] at h
    rwa [(Prod.mk.inj (Except.ok.inj h)).1]
  · intro hs
    exact ⟨fields, directory, hsource, hs⟩

theorem loadOn_cases (hp : IsTerminator platform) (tree : FileTree) (path : Option Text)
    (env : Environment) :
    (∃ settings, loadOn platform tree path env = .ok settings ∧ settings.Usable ∧
        ¬Derails platform tree path env) ∨
      (∃ e, loadOn platform tree path env = .error (.settings e) ∧
        ¬Derails platform tree path env) ∨
      loadOn platform tree path env = .error .unprintable ∧ Derails platform tree path env := by
  cases hsource : source tree (path.or env.config) with
  | error e =>
      refine .inr (.inl ⟨e, by rw [loadOn, hsource], ?_⟩)
      rintro ⟨fields, directory, h, -⟩
      rw [hsource] at h
      contradiction
  | ok found =>
      obtain ⟨fields, directory⟩ := found
      rw [derails_iff hsource]
      exact loadOn_of_source hp hsource

-- Loaded settings can be edited with. Loading fails with a failure of its own unless a value of
-- the file derails it, and then always in the other way.
theorem loadOn_outcome (hp : IsTerminator platform) (tree : FileTree) (path : Option Text)
    (env : Environment) :
    (∀ settings, loadOn platform tree path env = .ok settings →
      settings.Usable ∧ ∃ strategy, settings.options = .ok ⟨settings.lineSeparator, strategy⟩) ∧
    (¬Derails platform tree path env →
      (∃ settings, loadOn platform tree path env = .ok settings) ∨
        ∃ e, loadOn platform tree path env = .error (.settings e)) ∧
    (Derails platform tree path env → loadOn platform tree path env = .error .unprintable) := by
  rcases loadOn_cases hp tree path env with ⟨settings, hload, husable, hclear⟩ |
    ⟨e, hload, hclear⟩ | ⟨hload, hderails⟩
  · refine ⟨fun other h => ?_, fun _ => .inl ⟨settings, hload⟩, fun h => absurd h hclear⟩
    obtain rfl : settings = other := Except.ok.inj (hload.symm.trans h)
    exact ⟨husable, husable.exists_options⟩
  · refine ⟨fun other h => ?_, fun _ => .inr ⟨e, hload⟩, fun h => absurd h hclear⟩
    rw [hload] at h
    contradiction
  · refine ⟨fun other h => ?_, fun hclear => absurd hderails hclear, fun _ => hload⟩
    rw [hload] at h
    contradiction

end Loading

section Defaults

variable {tree : FileTree}

def unset : Environment := ⟨none, none, none⟩

-- The default file may be missing.
theorem source_default
    (h : tree.has (tree.workingDirectory.resolve defaultFile).text = false) :
    source tree none = .ok (.object [], tree.workingDirectory) := by
  simp only [source, h, Bool.false_eq_true, if_false]

-- Without a file and without variables all is as by default, and every default passes its check.
theorem loadOn_default (h : tree.has (tree.workingDirectory.resolve defaultFile).text = false)
    (platform : Text) :
    loadOn platform tree none unset =
      .ok ⟨(tree.workingDirectory.resolve ['.'.unit]).text, platform, .zero false⟩ := by
  have hsource : source tree (Option.or none unset.config) =
      .ok (.object [], tree.workingDirectory) := source_default h
  have hbaseDir : baseDirOf (baseDirValue (.object [])) = .ok ['.'.unit] := rfl
  have hseparator : separatorOn platform (some (separatorValue unset (.object []))) =
      .ok platform := rfl
  have hconcurrency : concurrencyOf (concurrencyValue unset (.object [])) = .ok (.zero false) := by
    decide +kernel
  simp only [loadOn, hsource, hbaseDir, hseparator, hconcurrency]
  rfl

end Defaults

section Configured

def configured (text : Text) : FileTree :=
  ⟨["w".units], [(["w".units, defaultFile], .file (Text.encode text))], []⟩

def fourAtOnce : FileTree :=
  configured "\x7b\"lineSeparator\":\"os\",\"concurrency\":\" 4\"\x7d".units

-- A field of the value hides the text that objects have.
def hiddenText : FileTree :=
  configured "\x7b\"lineSeparator\":\x7b\"toString\":1\x7d\x7d".units

theorem hiddenText_derails (platform : Text) : Derails platform hiddenText none unset := by
  have hbase : (source hiddenText none).toOption.map
      (fun found => baseDirOf (baseDirValue found.1)) = some (.ok ['.'.unit]) := by
    decide +kernel
  have hfield : (source hiddenText none).toOption.map
      (fun found => (field "lineSeparator" found.1).map Json.display?) = some (some none) := by
    decide +kernel
  cases hs : source hiddenText none with
  | error e => simp [hs, Except.toOption] at hbase
  | ok found =>
      rw [hs] at hbase hfield
      obtain ⟨value, hvalue, hshown⟩ := Option.map_eq_some_iff.mp (Option.some.inj hfield)
      exact ⟨found.1, found.2, hs, .separator (Option.some.inj hbase)
        ⟨rfl, value, hvalue, (Json.display?_eq_none_iff value).mp hshown⟩⟩

theorem not_stumbles_of_no_fields (platform : Text) (env : Environment) :
    ¬Stumbles platform env (.object []) := by
  rintro (⟨-, value, h, -⟩ | ⟨-, -, value, h, -⟩ | ⟨-, -, -, value, h, -⟩) <;> contradiction

def bare : FileTree := ⟨["w".units], [], []⟩

theorem bare_source : source bare none = .ok (.object [], ["w".units]) :=
  source_default (by decide +kernel)

theorem loadOn_outcome_configured :
    let negative : Environment := { unset with concurrency := some "-1".units }
    (∃ settings, loadOn ['\r'.unit, '\n'.unit] fourAtOnce none unset = .ok settings ∧
      settings.Usable ∧ ∃ strategy, settings.options = .ok ⟨settings.lineSeparator, strategy⟩) ∧
    (∃ e, loadOn ['\r'.unit, '\n'.unit] bare none negative = .error (.settings e)) ∧
    loadOn ['\r'.unit, '\n'.unit] hiddenText none unset = .error .unprintable := by
  intro negative
  have hp : IsTerminator ['\r'.unit, '\n'.unit] := .inr (.inl rfl)
  refine ⟨?_, ?_, ?_⟩
  · have hload : loadOn ['\r'.unit, '\n'.unit] fourAtOnce none unset =
        .ok ⟨"/w".units, ['\r'.unit, '\n'.unit], .ofNat 4⟩ := by
      decide +kernel
    exact ⟨_, hload, (loadOn_outcome hp fourAtOnce none unset).1 _ hload⟩
  · have hrefused : (loadOn ['\r'.unit, '\n'.unit] bare none negative).toOption = none := by
      decide +kernel
    have hclear : ¬Derails ['\r'.unit, '\n'.unit] bare none negative := by
      rintro ⟨fields, directory, h, hs⟩
      obtain ⟨rfl, -⟩ := Prod.mk.inj (Except.ok.inj (bare_source.symm.trans h))
      exact not_stumbles_of_no_fields _ _ hs
    rcases (loadOn_outcome hp bare none negative).2.1 hclear with ⟨settings, h⟩ | hfailed
    · simp [h, Except.toOption] at hrefused
    · exact hfailed
  · exact (loadOn_outcome hp hiddenText none unset).2.2 (hiddenText_derails ['\r'.unit, '\n'.unit])

-- The separator is none of the four, but the failure cannot say so.
theorem load_hiddenText :
    load hiddenText none unset = .error .unprintable ∧
      ∀ e, load hiddenText none unset ≠ .error (.settings e) := by
  have hload : load hiddenText none unset = .error .unprintable := by decide +kernel
  refine ⟨hload, fun e h => ?_⟩
  cases Except.error.inj (hload.symm.trans h)

end Configured

end Sections.Settings
