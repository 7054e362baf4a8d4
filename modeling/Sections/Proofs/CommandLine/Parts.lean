import Mathlib.Data.List.Induction
import Sections.CommandLine.Arguments

namespace Sections.CommandLine

-- What arguments say, one part after another.
inductive Part where
  | mode (mode : Mode)
  | merge (path : Text)
  | config (path : Text)
  | write
  | positional (path : Text)
  deriving Repr, DecidableEq

-- How the parts are spelled. The argument behind a merge or a configuration flag is its path,
-- whatever it looks like; any other argument that begins with a dash is a flag.
inductive Spells : List Text → List Part → Prop where
  | nil : Spells [] []
  | mode {mode : Mode} {rest : List Text} {parts : List Part} (hm : mode ≠ .merge)
      (h : Spells rest parts) : Spells (("--".units ++ mode.name) :: rest) (.mode mode :: parts)
  | merge {flag path : Text} {rest : List Text} {parts : List Part}
      (hf : flag = "--merge".units ∨ flag = "-m".units) (h : Spells rest parts) :
      Spells (flag :: path :: rest) (.merge path :: parts)
  | config {flag path : Text} {rest : List Text} {parts : List Part}
      (hf : flag = "--config".units ∨ flag = "-c".units) (h : Spells rest parts) :
      Spells (flag :: path :: rest) (.config path :: parts)
  | write {flag : Text} {rest : List Text} {parts : List Part}
      (hf : flag = "--write".units ∨ flag = "-w".units) (h : Spells rest parts) :
      Spells (flag :: rest) (.write :: parts)
  | positional {path : Text} {rest : List Text} {parts : List Part}
      (hp : path.head? ≠ some '-'.unit) (h : Spells rest parts) :
      Spells (path :: rest) (.positional path :: parts)

namespace Part

-- Asking for a merge names a mode.
def mode? : Part → Option Mode
  | .mode named => some named
  | .merge _ => some .merge
  | _ => none

def generated? : Part → Option Text
  | .merge path => some path
  | _ => none

def config? : Part → Option Text
  | .config path => some path
  | _ => none

def positional? : Part → Option Text
  | .positional path => some path
  | _ => none

end Part

theorem Spells.mode_ne_merge {arguments : List Text} {parts : List Part}
    (h : Spells arguments parts) : .mode .merge ∉ parts := by
  induction h with
  | nil => exact List.not_mem_nil
  | mode hm _ ih => simp [ih, hm.symm]
  | merge _ _ ih | config _ _ ih | write _ _ ih | positional _ _ ih => simp [ih]

section Flags

variable {argument : Text}

theorem Item.ofArgument_eq_mode_iff {mode : Mode} :
    ofArgument argument = .mode mode ↔ mode ≠ .merge ∧ argument = "--".units ++ mode.name := by
  constructor
  · intro h
    unfold ofArgument at h
    split_ifs at h with hcheck hlist htrim
    · obtain rfl := Item.mode.inj h
      exact ⟨by decide, hcheck⟩
    · obtain rfl := Item.mode.inj h
      exact ⟨by decide, hlist⟩
    · obtain rfl := Item.mode.inj h
      exact ⟨by decide, htrim⟩
  · rintro ⟨hm, rfl⟩
    cases mode with
    | merge => contradiction
    | check | list | trim => rfl

theorem Item.ofArgument_eq_merge_iff :
    ofArgument argument = .merge ↔ argument = "--merge".units ∨ argument = "-m".units := by
  constructor
  · intro h
    unfold ofArgument at h
    split_ifs at h with _ _ _ hmerge
    exact hmerge
  · rintro (rfl | rfl) <;> rfl

theorem Item.ofArgument_eq_config_iff :
    ofArgument argument = .config ↔ argument = "--config".units ∨ argument = "-c".units := by
  constructor
  · intro h
    unfold ofArgument at h
    split_ifs at h with _ _ _ _ hconfig
    exact hconfig
  · rintro (rfl | rfl) <;> rfl

theorem Item.ofArgument_eq_write_iff :
    ofArgument argument = .write ↔ argument = "--write".units ∨ argument = "-w".units := by
  constructor
  · intro h
    unfold ofArgument at h
    split_ifs at h with _ _ _ _ _ hwrite
    exact hwrite
  · rintro (rfl | rfl) <;> rfl

theorem startsWith_dash :
    Text.startsWith argument ['-'.unit] = true ↔ argument.head? = some '-'.unit := by
  cases argument with
  | nil => simp [Text.startsWith]
  | cons c rest =>
      simp only [Text.startsWith, List.isPrefixOf, Bool.and_true, beq_iff_eq, List.head?_cons,
        Option.some.injEq]
      exact eq_comm

-- Every flag begins with a dash.
theorem Item.ofArgument_eq_positional_iff :
    ofArgument argument = .positional ↔ argument.head? ≠ some '-'.unit := by
  constructor
  · intro h
    unfold ofArgument at h
    split_ifs at h with _ _ _ _ _ _ hdash
    exact mt startsWith_dash.mpr hdash
  · intro h
    have hflag : ∀ flag : Text, flag.head? = some '-'.unit → argument ≠ flag := by
      rintro flag hd rfl
      exact h hd
    unfold ofArgument
    rw [if_neg (hflag _ rfl), if_neg (hflag _ rfl), if_neg (hflag _ rfl),
      if_neg (not_or.mpr ⟨hflag _ rfl, hflag _ rfl⟩), if_neg (not_or.mpr ⟨hflag _ rfl, hflag _ rfl⟩),
      if_neg (not_or.mpr ⟨hflag _ rfl, hflag _ rfl⟩), if_neg (mt startsWith_dash.mp h)]

end Flags

namespace Reading

-- Takes in one part.
def take (r : Reading) : Part → Except UsageError Reading
  | .mode mode => r.choose mode
  | .merge path =>
      match r.choose .merge with
      | .error e => .error e
      | .ok r =>
          if path = [] then .error .mergeWithoutPath
          else .ok { r with generatedFile := some path }
  | .config path =>
      if path = [] then .error .configWithoutPath else .ok { r with configPath := some path }
  | .write => .ok { r with write := true }
  | .positional path => r.place path

theorem foldlM_concat_eq_ok_iff {parts : List Part} {part : Part} {r last : Reading} :
    (parts ++ [part]).foldlM take r = .ok last ↔
      ∃ next, parts.foldlM take r = .ok next ∧ next.take part = .ok last := by
  rw [List.foldlM_append]
  simp only [List.foldlM_cons, List.foldlM_nil, bind_pure]
  cases parts.foldlM take r with
  | error e =>
      constructor
      · intro h
        contradiction
      · rintro ⟨next, hn, -⟩
        contradiction
  | ok next =>
      constructor
      · intro h
        exact ⟨next, rfl, h⟩
      · rintro ⟨other, hn, h⟩
        rwa [Except.ok.inj hn]

-- Arguments are read part by part.
theorem readAll_of_spells {arguments : List Text} {parts : List Part} (h : Spells arguments parts)
    (r : Reading) : readAll arguments r = parts.foldlM take r := by
  induction h generalizing r with
  | nil => rfl
  | @mode mode rest parts hm h ih =>
      have hitem := Item.ofArgument_eq_mode_iff.mpr ⟨hm, rfl⟩
      unfold readAll
      simp only [hitem, List.foldlM_cons, take]
      cases r.choose mode with
      | error e => rfl
      | ok next => exact ih next
  | @merge flag path rest parts hf h ih =>
      have hitem := Item.ofArgument_eq_merge_iff.mpr hf
      unfold readAll
      simp only [hitem, List.foldlM_cons, take]
      cases r.choose .merge with
      | error e => rfl
      | ok next =>
          cases path with
          | nil => rfl
          | cons c path => exact ih _
  | @config flag path rest parts hf h ih =>
      have hitem := Item.ofArgument_eq_config_iff.mpr hf
      unfold readAll
      simp only [hitem, List.foldlM_cons, take]
      cases path with
      | nil => rfl
      | cons c path => exact ih _
  | @write flag rest parts hf h ih =>
      have hitem := Item.ofArgument_eq_write_iff.mpr hf
      unfold readAll
      simp only [hitem, List.foldlM_cons, take]
      exact ih _
  | @positional path rest parts hp h ih =>
      have hitem := Item.ofArgument_eq_positional_iff.mpr hp
      unfold readAll
      simp only [hitem, List.foldlM_cons, take]
      cases r.place path with
      | error e => rfl
      | ok next => exact ih next

theorem exists_spells {arguments : List Text} {r last : Reading}
    (h : readAll arguments r = .ok last) : ∃ parts, Spells arguments parts := by
  fun_induction readAll arguments r with
  | case1 r => exact ⟨[], .nil⟩
  | case2 | case4 | case6 | case8 | case10 | case11 => contradiction
  | case3 _ _ _ mode hi _ _ ih =>
      obtain ⟨parts, hp⟩ := ih h
      obtain ⟨hm, rfl⟩ := Item.ofArgument_eq_mode_iff.mp hi
      exact ⟨_, .mode hm hp⟩
  | case5 _ _ hi _ _ _ _ _ ih =>
      obtain ⟨parts, hp⟩ := ih h
      exact ⟨_, .merge (Item.ofArgument_eq_merge_iff.mp hi) hp⟩
  | case7 _ _ hi _ _ _ ih =>
      obtain ⟨parts, hp⟩ := ih h
      exact ⟨_, .config (Item.ofArgument_eq_config_iff.mp hi) hp⟩
  | case9 _ _ _ hi ih =>
      obtain ⟨parts, hp⟩ := ih h
      exact ⟨_, .write (Item.ofArgument_eq_write_iff.mp hi) hp⟩
  | case12 _ _ _ hi _ _ ih =>
      obtain ⟨parts, hp⟩ := ih h
      exact ⟨_, .positional (Item.ofArgument_eq_positional_iff.mp hi) hp⟩

-- Arguments that make sense are read in the same way before others.
theorem readAll_append {arguments : List Text} {r last : Reading}
    (h : readAll arguments r = .ok last) (more : List Text) :
    readAll (arguments ++ more) r = readAll more last := by
  fun_induction readAll arguments r with
  | case1 r => rw [Except.ok.inj h, List.nil_append]
  | case2 | case4 | case6 | case8 | case10 | case11 => contradiction
  | case3 _ _ _ _ hi _ hc ih | case12 _ _ _ hi _ hc ih =>
      rw [← ih h, List.cons_append]
      conv_lhs => unfold readAll
      simp only [hi, hc]
  | case5 _ _ hi _ hc _ _ _ ih => simp only [List.cons_append, readAll, hi, hc, ih h]
  | case7 _ _ hi _ _ _ ih => simp only [List.cons_append, readAll, hi, ih h]
  | case9 _ _ _ hi ih =>
      rw [← ih h, List.cons_append]
      conv_lhs => unfold readAll
      simp only [hi]

-- Parts that can be taken in one after another.
structure Coherent (parts : List Part) : Prop where
  agree : ∀ first ∈ parts.filterMap Part.mode?, ∀ second ∈ parts.filterMap Part.mode?, first = second
  generated : [] ∉ parts.filterMap Part.generated?
  config : [] ∉ parts.filterMap Part.config?
  positional : (parts.filterMap Part.positional?).Pairwise fun earlier _ => earlier = []

-- The reading of some parts: of each kind the last one counts.
def ofParts (parts : List Part) : Reading where
  mode := (parts.filterMap Part.mode?).getLast?
  inputFile := (parts.filterMap Part.positional?).getLast?.getD []
  generatedFile := (parts.filterMap Part.generated?).getLast?
  configPath := (parts.filterMap Part.config?).getLast?
  write := decide (.write ∈ parts)

theorem filterMap_concat {α β : Type} (f : α → Option β) (items : List α) (item : α) :
    (items ++ [item]).filterMap f = items.filterMap f ++ (f item).toList := by
  rw [List.filterMap_append, List.filterMap_cons, List.filterMap_nil]
  cases f item <;> rfl

theorem getLast?_append_toList {α : Type} (items : List α) (last : Option α) :
    (items ++ last.toList).getLast? = last.or items.getLast? := by
  cases last <;> simp

-- The last of equal items stands for all of them.
theorem forall_mem_getLast?_iff {α : Type} {items : List α}
    (h : ∀ first ∈ items, ∀ second ∈ items, first = second) (item : α) :
    (∀ last ∈ items.getLast?, last = item) ↔ ∀ other ∈ items, other = item := by
  constructor
  · intro hlast other ho
    cases hl : items.getLast? with
    | none =>
        rw [List.getLast?_eq_none_iff.mp hl] at ho
        contradiction
    | some last => exact (h other ho last (List.mem_of_getLast? hl)).trans (hlast last hl)
  · intro hall last hl
    exact hall last (List.mem_of_getLast? hl)

-- Only the last path can be filled.
theorem getLast?_getD_eq_nil_iff {paths : List Text}
    (h : paths.Pairwise fun earlier _ => earlier = []) :
    paths.getLast?.getD [] = [] ↔ ∀ path ∈ paths, path = [] := by
  induction paths using List.reverseRecOn with
  | nil => simp
  | append_singleton before last =>
      have hbefore := (List.pairwise_append.mp h).2.2
      simp only [List.mem_singleton, forall_eq] at hbefore
      simp only [List.getLast?_concat, Option.getD_some, List.mem_append, List.mem_singleton]
      constructor
      · rintro rfl path (hp | rfl)
        · exact hbefore path hp
        · rfl
      · intro hall
        exact hall last (.inr rfl)

theorem coherent_nil : Coherent [] := ⟨by simp, List.not_mem_nil, List.not_mem_nil, .nil⟩

theorem coherent_concat_iff {parts : List Part} {part : Part} :
    Coherent (parts ++ [part]) ↔ Coherent parts ∧
      (∀ mode ∈ part.mode?, ∀ other ∈ parts.filterMap Part.mode?, other = mode) ∧
      part.generated? ≠ some [] ∧ part.config? ≠ some [] ∧
      (part.positional?.isSome → ∀ other ∈ parts.filterMap Part.positional?, other = []) := by
  constructor
  · rintro ⟨hagree, hgenerated, hconfig, hpositional⟩
    simp only [filterMap_concat, List.mem_append, Option.mem_toList, not_or] at *
    rw [List.pairwise_append] at hpositional
    refine ⟨⟨fun a ha b hb => hagree a (.inl ha) b (.inl hb), hgenerated.1, hconfig.1,
      hpositional.1⟩, fun mode hm other ho => hagree other (.inl ho) mode (.inr hm), hgenerated.2,
      hconfig.2, fun hs other ho => ?_⟩
    obtain ⟨path, hp⟩ := Option.isSome_iff_exists.mp hs
    exact hpositional.2.2 other ho path (by simp [hp])
  · rintro ⟨⟨hagree, hgenerated, hconfig, hpositional⟩, hmode, hg, hc, hblank⟩
    constructor
    · simp only [filterMap_concat, List.mem_append, Option.mem_toList]
      rintro first (hf | hf) second (hs | hs)
      · exact hagree first hf second hs
      · exact hmode second hs first hf
      · exact (hmode first hf second hs).symm
      · exact Option.mem_unique hf hs
    · simp only [filterMap_concat, List.mem_append, Option.mem_toList, not_or]
      exact ⟨hgenerated, hg⟩
    · simp only [filterMap_concat, List.mem_append, Option.mem_toList, not_or]
      exact ⟨hconfig, hc⟩
    · rw [filterMap_concat, List.pairwise_append]
      refine ⟨hpositional, ?_, fun other ho path hp => ?_⟩
      · cases part.positional? <;> simp
      · exact hblank (Option.isSome_iff_exists.mpr ⟨path, by simpa using hp⟩) other ho

theorem choose_eq_ok_iff {r next : Reading} {mode : Mode} :
    r.choose mode = .ok next ↔
      (∀ chosen ∈ r.mode, chosen = mode) ∧ next = { r with mode := some mode } := by
  unfold choose
  cases hm : r.mode with
  | none => simp [eq_comm]
  | some chosen =>
      have hsame : { r with mode := some chosen } = r := by rw [← hm]
      simp only [Option.mem_some_iff, forall_eq']
      split
      · rename_i heq
        subst heq
        simp [hsame, eq_comm]
      · rename_i hne
        simp [hne]

theorem place_eq_ok_iff {r next : Reading} {path : Text} :
    r.place path = .ok next ↔ r.inputFile = [] ∧ next = { r with inputFile := path } := by
  unfold place
  split
  · rename_i he
    rw [List.isEmpty_iff] at he
    simp [he, eq_comm]
  · rename_i he
    rw [List.isEmpty_iff] at he
    simp [he]

-- A reading that a part was added to.
def extended (r : Reading) (part : Part) : Reading :=
  ⟨part.mode?.or r.mode, part.positional?.getD r.inputFile, part.generated?.or r.generatedFile,
    part.config?.or r.configPath, r.write || decide (part = .write)⟩

-- A part can be added if it agrees with the mode chosen, has a path that is not empty, and is no
-- second input file.
theorem take_eq_ok_iff {r next : Reading} {part : Part} :
    r.take part = .ok next ↔
      ((∀ mode ∈ part.mode?, ∀ chosen ∈ r.mode, chosen = mode) ∧ part.generated? ≠ some [] ∧
        part.config? ≠ some [] ∧ (part.positional?.isSome → r.inputFile = [])) ∧
      next = r.extended part := by
  cases part with
  | mode m =>
      rw [take, choose_eq_ok_iff]
      simp [extended, Part.mode?, Part.generated?, Part.config?, Part.positional?]
  | merge path =>
      by_cases hm : ∀ chosen ∈ r.mode, chosen = .merge
      · have hc : r.choose .merge = .ok { r with mode := some .merge } :=
          choose_eq_ok_iff.mpr ⟨hm, rfl⟩
        by_cases hp : path = []
        · simp [take, hc, hp, Part.generated?]
        · have hagree : ∀ mode ∈ (Part.merge path).mode?, ∀ chosen ∈ r.mode, chosen = mode := by
            simpa [Part.mode?] using hm
          rw [and_iff_right ⟨hagree, by simpa [Part.generated?] using hp, by simp [Part.config?],
            by simp [Part.positional?]⟩]
          simp [take, hc, hp, extended, Part.mode?, Part.generated?, Part.config?,
            Part.positional?, eq_comm]
      · cases hc : r.choose .merge with
        | error e =>
            simp only [take, hc]
            constructor
            · intro h
              contradiction
            · rintro ⟨⟨hagree, -⟩, -⟩
              exact absurd (hagree .merge rfl) hm
        | ok next => exact absurd (choose_eq_ok_iff.mp hc).1 hm
  | config path =>
      by_cases hp : path = []
      · simp [take, hp, Part.config?]
      · simp [take, hp, extended, Part.mode?, Part.generated?, Part.config?, Part.positional?,
          eq_comm]
  | write =>
      simp [take, extended, Part.mode?, Part.generated?, Part.config?, Part.positional?, eq_comm]
  | positional path =>
      rw [take, place_eq_ok_iff]
      simp [extended, Part.mode?, Part.generated?, Part.config?, Part.positional?]

theorem ofParts_concat (parts : List Part) (part : Part) :
    ofParts (parts ++ [part]) = (ofParts parts).extended part := by
  have hpath : ∀ first second : Option Text,
      (first.or second).getD [] = first.getD (second.getD []) := by
    intro first second
    cases first <;> rfl
  have hwrite : decide (.write ∈ parts ++ [part]) =
      (decide (.write ∈ parts) || decide (part = .write)) := by
    simp [eq_comm]
  simp only [ofParts, extended, filterMap_concat, getLast?_append_toList, hpath, hwrite]

theorem take_ofParts_eq_ok_iff {parts : List Part} (h : Coherent parts) {part : Part}
    {next : Reading} :
    (ofParts parts).take part = .ok next ↔
      Coherent (parts ++ [part]) ∧ next = ofParts (parts ++ [part]) := by
  have hmode : ∀ mode, (∀ chosen ∈ (ofParts parts).mode, chosen = mode) ↔
      ∀ other ∈ parts.filterMap Part.mode?, other = mode := forall_mem_getLast?_iff h.agree
  have hinput : (ofParts parts).inputFile = [] ↔
      ∀ other ∈ parts.filterMap Part.positional?, other = [] := getLast?_getD_eq_nil_iff h.positional
  simp only [take_eq_ok_iff, coherent_concat_iff, ofParts_concat, hmode, hinput, h, true_and]

theorem foldlM_take_eq_ok_iff {parts : List Part} {last : Reading} :
    parts.foldlM take .initial = .ok last ↔ Coherent parts ∧ last = ofParts parts := by
  induction parts using List.reverseRecOn generalizing last with
  | nil => simp [coherent_nil, eq_comm, ofParts, initial, pure, Except.pure]
  | append_singleton parts part ih =>
      rw [foldlM_concat_eq_ok_iff]
      constructor
      · rintro ⟨next, hn, htake⟩
        obtain ⟨hc, rfl⟩ := ih.mp hn
        exact (take_ofParts_eq_ok_iff hc).mp htake
      · rintro ⟨hc, rfl⟩
        have hbefore := (coherent_concat_iff.mp hc).1
        exact ⟨ofParts parts, ih.mpr ⟨hbefore, rfl⟩, (take_ofParts_eq_ok_iff hbefore).mpr ⟨hc, rfl⟩⟩

end Reading

end Sections.CommandLine
