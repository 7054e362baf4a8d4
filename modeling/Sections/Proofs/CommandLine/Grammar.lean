import Sections.CommandLine.Program
import Sections.Proofs.CommandLine.Parts
import Sections.Proofs.FileTree.Work

namespace Sections.CommandLine

-- The invocation that some parts ask for. All modes that they name agree, no path is empty, and
-- there is one input file, which only empty arguments may precede. A path that is given again
-- replaces the one before.
structure Asks (parts : List Part) (invocation : Invocation) : Prop where
  agree : ∀ mode ∈ parts.filterMap Part.mode?, mode = invocation.mode
  unnamed : parts.filterMap Part.mode? = [] → invocation.mode = .check
  paths : [] ∉ parts.filterMap Part.generated? ∧ [] ∉ parts.filterMap Part.config?
  input : ∃ blanks, parts.filterMap Part.positional? = blanks ++ [invocation.inputFile] ∧
    (∀ path ∈ blanks, path = []) ∧ invocation.inputFile ≠ []
  generatedFile : invocation.generatedFile = (parts.filterMap Part.generated?).getLast?
  configPath : invocation.configPath = (parts.filterMap Part.config?).getLast?
  write : invocation.write = true ↔ .write ∈ parts
  output : .write ∈ parts → invocation.mode = .trim ∨ invocation.mode = .merge

theorem Reading.finish_eq_ok_iff {r : Reading} {invocation : Invocation} :
    r.finish = .ok invocation ↔
      r.inputFile ≠ [] ∧
        (r.write = true → r.mode.getD .check = .trim ∨ r.mode.getD .check = .merge) ∧
        invocation = ⟨r.mode.getD .check, r.inputFile, r.generatedFile, r.configPath, r.write⟩ := by
  unfold finish
  simp only [List.isEmpty_iff]
  split
  · rename_i he
    simp [he]
  · rename_i he
    split
    · rename_i hw
      simp [he, hw]
    · rename_i hw
      have houtput : r.write = true → r.mode.getD .check = .trim ∨ r.mode.getD .check = .merge := by
        intro hwrite
        by_contra hmode
        exact hw ⟨hwrite, not_or.mp hmode⟩
      rw [and_iff_right he, and_iff_right houtput, Except.ok.injEq, eq_comm]

-- What parts ask for is what is read of them.
theorem asks_iff {parts : List Part} {invocation : Invocation} :
    Asks parts invocation ↔
      Reading.Coherent parts ∧ (Reading.ofParts parts).finish = .ok invocation := by
  rw [Reading.finish_eq_ok_iff]
  constructor
  · intro h
    obtain ⟨blanks, hinput, hblank, hfilled⟩ := h.input
    have hmode : (Reading.ofParts parts).mode.getD .check = invocation.mode := by
      cases hm : (parts.filterMap Part.mode?).getLast? with
      | none => simp [Reading.ofParts, hm, h.unnamed (List.getLast?_eq_none_iff.mp hm)]
      | some mode => simp [Reading.ofParts, hm, h.agree mode (List.mem_of_getLast? hm)]
    have hfile : (Reading.ofParts parts).inputFile = invocation.inputFile := by
      simp [Reading.ofParts, hinput]
    have hwrite : (Reading.ofParts parts).write = invocation.write := by
      rw [Bool.eq_iff_iff, h.write]
      exact decide_eq_true_iff
    refine ⟨⟨fun first hf second hs => (h.agree first hf).trans (h.agree second hs).symm,
      h.paths.1, h.paths.2, ?_⟩, ?_, ?_, ?_⟩
    · rw [hinput, List.pairwise_append]
      refine ⟨List.pairwise_of_forall_mem_list fun path hp _ _ => hblank path hp,
        List.pairwise_singleton _ _, fun path hp _ _ => hblank path hp⟩
    · rwa [hfile]
    · rw [hmode, hwrite]
      exact fun hw => h.output (h.write.mp hw)
    · rw [hmode, hfile, hwrite, Reading.ofParts, ← h.generatedFile, ← h.configPath]
  · rintro ⟨hc, hfilled, houtput, rfl⟩
    have hwrite : (Reading.ofParts parts).write = true ↔ .write ∈ parts := decide_eq_true_iff
    refine ⟨fun mode hm => ?_, fun hnone => ?_, ⟨hc.generated, hc.config⟩, ?_, rfl, rfl, hwrite,
      fun hw => houtput (hwrite.mpr hw)⟩
    · show mode = (parts.filterMap Part.mode?).getLast?.getD .check
      cases hlast : (parts.filterMap Part.mode?).getLast? with
      | none =>
          rw [List.getLast?_eq_none_iff.mp hlast] at hm
          contradiction
      | some last => exact hc.agree mode hm last (List.mem_of_getLast? hlast)
    · simp [Reading.ofParts, hnone]
    · obtain hnone | ⟨blanks, file, hinput⟩ :=
        List.eq_nil_or_concat (parts.filterMap Part.positional?)
      · simp [Reading.ofParts, hnone] at hfilled
      · have hlast : (Reading.ofParts parts).inputFile = file := by simp [Reading.ofParts, hinput]
        have hblank := hc.positional
        rw [hinput, List.concat_eq_append, List.pairwise_append] at hblank
        refine ⟨blanks, by rw [hinput, List.concat_eq_append, hlast], fun path hp => ?_, hfilled⟩
        exact hblank.2.2 path hp file (List.mem_singleton.mpr rfl)

section Asked

variable {arguments : List Text} {parts : List Part} {invocation : Invocation}

theorem mem_generated_iff {path : Text} :
    path ∈ parts.filterMap Part.generated? ↔ .merge path ∈ parts := by
  rw [List.mem_filterMap]
  constructor
  · rintro ⟨part, hp, hpath⟩
    cases part with
    | merge other => exact Option.some.inj hpath ▸ hp
    | mode | config | write | positional => contradiction
  · intro hp
    exact ⟨_, hp, rfl⟩

theorem Asks.mode_eq_merge_iff (h : Asks parts invocation) (hs : Spells arguments parts) :
    invocation.mode = .merge ↔ ∃ path, .merge path ∈ parts := by
  constructor
  · intro hm
    cases hmodes : parts.filterMap Part.mode? with
    | nil => simp [h.unnamed hmodes] at hm
    | cons mode modes =>
        have hmem : mode ∈ parts.filterMap Part.mode? := by simp [hmodes]
        rw [h.agree mode hmem, hm] at hmem
        obtain ⟨part, hp, hpart⟩ := List.mem_filterMap.mp hmem
        cases part with
        | mode named =>
            obtain rfl := Option.some.inj hpart
            exact absurd hp hs.mode_ne_merge
        | merge path => exact ⟨path, hp⟩
        | config | write | positional => contradiction
  · rintro ⟨path, hp⟩
    exact (h.agree .merge (List.mem_filterMap.mpr ⟨_, hp, rfl⟩)).symm

-- A merge is asked for with the path of a generated file, and nothing else is.
theorem Asks.isSome_generatedFile (h : Asks parts invocation) (hs : Spells arguments parts) :
    invocation.generatedFile.isSome ↔ invocation.mode = .merge := by
  rw [h.generatedFile, h.mode_eq_merge_iff hs]
  constructor
  · intro hsome
    obtain ⟨path, hpath⟩ := Option.isSome_iff_exists.mp hsome
    exact ⟨path, mem_generated_iff.mp (List.mem_of_getLast? hpath)⟩
  · rintro ⟨path, hp⟩
    rw [Option.isSome_iff_ne_none, ne_eq, List.getLast?_eq_none_iff]
    exact List.ne_nil_of_mem (mem_generated_iff.mpr hp)

theorem Asks.generatedFile_ne_nil (h : Asks parts invocation) :
    invocation.generatedFile ≠ some [] := by
  rw [h.generatedFile]
  intro hpath
  exact h.paths.1 (List.mem_of_getLast? hpath)

theorem Spells.readAll_eq_ok_iff (hs : Spells arguments parts) {last : Reading} :
    Reading.readAll arguments .initial = .ok last ↔
      Reading.Coherent parts ∧ last = Reading.ofParts parts := by
  rw [Reading.readAll_of_spells hs, Reading.foldlM_take_eq_ok_iff]

theorem parse_eq_ok_run_iff :
    parse arguments = .ok (.run invocation) ↔
      ("--help".units ∉ arguments ∧ "-h".units ∉ arguments) ∧
        ∃ parts, Spells arguments parts ∧ Asks parts invocation := by
  by_cases hhelp : "--help".units ∈ arguments ∨ "-h".units ∈ arguments
  · rw [parse, if_pos hhelp]
    constructor
    · intro h
      exact absurd (Except.ok.inj h) (by simp)
    · rintro ⟨⟨hlong, hshort⟩, -⟩
      exact absurd hhelp (not_or.mpr ⟨hlong, hshort⟩)
  · rw [parse, if_neg hhelp, and_iff_right (not_or.mp hhelp)]
    cases hr : Reading.readAll arguments .initial with
    | error e =>
        constructor
        · intro h
          contradiction
        · rintro ⟨parts, hs, ha⟩
          rw [hs.readAll_eq_ok_iff.mpr ⟨(asks_iff.mp ha).1, rfl⟩] at hr
          contradiction
    | ok r =>
        have hfinish : r.finish.map Request.run = .ok (.run invocation) ↔
            r.finish = .ok invocation := by
          cases r.finish <;> simp [Except.map]
        simp only [hfinish]
        constructor
        · intro hf
          obtain ⟨parts, hs⟩ := Reading.exists_spells hr
          obtain ⟨hc, rfl⟩ := hs.readAll_eq_ok_iff.mp hr
          exact ⟨parts, hs, asks_iff.mpr ⟨hc, hf⟩⟩
        · rintro ⟨parts, hs, ha⟩
          obtain ⟨-, rfl⟩ := hs.readAll_eq_ok_iff.mp hr
          exact (asks_iff.mp ha).2

end Asked

section Guard

open FileWork (avoids_pure avoids_get avoids_write avoids_throw avoids_ofExcept)

variable {invocation : Invocation}

theorem readInput_avoids (path : Text) : (readInput path).Avoids .noGeneratedFile := by
  refine avoids_get.bind fun tree => ?_
  simp only
  split
  · exact avoids_ofExcept (by simp) _
  · exact avoids_throw (by simp)

theorem emit_avoids (invocation : Invocation) (messages : List Text) (text : Text) :
    (emit invocation messages text).Avoids .noGeneratedFile := by
  unfold emit
  split
  · refine avoids_get.bind fun tree => ?_
    exact (avoids_write (by simp) _ _).bind fun _ => avoids_pure _
  · exact avoids_pure _

theorem generatedPath_avoids (h : invocation.generatedFile.isSome)
    (hne : invocation.generatedFile ≠ some []) :
    (generatedPath invocation).Avoids .noGeneratedFile := by
  unfold generatedPath
  cases hg : invocation.generatedFile with
  | none => simp [hg] at h
  | some path =>
      cases path with
      | nil => exact absurd hg hne
      | cons c path => exact avoids_pure _

-- The guard of a run against a merge without a generated file is never needed.
theorem runInvocation_avoids (h : invocation.mode = .merge → invocation.generatedFile.isSome)
    (hne : invocation.generatedFile ≠ some []) (env : Environment) :
    (runInvocation invocation env).Avoids .noGeneratedFile := by
  refine avoids_get.bind fun tree => ?_
  refine (avoids_ofExcept (by simp) _).bind fun settings => ?_
  refine (readInput_avoids _).bind fun content => ?_
  refine (avoids_ofExcept (by simp) _).bind fun options => ?_
  cases hm : invocation.mode with
  | check => exact avoids_pure _
  | list => exact (avoids_ofExcept (by simp) _).bind fun root => avoids_pure _
  | trim => exact emit_avoids _ _ _
  | merge =>
      refine (generatedPath_avoids (h hm) hne).bind fun path => ?_
      refine (readInput_avoids _).bind fun generated => ?_
      refine (avoids_ofExcept (by simp) _).bind fun merged => ?_
      exact emit_avoids _ _ _

end Guard

-- The arguments that make sense are those that spell parts of which an invocation can be made. A
-- merge then has its generated file, so that no run stops for want of one.
theorem parse_grammar (arguments : List Text) (invocation : Invocation) :
    (parse arguments = .ok (.run invocation) ↔
      ("--help".units ∉ arguments ∧ "-h".units ∉ arguments) ∧
        ∃ parts, Spells arguments parts ∧ Asks parts invocation) ∧
    (parse arguments = .ok (.run invocation) →
      (invocation.generatedFile.isSome ↔ invocation.mode = .merge) ∧
      ∀ env tree, ((runInvocation invocation env).perform tree).1 ≠ .error .noGeneratedFile) := by
  refine ⟨parse_eq_ok_run_iff, fun h => ?_⟩
  obtain ⟨-, parts, hs, ha⟩ := parse_eq_ok_run_iff.mp h
  have hgenerated := ha.isSome_generatedFile hs
  exact ⟨hgenerated, runInvocation_avoids hgenerated.mpr ha.generatedFile_ne_nil⟩

section Lookalikes

-- Paths that look like flags, and an empty argument before the input file.
def lookalikes : List Text :=
  ["-m".units, "--list".units, [], "-c".units, "--check".units, "a".units, "--write".units,
    "--merge".units, "-x".units]

def lookalikeInvocation : Invocation :=
  ⟨.merge, "a".units, some "-x".units, some "--check".units, true⟩

theorem parse_grammar_lookalikes :
    parse lookalikes = .ok (.run lookalikeInvocation) ∧
      (∃ parts, Spells lookalikes parts ∧ Asks parts lookalikeInvocation) ∧
      ∀ env tree,
        ((runInvocation lookalikeInvocation env).perform tree).1 ≠ .error .noGeneratedFile := by
  obtain ⟨haccepts, hmerges⟩ := parse_grammar lookalikes lookalikeInvocation
  have h : parse lookalikes = .ok (.run lookalikeInvocation) := rfl
  exact ⟨h, (haccepts.mp h).2, (hmerges h).2⟩

end Lookalikes

end Sections.CommandLine
