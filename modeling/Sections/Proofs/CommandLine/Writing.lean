import Sections.CommandLine.Program
import Sections.Proofs.CommandLine.Parts
import Sections.Proofs.FileTree
import Sections.Proofs.FileTree.Work

namespace Sections.CommandLine

open FileWork (Reads reads_get reads_ofExcept reads_throw reads_pure gives_ofExcept)

section Arguments

variable {arguments : List Text} {invocation : Invocation}

theorem Reading.finish_write {r : Reading} (h : r.finish = .ok invocation)
    (hmode : invocation.mode = .trim ∨ invocation.mode = .merge) :
    { r with write := true : Reading }.finish = .ok { invocation with write := true } := by
  unfold finish at h ⊢
  simp only at h ⊢
  split at h
  · contradiction
  rename_i hinput
  split at h
  · contradiction
  rw [← Except.ok.inj h] at hmode ⊢
  rw [if_neg hinput, if_neg]
  rintro ⟨-, htrim, hmerge⟩
  exact hmode.elim htrim hmerge

-- A run that prints can be asked to write.
theorem parse_write (h : parse arguments = .ok (.run invocation))
    (hmode : invocation.mode = .trim ∨ invocation.mode = .merge) :
    parse (arguments ++ ["--write".units]) = .ok (.run { invocation with write := true }) := by
  unfold parse at h
  split at h
  · exact absurd (Except.ok.inj h) nofun
  rename_i hhelp
  split at h
  · contradiction
  rename_i r hr
  cases hf : r.finish with
  | error e =>
      rw [hf] at h
      contradiction
  | ok finished =>
      rw [hf] at h
      obtain rfl : finished = invocation := Request.run.inj (Except.ok.inj h)
      have hread : Reading.readAll (arguments ++ ["--write".units]) .initial =
          .ok { r with write := true } := by
        rw [Reading.readAll_append hr]
        rfl
      have hnone : ¬("--help".units ∈ arguments ++ ["--write".units] ∨
          "-h".units ∈ arguments ++ ["--write".units]) := by
        have hnew : "--help".units ≠ "--write".units ∧ "-h".units ≠ "--write".units := by decide
        simpa [hnew] using hhelp
      rw [parse, if_neg hnone, hread]
      simp only [Reading.finish_write hf hmode, Except.map]

end Arguments

variable {tree : FileTree} {path text : Text} {invocation : Invocation} {settings : Settings}

theorem readInput_reads (path : Text) : (readInput path).Reads := by
  refine reads_get.bind fun tree => ?_
  simp only
  split
  · exact reads_ofExcept _ _
  · exact reads_throw _

theorem generatedPath_reads (invocation : Invocation) : (generatedPath invocation).Reads := by
  unfold generatedPath
  split
  · exact reads_pure _
  · exact reads_throw _

theorem readText_of_readInput (h : (readInput path).Gives tree text) :
    tree.readText (resolve tree path) = .ok text := by
  unfold FileWork.Gives readInput at h
  simp only [FileWork.perform_bind, FileWork.perform_get] at h
  split at h
  · exact gives_ofExcept.mp h
  · contradiction

-- A run that prints, and the same run asked to write.
inductive Redirected (tree : FileTree) (inputFile : Text) :
    Except RunError Printed × FileTree → Except RunError Printed × FileTree → Prop where
  | failed (e : RunError) : Redirected tree inputFile (.error e, tree) (.error e, tree)
  | written (messages : List Text) {text : Text} {after : FileTree}
      (hw : tree.Writable (resolve tree inputFile))
      (h : tree.Overwritten (resolve tree inputFile) text after) :
      Redirected tree inputFile (.ok ⟨0, text, messages⟩, tree)
        (.ok ⟨0, [], messages ++ ["Wrote ".units ++ inputFile]⟩, after)
  | refused (messages : List Text) {text : Text} (hw : ¬tree.Writable (resolve tree inputFile)) :
      Redirected tree inputFile (.ok ⟨0, text, messages⟩, tree)
        (.error (.unwritable messages (.denied (Text.toWellFormed (resolve tree inputFile)))), tree)

theorem emit_redirected (invocation : Invocation) {before : Text}
    (h : (readInput invocation.inputFile).Gives tree before) (hw : invocation.write = false)
    (messages : List Text) (text : Text) :
    Redirected tree invocation.inputFile ((emit invocation messages text).perform tree)
      ((emit { invocation with write := true } messages text).perform tree) := by
  have hprint : (emit invocation messages text).perform tree = (.ok ⟨0, text, messages⟩, tree) := by
    simp [emit, hw]
  rw [hprint]
  rcases FileTree.writeText_of_readText (readText_of_readInput h) text with
    ⟨hw, after, hafter, hfile⟩ | ⟨hw, hrefused⟩
  · simp only [emit, if_true, FileWork.perform_bind, FileWork.perform_get,
      FileWork.perform_write_of_ok hafter, FileWork.perform_pure]
    exact .written messages hw hfile
  · simp only [emit, if_true, FileWork.perform_bind, FileWork.perform_get,
      FileWork.perform_write_of_error hrefused]
    exact .refused messages hw

theorem perform_redirected (hmode : invocation.mode = .trim ∨ invocation.mode = .merge)
    (hw : invocation.write = false) :
    Redirected tree invocation.inputFile ((perform invocation settings).perform tree)
      ((perform { invocation with write := true } settings).perform tree) := by
  refine (readInput_reads _).perform_bind₂ _ _ .failed fun content hc => ?_
  refine (reads_ofExcept _ _).perform_bind₂ _ _ .failed fun options _ => ?_
  rcases hmode with hm | hm
  · simp only [hm]
    exact emit_redirected invocation hc hw _ _
  · simp only [hm]
    refine (generatedPath_reads invocation).perform_bind₂ _ _ .failed fun path _ => ?_
    refine (readInput_reads _).perform_bind₂ _ _ .failed fun generated _ => ?_
    refine (reads_ofExcept _ _).perform_bind₂ _ _ .failed fun merged _ => ?_
    exact emit_redirected invocation hc hw _ _

theorem perform_reads (hmode : invocation.mode = .check ∨ invocation.mode = .list) :
    (perform invocation settings).Reads := by
  refine (readInput_reads _).bind fun content => ?_
  refine (reads_ofExcept _ _).bind fun options => ?_
  rcases hmode with hm | hm
  · simp only [hm]
    exact reads_pure _
  · simp only [hm]
    exact (reads_ofExcept _ _).bind fun root => reads_pure _

theorem runInvocation_redirected (hmode : invocation.mode = .trim ∨ invocation.mode = .merge)
    (hw : invocation.write = false) (env : Environment) :
    Redirected tree invocation.inputFile ((runInvocation invocation env).perform tree)
      ((runInvocation { invocation with write := true } env).perform tree) := by
  refine reads_get.perform_bind₂ _ _ .failed fun files _ => ?_
  refine (reads_ofExcept _ _).perform_bind₂ _ _ .failed fun settings _ => ?_
  exact perform_redirected hmode hw

theorem runInvocation_reads (hmode : invocation.mode = .check ∨ invocation.mode = .list)
    (env : Environment) : (runInvocation invocation env).Reads :=
  reads_get.bind fun _ => (reads_ofExcept _ _).bind fun _ => perform_reads hmode

def Outcome.ofResult : Except RunError Printed × FileTree → Outcome
  | (.ok printed, after) => ⟨some printed.exit, printed.output, printed.messages, after⟩
  | (.error e, after) => ⟨some 1, [], e.printed ++ [failureMessage e.message], after⟩

theorem run_eq_ofResult {arguments : List Text} (h : parse arguments = .ok (.run invocation))
    (env : Environment) :
    run arguments env tree = .ofResult ((runInvocation invocation env).perform tree) := by
  simp only [run, h]
  generalize (runInvocation invocation env).perform tree = done
  obtain ⟨result, after⟩ := done
  cases result <;> rfl

-- What a run that writes leaves behind, beside the same run without writing.
structure Outcome.WrittenFor (tree : FileTree) (inputFile : Text) (printed written : Outcome) :
    Prop where
  exit : written.exit = printed.exit
  output : written.output = []
  messages : written.messages = printed.messages ++ ["Wrote ".units ++ inputFile]
  file : tree.Overwritten (resolve tree inputFile) printed.output written.tree

-- What it leaves behind where the system lets nobody write to the file.
structure Outcome.RefusedFor (tree : FileTree) (inputFile : Text) (printed written : Outcome) :
    Prop where
  exit : written.exit = some 1
  output : written.output = []
  messages : written.messages = printed.messages ++
    [failureMessage (FileError.denied (Text.toWellFormed (resolve tree inputFile))).message]
  tree : written.tree = tree

section Regenerated

def handEdited : Text :=
  "SECTION-START[a]\né\nSECTION-END\nSECTION-START[b]\nSECTION-END".units

-- The generated file lost a section that was edited by hand.
def regenerated (denied : List (Access × Route)) : FileTree :=
  ⟨["w".units],
    [(["w".units, "f".units], .file (Text.encode handEdited)),
      (["g".units], .file (Text.encode "SECTION-START[a]\nSECTION-END".units))],
    denied⟩

def mergeArguments : List Text := ["./f".units, "-m".units, "/g".units]

def mergeInvocation : Invocation := ⟨.merge, "./f".units, some "/g".units, none, false⟩

theorem parse_mergeArguments : parse mergeArguments = .ok (.run mergeInvocation) := rfl

end Regenerated

end Sections.CommandLine
