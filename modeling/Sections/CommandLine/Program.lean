import Sections.Check
import Sections.CommandLine.Arguments
import Sections.Edit.LineRule
import Sections.FileTree.Work
import Sections.Merge
import Sections.Outline
import Sections.Settings

namespace Sections.CommandLine

inductive RunError where
  | load (e : LoadError)
  | inputNotFound (path : Text)
  | unreadable (cause : FileError)
  | unwritable (printed : List Text) (cause : FileError)
  | limit (e : Schedule.LimitError)
  | edit (e : EditError)
  | noGeneratedFile
  deriving Repr, DecidableEq

def RunError.message : RunError → Text
  | .load e => e.message
  | .inputNotFound path => "Input file not found: ".units ++ path
  | .unreadable cause => cause.message
  | .unwritable _ cause => cause.message
  | .limit e => e.message
  | .edit e => e.message
  | .noGeneratedFile => UsageError.mergeWithoutPath.message

-- The messages that were printed before the failure.
def RunError.printed : RunError → List Text
  | .unwritable printed _ => printed
  | _ => []

def usage : Text :=
  ("\nUsage: section-edit <file> [options]\n" ++
    "\n" ++
    "Check, inspect and edit files containing SECTION-START[name] / SECTION-END markers.\n" ++
    "\n" ++
    "Modes:\n" ++
    "  --check                 Report malformed, unmatched and unclosed markers (default)\n" ++
    "  --list                  Print the section outline\n" ++
    "  --trim                  Remove trailing whitespace from every line\n" ++
    "  -m, --merge <generated> Merge hand-edited sections of <file> into <generated>\n" ++
    "\n" ++
    "Options:\n" ++
    "  -w, --write             Write the result back to <file> (trim and merge only)\n" ++
    "  -c, --config <path>     Path to section-editor.json\n" ++
    "                          (defaults to SECTION_EDITOR_CONFIG env var or ./section-editor.json)\n" ++
    "  -h, --help              Show this help message\n" ++
    "\n" ++
    "Examples:\n" ++
    "  section-edit src/generated.ts\n" ++
    "  section-edit src/generated.ts --merge build/generated.ts --write\n").units

def failureMessage (message : Text) : Text := "Error: ".units ++ message

-- Absolute paths stay as they are written.
def resolve (tree : FileTree) (path : Text) : Text :=
  if Route.isAbsolute path then path else (tree.workingDirectory.resolve path).text

-- What a run prints, a message at a time on the second channel, and its exit code.
structure Printed where
  exit : Nat
  output : Text
  messages : List Text

def readInput (path : Text) : FileWork RunError Text := do
  let tree ← get
  let route := resolve tree path
  if tree.has route then .ofExcept .unreadable (tree.readText route)
  else throw (.inputNotFound route)

-- A merge needs the path of the generated text.
def generatedPath (invocation : Invocation) : FileWork RunError Text :=
  match invocation.generatedFile with
  | some (c :: path) => return c :: path
  | _ => throw .noGeneratedFile

-- The result goes to the input file on request, otherwise to the output.
def emit (invocation : Invocation) (messages : List Text) (text : Text) :
    FileWork RunError Printed := do
  if invocation.write then
    let tree ← get
    .write (.unwritable messages) (resolve tree invocation.inputFile) text
    return ⟨0, [], messages ++ ["Wrote ".units ++ invocation.inputFile]⟩
  else return ⟨0, text, messages⟩

def droppedMessage (names : List Text) : List Text :=
  if names.isEmpty then []
  else ["Dropped sections: ".units ++ List.intercalate ", ".units names]

-- One run with its settings. Nothing is written unless all that it needs was read and
-- understood.
def perform (invocation : Invocation) (settings : Settings) : FileWork RunError Printed := do
  let content ← readInput invocation.inputFile
  let options ← .ofExcept .limit settings.options
  match invocation.mode with
  | .check =>
      let report := Check.check content
      return ⟨if report.valid then 0 else 1,
        report.toNumbers.format invocation.inputFile ++ ['\n'.unit], []⟩
  | .list =>
      let root ← .ofExcept .edit (options.readTree content)
      return ⟨0, Text.unlines ['\n'.unit] (Outline.lines root.outline), []⟩
  | .trim => emit invocation [] (trimText settings.lineSeparator content)
  | .merge =>
      let path ← generatedPath invocation
      let generated ← readInput path
      let merged ← .ofExcept .edit (options.merge generated content)
      emit invocation (droppedMessage merged.dropped) merged.text

-- The paths of all files that a run can ask for.
def paths (invocation : Invocation) (env : Environment) : List Text :=
  (invocation.configPath.or env.config).toList ++ [Settings.defaultFile, invocation.inputFile] ++
    invocation.generatedFile.toList

def runInvocation (invocation : Invocation) (env : Environment) : FileWork RunError Printed := do
  let settings ← .ofExcept .load (Settings.load (← get) invocation.configPath env)
  perform invocation settings

-- What a run leaves behind: what it printed, its exit code and the files. Without an
-- exit code nothing was run.
structure Outcome where
  exit : Option Nat
  output : Text
  messages : List Text
  tree : FileTree

-- Arguments that make no sense are answered with the usage, and so is a request for
-- help. Every failure is one message, behind those that were printed before it.
def run (arguments : List Text) (env : Environment) (tree : FileTree) : Outcome :=
  match parse arguments with
  | .error e => ⟨some 1, [], [failureMessage e.message, usage], tree⟩
  | .ok .help => ⟨some 0, [], [usage], tree⟩
  | .ok (.run invocation) =>
      match (runInvocation invocation env).perform tree with
      | (.ok printed, after) => ⟨some printed.exit, printed.output, printed.messages, after⟩
      | (.error e, after) => ⟨some 1, [], e.printed ++ [failureMessage e.message], after⟩

-- Names under which the program runs.
def programNames : List Text := ["cli.js".units, "cli.ts".units, "section-edit".units]

-- Under any other name nothing happens.
def runAs (program : Option Text) (arguments : List Text) (env : Environment) (tree : FileTree) :
    Outcome :=
  if program.any fun path => programNames.any (Text.endsWith path) then run arguments env tree
  else ⟨none, [], [], tree⟩

end Sections.CommandLine
