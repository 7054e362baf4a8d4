import Sections.Text

namespace Sections.CommandLine

inductive Mode where
  | check
  | list
  | trim
  | merge
  deriving Repr, DecidableEq

def Mode.name : Mode → Text
  | .check => "check".units
  | .list => "list".units
  | .trim => "trim".units
  | .merge => "merge".units

-- What a run is asked to do.
structure Invocation where
  mode : Mode
  inputFile : Text
  generatedFile : Option Text
  configPath : Option Text
  write : Bool
  deriving Repr, DecidableEq

inductive UsageError where
  | conflictingModes (first second : Mode)
  | mergeWithoutPath
  | configWithoutPath
  | unexpected (argument : Text)
  | unknown (option : Text)
  | noInputFile
  | writeWithoutOutput
  deriving Repr, DecidableEq

def UsageError.message : UsageError → Text
  | .conflictingModes first second =>
      "Conflicting modes: --".units ++ first.name ++ " and --".units ++ second.name
  | .mergeWithoutPath => "--merge requires a path argument".units
  | .configWithoutPath => "--config requires a path argument".units
  | .unexpected argument => "Unexpected argument: ".units ++ argument
  | .unknown option => "Unknown option: ".units ++ option
  | .noInputFile => "Input file required".units
  | .writeWithoutOutput => "--write is only supported with --trim and --merge".units

-- What one argument means where an option may stand.
inductive Item where
  | mode (mode : Mode)
  | merge
  | config
  | write
  | unknown
  | positional
  deriving Repr, DecidableEq

def Item.ofArgument (argument : Text) : Item :=
  if argument = "--check".units then .mode .check
  else if argument = "--list".units then .mode .list
  else if argument = "--trim".units then .mode .trim
  else if argument = "--merge".units ∨ argument = "-m".units then .merge
  else if argument = "--config".units ∨ argument = "-c".units then .config
  else if argument = "--write".units ∨ argument = "-w".units then .write
  else if Text.startsWith argument ['-'.unit] then .unknown
  else .positional

-- The options read so far. No input file yet is the empty path.
structure Reading where
  mode : Option Mode
  inputFile : Text
  generatedFile : Option Text
  configPath : Option Text
  write : Bool
  deriving Repr, DecidableEq

namespace Reading

def initial : Reading := ⟨none, [], none, none, false⟩

-- A mode may be named again, but not another one.
def choose (r : Reading) (mode : Mode) : Except UsageError Reading :=
  match r.mode with
  | none => .ok { r with mode := some mode }
  | some chosen =>
      if chosen = mode then .ok r else .error (.conflictingModes chosen mode)

-- An empty path names no input file and can be followed by another.
def place (r : Reading) (path : Text) : Except UsageError Reading :=
  if r.inputFile.isEmpty then .ok { r with inputFile := path } else .error (.unexpected path)

-- Reads the arguments in order. The argument after `--merge` or `--config` is its path,
-- whatever it looks like.
def readAll : List Text → Reading → Except UsageError Reading
  | [], r => .ok r
  | argument :: rest, r =>
      match Item.ofArgument argument with
      | .mode mode =>
          match r.choose mode with
          | .error e => .error e
          | .ok r => readAll rest r
      | .merge =>
          match r.choose .merge with
          | .error e => .error e
          | .ok r =>
              match rest with
              | (c :: path) :: rest => readAll rest { r with generatedFile := some (c :: path) }
              | _ => .error .mergeWithoutPath
      | .config =>
          match rest with
          | (c :: path) :: rest => readAll rest { r with configPath := some (c :: path) }
          | _ => .error .configWithoutPath
      | .write => readAll rest { r with write := true }
      | .unknown => .error (.unknown argument)
      | .positional =>
          match r.place argument with
          | .error e => .error e
          | .ok r => readAll rest r

-- There must be an input file, and only trimming and merging write. Checking is the
-- mode where none is named.
def finish (r : Reading) : Except UsageError Invocation :=
  let mode := r.mode.getD .check
  if r.inputFile.isEmpty then .error .noInputFile
  else if r.write ∧ mode ≠ .trim ∧ mode ≠ .merge then .error .writeWithoutOutput
  else .ok ⟨mode, r.inputFile, r.generatedFile, r.configPath, r.write⟩

end Reading

-- Help is asked for, or a run.
inductive Request where
  | help
  | run (invocation : Invocation)
  deriving Repr, DecidableEq

-- A request for help anywhere wins over all else.
def parse (arguments : List Text) : Except UsageError Request :=
  if "--help".units ∈ arguments ∨ "-h".units ∈ arguments then .ok .help
  else
    match Reading.readAll arguments .initial with
    | .error e => .error e
    | .ok r => r.finish.map .run

end Sections.CommandLine
