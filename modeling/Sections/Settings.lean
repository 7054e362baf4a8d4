import Sections.Edit.SectionEditor
import Sections.FileTree
import Sections.Json.Reader

namespace Sections

-- The variables that settings are read from.
structure Environment where
  config : Option Text
  lineSeparator : Option Text
  concurrency : Option Text
  deriving Repr

-- Where relative paths start, what ends a line, and how many sections may be edited at
-- once, zero for one after another.
structure Settings where
  baseDir : Text
  lineSeparator : Text
  concurrency : Number
  deriving Repr, DecidableEq

inductive SettingsError where
  | notFound (path : Text)
  | notReadable (path : Text) (cause : FileError)
  | notJson (path : Text)
  | notObject (path : Text)
  | badBaseDir (shown : Text)
  | badSeparator (shown : Text)
  | badConcurrency (shown : Text)
  | noBaseDir (path : Text)
  deriving Repr, DecidableEq

-- A bad value that has no plain text cannot be shown, and fails in a way of its own.
inductive LoadError where
  | settings (e : SettingsError)
  | unprintable
  deriving Repr, DecidableEq

namespace Settings

-- What ends a line on the platform.
def platformSeparator : Text := ['\n'.unit]

def separatorNames : List Text := ["lf".units, "crlf".units, "cr".units, "os".units]

-- The separators by name; the last one is that of the platform.
def separators (platform : Text) : List (Text × Text) :=
  separatorNames.zip [['\n'.unit], ['\r'.unit, '\n'.unit], ['\r'.unit], platform]

end Settings

def SettingsError.message : SettingsError → Text
  | .notFound path => "Configuration not found: ".units ++ path
  | .notReadable path cause =>
      "Configuration not readable: ".units ++ path ++ " (".units ++ cause.message ++ [')'.unit]
  | .notJson path => "Invalid JSON in configuration ".units ++ path ++ ": <detail>".units
  | .notObject path => "Configuration ".units ++ path ++ " must contain a JSON object".units
  | .badBaseDir shown => "Invalid baseDir: ".units ++ shown ++ ". Must be a string".units
  | .badSeparator shown =>
      "Invalid lineSeparator: ".units ++ shown ++ ". Must be one of: ".units ++
        List.intercalate ", ".units Settings.separatorNames
  | .badConcurrency shown =>
      "Invalid concurrency: ".units ++ shown ++ ". Must be a non-negative integer".units
  | .noBaseDir path => "Base directory does not exist: ".units ++ path

def LoadError.message : LoadError → Text
  | .settings e => e.message
  | .unprintable => "Cannot convert object to primitive value".units

namespace Settings

-- The failure of a value, which may be absent.
def refusal (value : Option Json) (error : Text → SettingsError) : LoadError :=
  match (match value with
      | none => some "undefined".units
      | some value => value.display?) with
  | some shown => .settings (error shown)
  | none => .unprintable

def baseDirOf (value : Json) : Except LoadError Text :=
  match value with
  | .string path => .ok path
  | value => .error (refusal (some value) .badBaseDir)

-- The separator of a name.
def separatorOn (platform : Text) (value : Option Json) : Except LoadError Text :=
  match value with
  | some (.string name) =>
      match (separators platform).lookup name with
      | some separator => .ok separator
      | none => .error (refusal value .badSeparator)
  | _ => .error (refusal value .badSeparator)

def separatorOf (value : Option Json) : Except LoadError Text :=
  separatorOn platformSeparator value

-- A number, or a text that is one, not negative and whole. A blank text is no number.
def concurrencyOf (value : Json) : Except LoadError Number :=
  let read :=
    match value with
    | .string text => if (Text.trim text).isEmpty then none else some (Number.ofText text)
    | .number n => some n
    | _ => none
  match read with
  | some n => if n.toNat?.isSome then .ok n else .error (refusal value .badConcurrency)
  | none => .error (refusal value .badConcurrency)

def defaultFile : Text := "section-editor.json".units

-- The fields of a configuration file.
def readFile (tree : FileTree) (path : Text) : Except SettingsError Json :=
  match tree.readText path with
  | .error cause => .error (.notReadable path cause)
  | .ok text =>
      match Json.parse? text with
      | none => .error (.notJson path)
      | some (.object fields) => .ok (.object fields)
      | some _ => .error (.notObject path)

-- The fields to start from and the directory that they are relative to. A file that is
-- asked for must be there; the default file may be missing.
def source (tree : FileTree) (asked : Option Text) : Except SettingsError (Json × Route) :=
  let directory := tree.workingDirectory
  match asked with
  | some (c :: path) =>
      let route := directory.resolve (c :: path)
      if tree.has route.text then (readFile tree route.text).map (·, route.dropLast)
      else .error (.notFound route.text)
  | _ =>
      let path := (directory.resolve defaultFile).text
      if tree.has path then (readFile tree path).map (·, directory)
      else .ok (.object [], directory)

-- A field, unless it is absent or null.
def field (name : String) (fields : Json) : Option Json :=
  Json.present? (fields.field? name.units)

-- A variable wins over a field, and a field over the default.
def chosen (fromVariable : Option Text) (name : String) (default : Json) (fields : Json) : Json :=
  ((fromVariable.map .string).or (field name fields)).getD default

def baseDirValue (fields : Json) : Json := chosen none "baseDir" (.string ['.'.unit]) fields

def separatorValue (env : Environment) (fields : Json) : Json :=
  chosen env.lineSeparator "lineSeparator" (.string "os".units) fields

def concurrencyValue (env : Environment) (fields : Json) : Json :=
  chosen env.concurrency "concurrency" (.number (.zero false)) fields

-- The path wins over the variable that names a file. No variable stands for the base directory.
def loadOn (platform : Text) (tree : FileTree) (path : Option Text) (env : Environment) :
    Except LoadError Settings :=
  match source tree (path.or env.config) with
  | .error e => .error (.settings e)
  | .ok (fields, directory) => do
      let baseDir ← baseDirOf (baseDirValue fields)
      let separator ← separatorOn platform (some (separatorValue env fields))
      let concurrency ← concurrencyOf (concurrencyValue env fields)
      .ok ⟨(directory.resolve baseDir).text, separator, concurrency⟩

def load (tree : FileTree) (path : Option Text) (env : Environment) : Except LoadError Settings :=
  loadOn platformSeparator tree path env

-- The base directory must be there.
def validate (tree : FileTree) (settings : Settings) : Except SettingsError Unit :=
  if tree.hasDirectory settings.baseDir then .ok () else .error (.noBaseDir settings.baseDir)

def options (settings : Settings) : Except Schedule.LimitError Options :=
  (Schedule.Strategy.ofConcurrency settings.concurrency).map (⟨settings.lineSeparator, ·⟩)

-- Relative paths start at the base directory, absolute ones stay as they are written.
def resolve (tree : FileTree) (settings : Settings) (path : Text) : Text :=
  if Route.isAbsolute path then path
  else ((tree.workingDirectory.resolve settings.baseDir).resolve path).text

end Settings

end Sections
