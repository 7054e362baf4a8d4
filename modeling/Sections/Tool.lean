import Sections.Check
import Sections.Edit.LineRule
import Sections.FileTree.Work
import Sections.Json.Printer
import Sections.Merge
import Sections.Outline
import Sections.Settings

namespace Sections

-- The operations on a text, offered by name.
inductive Tool where
  | list
  | replace
  | merge
  | check
  | trim
  deriving Repr, DecidableEq

inductive ToolError where
  | badSource
  | badReplacement
  | badMerge
  | unreadable (path : Text) (cause : FileError)
  | unwritable (cause : FileError)
  | limit (e : Schedule.LimitError)
  | edit (e : EditError)
  deriving Repr, DecidableEq

def ToolError.message : ToolError → Text
  | .badSource =>
      "Invalid arguments: expected \x7b text: string \x7d or \x7b file_path: string \x7d".units
  | .badReplacement =>
      ("Invalid arguments: expected \x7b text | file_path, sections: Record<string, string>, " ++
        "write?: boolean \x7d").units
  | .badMerge =>
      ("Invalid arguments: expected \x7b generated | generated_file, existing | existing_file, " ++
        "write?: boolean \x7d").units
  | .unreadable path cause => "Failed to read file ".units ++ path ++ ": ".units ++ cause.message
  | .unwritable cause => cause.message
  | .limit e => e.message
  | .edit e => e.message

-- A text given as it is or by the path of its file.
inductive Source where
  | text (text : Text)
  | file (path : Text)
  deriving Repr, DecidableEq

-- The arguments of a tool call. The file to write back to is that of the source that
-- is edited, if it has one.
inductive ToolCall where
  | list (source : Source)
  | replace (source : Source) (replacements : Table) (write : Bool)
  | merge (generated existing : Source) (write : Bool)
  | check (source : Source)
  | trim (source : Source)
  deriving Repr

namespace Tool

def ofName? (name : Text) : Option Tool :=
  [("list_sections".units, Tool.list), ("replace_sections".units, .replace),
   ("merge_sections".units, .merge), ("check_sections".units, .check),
   ("trim_trailing_whitespace".units, .trim)].lookup name

-- Exactly one of a text and a path, and a text in each.
def source? (textField pathField : String) (args : Json) : Option Source :=
  match args.field? textField.units, args.field? pathField.units with
  | some (.string text), none => some (.text text)
  | none, some (.string path) => some (.file path)
  | _, _ => none

-- An absent flag is not set.
def flag? (name : String) (args : Json) : Option Bool :=
  match args.field? name.units with
  | none => some false
  | some (.bool value) => some value
  | some _ => none

def tableOf? : List (Text × Json) → Option Table
  | [] => some []
  | (name, .string text) :: rest => (tableOf? rest).map ((name, text) :: ·)
  | _ :: _ => none

def table? (name : String) (args : Json) : Option Table :=
  match args.field? name.units with
  | some (.object fields) => tableOf? fields
  | _ => none

-- Arguments must be there, of the right kinds, and an object.
def call? (tool : Tool) (args : Option Json) : Except ToolError ToolCall :=
  let args := args.getD .null
  let source := source? "text" "file_path" args
  match tool with
  | .list => (source.map .list).elim (.error .badSource) .ok
  | .check => (source.map .check).elim (.error .badSource) .ok
  | .trim => (source.map .trim).elim (.error .badSource) .ok
  | .replace =>
      match source, table? "sections" args, flag? "write" args with
      | some source, some replacements, some write => .ok (.replace source replacements write)
      | _, _, _ => .error .badReplacement
  | .merge =>
      match source? "generated" "generated_file" args, source? "existing" "existing_file" args,
          flag? "write" args with
      | some generated, some existing, some write => .ok (.merge generated existing write)
      | _, _, _ => .error .badMerge

end Tool

-- What a tool gives back.
inductive Answer where
  | outline (outline : List Outline)
  | replaced (text : Text) (unmatched : List Text)
  | merged (merged : Merged)
  | report (report : Check.Report Nat)
  | text (text : Text)

namespace Answer

mutual

def outlineJson : Outline → Json
  | ⟨name, children⟩ =>
      .object [("name".units, .string name), ("children".units, .array (outlinesJson children))]

def outlinesJson : List Outline → List Json
  | [] => []
  | entry :: rest => outlineJson entry :: outlinesJson rest

end

def severityName : Check.Severity → Text
  | .error => "error".units
  | .warning => "warning".units

def issueJson (issue : Check.Issue Nat) : Json :=
  .object
    [("line".units, .ofNat issue.line), ("severity".units, .string (severityName issue.severity)),
     ("code".units, .string issue.code), ("message".units, .string issue.message)]

def reportJson (r : Check.Report Nat) : Json :=
  .object
    [("valid".units, .bool r.valid), ("errors".units, .ofNat r.errors),
     ("warnings".units, .ofNat r.warnings), ("issues".units, .array (r.issues.map issueJson))]

-- Everything but trimmed text is written as a document.
def written : Answer → Text
  | .outline entries => (Json.array (outlinesJson entries)).print
  | .replaced output names =>
      (Json.object [("text".units, .string output), ("unmatched".units, .ofTexts names)]).print
  | .merged m =>
      (Json.object
        [("text".units, .string m.text), ("merged".units, .ofTexts m.merged),
         ("dropped".units, .ofTexts m.dropped)]).print
  | .report r => (reportJson r).print
  | .text output => output

-- The answer as the only item of a message.
def json (answer : Answer) : Json :=
  .object
    [("content".units,
      .array [.object [("type".units, .string "text".units),
        ("text".units, .string answer.written)]])]

end Answer

namespace ToolCall

def readSource (settings : Settings) : Source → FileWork ToolError Text
  | .text text => return text
  | .file path => do
      let tree ← get
      let route := settings.resolve tree path
      .ofExcept (.unreadable route) (tree.readText route)

-- A text goes back only to the file that it was read from, and only on request.
def writeBack (settings : Settings) (source : Source) (write : Bool) (text : Text) :
    FileWork ToolError Unit :=
  match source, write with
  | .file path, true => do
      let tree ← get
      .write .unwritable (settings.resolve tree path) text
  | _, _ => return ()

-- Sources are read before anything else, the generated text before the existing one,
-- and nothing is written until the answer is known.
def run (settings : Settings) : ToolCall → FileWork ToolError Answer
  | .list source => do
      let text ← readSource settings source
      let options ← .ofExcept .limit settings.options
      let root ← .ofExcept .edit (options.readTree text)
      return .outline root.outline
  | .replace source replacements write => do
      let text ← readSource settings source
      let options ← .ofExcept .limit settings.options
      let replaced ← .ofExcept .edit (options.replace replacements text)
      writeBack settings source write replaced.text
      return .replaced replaced.text replaced.unmatched
  | .merge generatedSource existingSource write => do
      let generated ← readSource settings generatedSource
      let existing ← readSource settings existingSource
      let options ← .ofExcept .limit settings.options
      let merged ← .ofExcept .edit (options.merge generated existing)
      writeBack settings existingSource write merged.text
      return .merged merged
  | .check source => do
      let text ← readSource settings source
      return .report (Check.check text)
  | .trim source => do
      let text ← readSource settings source
      return .text (trimText settings.lineSeparator text)

end ToolCall

-- The answer to a call with arguments that may be anything.
def Tool.run (tool : Tool) (settings : Settings) (args : Option Json) : FileWork ToolError Answer :=
  match tool.call? args with
  | .error e => throw e
  | .ok call => call.run settings

end Sections
