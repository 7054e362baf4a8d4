import Sections.Edit.Error
import Sections.Text.Blank

namespace Sections

-- What is done to each line, by its number, and at the end of input. A line without
-- replacement is dropped.
structure LineRule where
  replace : Nat → Text → Except EditError (Option Text)
  close : Except EditError (Option Text)

-- One edit: the number of the last line given to the rule, the answers that it gave or
-- refused, and the output.
structure LineEdit where
  lineNumber : Nat
  answers : Nat
  output : Except EditError (Option Text)

namespace LineRule

def identity : LineRule := ⟨fun _ line => .ok (some line), .ok none⟩

def trimming : LineRule := ⟨fun _ line => .ok (some (Text.trimEnd line)), .ok none⟩

-- Replacements of the lines from a number on, with the number of the line that failed.
def replaceFrom (rule : LineRule) : Nat → List Text → Except (Nat × EditError) (List Text)
  | _, [] => .ok []
  | n, line :: rest =>
      match rule.replace n line with
      | .error e => .error (n, e)
      | .ok none => replaceFrom rule (n + 1) rest
      | .ok (some text) => (replaceFrom rule (n + 1) rest).map (text :: ·)

-- Replacements are written with the separator, what comes at the end without. Where
-- there is neither, there is no output.
def written (separator : Text) (replacements : List Text) (closing : Option Text) : Option Text :=
  match replacements, closing with
  | [], none => none
  | texts, closing => some (Text.unlines separator texts ++ closing.getD [])

-- The rule is asked for each line, up to one that it refuses, and then for the end.
def edit (rule : LineRule) (separator text : Text) : LineEdit :=
  let ls := Text.lines text
  match rule.replaceFrom 1 ls with
  | .error (n, e) => ⟨n, n, .error e⟩
  | .ok texts => ⟨ls.length, ls.length + 1, rule.close.map (written separator texts)⟩

end LineRule

-- Text with the blanks at line ends removed.
def trimText (separator text : Text) : Text :=
  match (LineRule.trimming.edit separator text).output with
  | .ok (some output) => output
  | _ => []

-- A rule that the program has not, such as its users may write: it drops the lines that start with
-- a text, refuses the ones that contain another, and may number the rest. At the end of input it
-- adds a text or refuses.
structure LineFilter where
  refused : Option Text
  dropped : Option Text
  numbered : Bool
  closing : Option Text
  refusal : Option Text
  deriving Repr

namespace LineFilter

def replace (filter : LineFilter) (n : Nat) (line : Text) : Except EditError (Option Text) :=
  if filter.refused.any (Text.contains line) then .error (.lineRefused n)
  else if filter.dropped.any (Text.startsWith line) then .ok none
  else if filter.numbered then .ok (some (Text.ofNat n ++ ':'.unit :: line))
  else .ok (some line)

def rule (filter : LineFilter) : LineRule where
  replace := filter.replace
  close :=
    match filter.refusal with
    | some reason => .error (.endRefused reason)
    | none => .ok filter.closing

end LineFilter

end Sections
