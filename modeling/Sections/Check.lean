import Sections.Marker
import Sections.Number.Notation
import Sections.Text.Lines
import Sections.Text.UnitOrder

namespace Sections.Check

inductive Severity where
  | error
  | warning
  deriving Repr, DecidableEq

-- A marker that cannot be paired, or a name that is missing or not the first of its kind.
inductive Finding where
  | malformedMarker
  | unmatchedEnd
  | unclosed (name : Text) (openedAt : Nat)
  | emptyName
  | duplicate (name : Text) (firstAt : Nat)
  deriving Repr, DecidableEq

namespace Finding

def severity : Finding → Severity
  | .malformedMarker => .error
  | .unmatchedEnd => .error
  | .unclosed _ _ => .error
  | .emptyName => .warning
  | .duplicate _ _ => .warning

def code : Finding → Text
  | .malformedMarker => "MALFORMED_MARKER".units
  | .unmatchedEnd => "UNMATCHED_END".units
  | .unclosed _ _ => "UNCLOSED_SECTION".units
  | .emptyName => "EMPTY_NAME".units
  | .duplicate _ _ => "DUPLICATE_SECTION".units

def message : Finding → Text
  | .malformedMarker =>
      "Malformed section start marker. Expected format: SECTION-START[name]".units
  | .unmatchedEnd => "Section end marker without an open section".units
  | .unclosed name openedAt =>
      "Section ".units ++ Text.quoted name ++ " opened at line ".units ++ Text.ofNat openedAt ++
        " is never closed".units
  | .emptyName => "Section has an empty name".units
  | .duplicate name firstAt =>
      "Section ".units ++ Text.quoted name ++ " already opened at line ".units ++
        Text.ofNat firstAt

end Finding

-- A finding at a line, counted from one.
abbrev Located := Nat × Finding

-- What the scan of the lines so far leaves to be decided: the open sections with their
-- lines, the innermost first, and the line on which each name was first opened.
structure Scan where
  openAt : List (Nat × Text)
  firstSeen : List (Text × Nat)
  findings : List Located
  deriving Repr

namespace Scan

def initial : Scan := ⟨[], [], []⟩

def report (s : Scan) (n : Nat) (finding : Finding) : Scan :=
  { s with findings := s.findings ++ [(n, finding)] }

def noteName (s : Scan) (n : Nat) (name : Text) : Scan :=
  match s.firstSeen.lookup name with
  | none => { s with firstSeen := (name, n) :: s.firstSeen }
  | some first => s.report n (.duplicate name first)

def openSection (s : Scan) (n : Nat) (name : Text) : Scan :=
  let s := (if name.isEmpty then s.report n .emptyName else s).noteName n name
  { s with openAt := (n, name) :: s.openAt }

def closeSection (s : Scan) (n : Nat) : Scan :=
  match s.openAt with
  | [] => s.report n .unmatchedEnd
  | _ :: rest => { s with openAt := rest }

-- A malformed marker opens no section, and a line with a start marker closes none.
def line (s : Scan) (n : Nat) (text : Text) : Scan :=
  match Marker.opening text with
  | .malformed => s.report n .malformedMarker
  | .opens name => s.openSection n (name.getD [])
  | .none => if Marker.closes text then s.closeSection n else s

-- Lines from number n on.
def lines : Nat → List Text → Scan → Scan
  | _, [], s => s
  | n, text :: rest, s => lines (n + 1) rest (s.line n text)

-- Sections still open at the end, the outermost first.
def unclosed (s : Scan) : List Located :=
  s.openAt.reverse.map fun entry => (entry.1, .unclosed entry.2 entry.1)

end Scan

-- All findings of a text by line, those of one line in the order of discovery.
def findings (text : Text) : List Located :=
  let s := Scan.initial.lines 1 (Text.pieces text)
  Text.sortBy (fun a b => a.1 ≤ b.1) (s.findings ++ s.unclosed)

-- What a report says about one line. Lines are counted, but a report that comes from
-- elsewhere may hold any number.
structure Issue (ν : Type) where
  line : ν
  severity : Severity
  code : Text
  message : Text
  deriving Repr, DecidableEq

def Issue.ofLocated (located : Located) : Issue Nat :=
  ⟨located.1, located.2.severity, located.2.code, located.2.message⟩

structure Report (ν : Type) where
  valid : Bool
  errors : ν
  warnings : ν
  issues : List (Issue ν)
  deriving Repr, DecidableEq

-- A text is valid if no finding is an error.
def check (text : Text) : Report Nat :=
  let issues := (findings text).map Issue.ofLocated
  let errors := (issues.filter (·.severity = .error)).length
  let warnings := (issues.filter (·.severity = .warning)).length
  ⟨errors = 0, errors, warnings, issues⟩

namespace Report

def severityMark : Severity → CodeUnit
  | .error => '✗'.unit
  | .warning => '⚠'.unit

def issueLine (issue : Issue Number) : Text :=
  ' '.unit :: ' '.unit :: severityMark issue.severity :: " Line ".units ++ issue.line.text ++
    ": [".units ++ issue.code ++ "] ".units ++ issue.message

def summaryLine (report : Report Number) : Text :=
  "  ".units ++ report.errors.text ++ " error(s), ".units ++ report.warnings.text ++
    " warning(s)".units

-- One line if there is nothing to say, otherwise a heading, the issues and the counts.
def format (report : Report Number) (label : Text) : Text :=
  if report.valid && report.warnings.isZero then "✓ ".units ++ label ++ ": OK".units
  else
    let heading := (if report.valid then '⚠'.unit else '✗'.unit) :: ' '.unit :: label
    List.intercalate ['\n'.unit]
      (heading :: report.issues.map issueLine ++ [[], report.summaryLine])

def toNumbers (report : Report Nat) : Report Number :=
  ⟨report.valid, .ofNat report.errors, .ofNat report.warnings,
    report.issues.map fun issue => ⟨.ofNat issue.line, issue.severity, issue.code, issue.message⟩⟩

end Report

end Sections.Check
