import Sections.Text

namespace Sections.Schedule

variable {ε : Type}

def total : List Nat → Nat
  | [] => 0
  | n :: rest => n + total rest

-- A unit of work. It ends within the call that starts it, or after a number of turns;
-- then it has succeeded or failed with an error.
structure Task (ε : Type) where
  turns : Option Nat
  failure : Option ε
  deriving Repr

-- Tasks are numbered by their place in the list, from zero.
inductive Event where
  | start (task : Nat)
  | finish (task : Nat)
  | fail (task : Nat)
  | settle
  deriving Repr, DecidableEq

-- All that happened, the answer of the whole run included: it stands in the log as
-- the settling, and tasks that were under way then end after it.
structure Run (ε : Type) where
  log : List Event
  result : Except ε Unit

-- One task after another, up to the first failure.
def inOrder : List (Task ε × Nat) → Run ε
  | [] => ⟨[.settle], .ok ()⟩
  | (task, i) :: rest =>
      match task.failure with
      | some e => ⟨[.start i, .fail i, .settle], .error e⟩
      | none =>
          let run := inOrder rest
          ⟨.start i :: .finish i :: run.log, run.result⟩

namespace Event

def startedTask? : Event → Option Nat
  | .start i => some i
  | _ => none

def finishedTask? : Event → Option Nat
  | .finish i => some i
  | _ => none

end Event

namespace Run

-- The tasks started, in order.
def started (run : Run ε) : List Nat := run.log.filterMap Event.startedTask?

-- The tasks that succeeded before the run settled.
def finishedInTime (run : Run ε) : List Nat :=
  (run.log.takeWhile (· ≠ .settle)).filterMap Event.finishedTask?

end Run

end Sections.Schedule
