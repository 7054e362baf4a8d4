import Sections.Number.Notation
import Sections.Schedule.Pool

namespace Sections.Schedule

variable {ε : Type}

-- How many tasks may be under way at once.
inductive Limit where
  | unbounded
  | atMost (count : Nat) (positive : 0 < count)
  deriving Repr, DecidableEq

inductive LimitError where
  | notPositive (value : Number)
  deriving Repr, DecidableEq

def LimitError.message : LimitError → Text
  | .notPositive value =>
      "Invalid concurrency limit: ".units ++ value.text ++ ". Must be a positive integer".units

namespace Limit

-- A limit is a positive whole number or positive infinity.
def ofNumber (n : Number) : Except LimitError Limit :=
  if n = .infinite false then .ok .unbounded
  else
    match n.toNat? with
    | none => .error (.notPositive n)
    | some count =>
        if positive : 0 < count then .ok (.atMost count positive) else .error (.notPositive n)

def workers (limit : Limit) (tasks : Nat) : Nat :=
  match limit with
  | .unbounded => tasks
  | .atMost count _ => min count tasks

end Limit

-- How the tasks of a list are run. The program has the first two; the last is one such as its users
-- may write.
inductive Strategy where
  | sequential
  | concurrent (limit : Limit)
  | lastToFirst
  deriving Repr, DecidableEq

namespace Strategy

-- A concurrency of zero or less, or none at all, means one task after another.
def ofConcurrency (n : Number) : Except LimitError Strategy :=
  if n.isPositive then (Limit.ofNumber n).map .concurrent else .ok .sequential

def run (strategy : Strategy) (tasks : List (Task ε)) : Run ε :=
  match strategy with
  | .sequential => inOrder tasks.zipIdx
  | .concurrent limit => concurrently (limit.workers tasks.length) tasks
  | .lastToFirst => inOrder tasks.zipIdx.reverse

-- The same run as the work of a pool: one worker takes the tasks in order.
def pool (strategy : Strategy) (tasks : List (Task ε)) : Pool ε :=
  match strategy with
  | .sequential => .initial 1 tasks.zipIdx
  | .concurrent limit => .initial (limit.workers tasks.length) tasks.zipIdx
  | .lastToFirst => .initial 1 tasks.zipIdx.reverse

end Strategy

end Sections.Schedule
