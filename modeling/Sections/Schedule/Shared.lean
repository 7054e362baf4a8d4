import Sections.Schedule.Strategy

namespace Sections.Schedule

variable {ε lbl : Type}

inductive Phase where
  | start
  | finish
  | fail
  deriving Repr, DecidableEq

-- A line in the log of several runs, whose tasks are told apart by labels.
structure Entry (lbl : Type) where
  label : lbl
  phase : Phase
  deriving Repr, DecidableEq

namespace Entry

def ofEvent? (label : Nat → lbl) : Event → Option (Entry lbl)
  | .start i => some ⟨label i, .start⟩
  | .finish i => some ⟨label i, .finish⟩
  | .fail i => some ⟨label i, .fail⟩
  | .settle => none

-- Tasks under way after the entry.
def underWay (count : Nat) (entry : Entry lbl) : Nat :=
  match entry.phase with
  | .start => count + 1
  | .finish => count - 1
  | .fail => count - 1

-- The most tasks under way after a start, when some were under way before.
def peak (count : Nat) : List (Entry lbl) → Nat
  | [] => 0
  | entry :: rest =>
      let now := entry.underWay count
      if entry.phase = .start then max now (peak now rest) else peak now rest

end Entry

-- A task that was under way when its run settled, with the turns that it still has to
-- wait, at least one. Nothing waits for it any more.
structure Straggler (lbl : Type) where
  label : lbl
  left : Nat
  fails : Bool
  deriving Repr

namespace Straggler

-- After a turn the task has ended or waits on.
def advance (s : Straggler lbl) : List (Entry lbl) × List (Straggler lbl) :=
  if s.left ≤ 1 then ([⟨s.label, if s.fails then .fail else .finish⟩], [])
  else ([], [{ s with left := s.left - 1 }])

-- A number of turns in which nothing else is done.
def wait : Nat → List (Straggler lbl) → List (Entry lbl) × List (Straggler lbl)
  | 0, stragglers => ([], stragglers)
  | turns + 1, stragglers =>
      let (log, last) := wait turns (stragglers.flatMap (·.advance.2))
      (stragglers.flatMap (·.advance.1) ++ log, last)

end Straggler

-- A run that shares the queue of waiting tasks with the stragglers of earlier runs. In
-- the queue a place without a straggler belongs to the next waiting task of the run.
structure Shared (ε lbl : Type) where
  pool : Pool ε
  queue : List (Option (Straggler lbl))
  log : List (Entry lbl)

namespace Shared

def initial (pool : Pool ε) (stragglers : List (Straggler lbl)) : Shared ε lbl :=
  ⟨pool, stragglers.map some, []⟩

-- Takes over a step of the run: what it logged, and a place at the end of the queue for
-- every task that waits without one.
def follow (label : Nat → lbl) (s : Shared ε lbl) (queue : List (Option (Straggler lbl)))
    (next : Pool ε) : Shared ε lbl :=
  let places := (queue.filter Option.isNone).length
  ⟨next, queue ++ List.replicate (next.waiting.length - places) none,
    s.log ++ (next.log.drop s.pool.log.length).filterMap (Entry.ofEvent? label)⟩

-- The run goes on at once while it can, and when its turn has come. It ends by settling.
def step (label : Nat → lbl) (s : Shared ε lbl) : Option (Shared ε lbl) :=
  if s.pool.settled then none
  else if s.pool.isIdle then
    match s.queue with
    | some straggler :: rest =>
        let (log, left) := straggler.advance
        some ⟨s.pool, rest ++ left.map some, s.log ++ log⟩
    | none :: rest => s.pool.step.map (s.follow label rest)
    | [] => none
  else s.pool.step.map (s.follow label s.queue)

def runFor (label : Nat → lbl) : Nat → Shared ε lbl → Shared ε lbl
  | 0, s => s
  | n + 1, s =>
      match s.step label with
      | none => s
      | some next => runFor label n next

-- The tasks under way, in the order of the queue.
def stragglers (label : Nat → lbl) : List (Option (Straggler lbl)) → List (Waiting ε) →
    List (Straggler lbl)
  | [], _ => []
  | some s :: queue, waiting => s :: stragglers label queue waiting
  | none :: queue, w :: waiting =>
      ⟨label w.index, w.left, w.task.failure.isSome⟩ :: stragglers label queue waiting
  | none :: queue, [] => stragglers label queue []

end Shared

-- What is logged until a run settles, and the tasks that are under way then, when those of
-- earlier runs still were at its start.
def Strategy.runAfter (strategy : Strategy) (label : Nat → lbl) (earlier : List (Straggler lbl))
    (tasks : List (Task ε)) : List (Entry lbl) × List (Straggler lbl) :=
  let start := Shared.initial (strategy.pool tasks) earlier
  let final := start.runFor label (start.pool.work + total (earlier.map (·.left)))
  (final.log, Shared.stragglers label final.queue final.pool.waiting)

end Sections.Schedule
