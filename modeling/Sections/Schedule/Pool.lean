import Sections.Schedule

namespace Sections.Schedule

variable {ε : Type}

-- What a worker does when it wakes up: look for its next task, or take in the failure
-- of the task that it was waiting for.
inductive Wake (ε : Type) where
  | next
  | caught (e : ε)
  deriving Repr

-- A started task with the turns that it still has to wait, at least one.
structure Waiting (ε : Type) where
  task : Task ε
  index : Nat
  left : Nat
  deriving Repr

-- What starting and waiting out a task adds to the work of a run.
def Task.weight (task : Task ε) : Nat := 2 * task.turns.getD 0 + 1

-- Workers share the tasks not yet started. Wake-ups and waiting tasks are served in
-- the order in which they arrived. After the first failure that a worker takes in no
-- task is started; the run settles on that failure, or when no worker is left.
structure Pool (ε : Type) where
  queued : List (Task ε × Nat)
  wakes : List (Wake ε)
  waiting : List (Waiting ε)
  workers : Nat
  failed : Bool
  caught : Option ε
  settled : Bool
  log : List Event
  deriving Repr

namespace Pool

-- Every worker looks for its first task at once, one worker after another.
def initial (workers : Nat) (tasks : List (Task ε × Nat)) : Pool ε :=
  ⟨tasks, List.replicate workers .next, [], workers, false, none, false, []⟩

def record (p : Pool ε) (event : Event) : Pool ε := { p with log := p.log ++ [event] }

def wake (p : Pool ε) (w : Wake ε) : Pool ε := { p with wakes := p.wakes ++ [w] }

-- A worker that has nothing left to do ends.
def retire (p : Pool ε) : Pool ε := { p with workers := p.workers - 1 }

-- A worker takes in a failure, and ends. Only the first failure taken in counts.
def take (p : Pool ε) (e : ε) : Pool ε :=
  { p.retire with failed := true, caught := p.caught.or (some e) }

-- A task ends on its own; its worker wakes up later.
def complete (p : Pool ε) (task : Task ε) (i : Nat) : Pool ε :=
  match task.failure with
  | none => (p.record (.finish i)).wake .next
  | some e => (p.record (.fail i)).wake (.caught e)

-- A task that fails within the call that starts it fails its worker at once.
def begin (p : Pool ε) (task : Task ε) (i : Nat) : Pool ε :=
  let p := p.record (.start i)
  match task.turns, task.failure with
  | none, some e => (p.record (.fail i)).take e
  | none, none => p.complete task i
  | some 0, _ => p.complete task i
  | some (left + 1), _ => { p with waiting := p.waiting ++ [⟨task, i, left + 1⟩] }

-- A worker looks for its next task.
def look (p : Pool ε) : Pool ε :=
  if p.failed then p.retire
  else
    match p.queued with
    | [] => p.retire
    | (task, i) :: rest => { p with queued := rest }.begin task i

-- A waiting task advances by one turn.
def advance (p : Pool ε) (w : Waiting ε) : Pool ε :=
  if w.left ≤ 1 then p.complete w.task w.index
  else { p with waiting := p.waiting ++ [{ w with left := w.left - 1 }] }

-- A run settles on a failure that was taken in, or when no worker is left.
def canSettle (p : Pool ε) : Bool := !p.settled && (p.caught.isSome || p.workers = 0)

-- Nothing can be done before the next turn.
def isIdle (p : Pool ε) : Bool := p.wakes.isEmpty && !p.canSettle

-- Wake-ups come before the settling, and the settling before the next turn.
def step (p : Pool ε) : Option (Pool ε) :=
  match p.wakes with
  | .caught e :: rest => some ({ p with wakes := rest }.take e)
  | .next :: rest => some ({ p with wakes := rest }.look)
  | [] =>
      if p.canSettle then
        some { p.record .settle with settled := true }
      else
        match p.waiting with
        | [] => none
        | w :: rest => some ({ p with waiting := rest }.advance w)

-- Falls with every step, so the number of steps is known before the run.
def work (p : Pool ε) : Nat :=
  total (p.queued.map fun entry => entry.1.weight) + p.wakes.length +
    total (p.waiting.map fun w => 2 * w.left) + (if p.settled then 0 else 1)

def runFor : Nat → Pool ε → Pool ε
  | 0, p => p
  | n + 1, p =>
      match p.step with
      | none => p
      | some next => runFor n next

-- Runs until nothing is left to do.
def run (p : Pool ε) : Pool ε := runFor p.work p

def result (p : Pool ε) : Except ε Unit :=
  match p.caught with
  | none => .ok ()
  | some e => .error e

end Pool

-- A number of workers on one list of tasks.
def concurrently (workers : Nat) (tasks : List (Task ε)) : Run ε :=
  let final := (Pool.initial workers tasks.zipIdx).run
  ⟨final.log, final.result⟩

end Sections.Schedule
