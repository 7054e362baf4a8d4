import Sections.Proofs.Schedule.Moves
import Sections.Schedule.Strategy

namespace Sections.Schedule

namespace Pool

variable {ε : Type}

-- One pool comes from another by going on.
def Leads (p q : Pool ε) : Prop := ∃ n, runFor n p = q

namespace Leads

variable {p q next : Pool ε}

theorem refl (p : Pool ε) : Leads p p := ⟨0, rfl⟩

theorem of_step (hs : p.step = some next) (h : Leads next q) : Leads p q := by
  obtain ⟨n, rfl⟩ := h
  refine ⟨n + 1, ?_⟩
  rw [runFor, hs]

theorem trans (h : Leads p next) (hn : Leads next q) : Leads p q := by
  obtain ⟨m, rfl⟩ := h
  obtain ⟨n, rfl⟩ := hn
  exact ⟨m + n, runFor_add m n p⟩

-- A run comes to the only end that there is.
theorem run_eq (h : Leads p q) (hp : p.Patient) (hq : q.step = none) : p.run = q := by
  obtain ⟨n, rfl⟩ := h
  calc p.run = runFor n (runFor p.work p) := (runFor_of_step_eq_none (run_step p hp) n).symm
    _ = runFor p.work (runFor n p) := by rw [← runFor_add, Nat.add_comm, runFor_add]
    _ = runFor n p := runFor_of_step_eq_none hq p.work

end Leads

section OneWorker

variable (queue : List (Task ε × Nat)) (task : Task ε) (i : Nat) (log : List Event)

-- All that the only worker can be about: it looks for its next task, is in the call that starts
-- one, waits for it, takes in its failure, or has ended.
def looking : Pool ε := ⟨queue, [.next], [], 1, false, none, false, log⟩

def calling : Pool ε := ⟨queue, [], [], 1, false, none, false, log⟩

def awaiting (left : Nat) : Pool ε := ⟨queue, [], [⟨task, i, left + 1⟩], 1, false, none, false, log⟩

def catching (e : ε) : Pool ε := ⟨queue, [.caught e], [], 1, false, none, false, log⟩

def gone (caught : Option ε) (settled : Bool) : Pool ε :=
  ⟨queue, [], [], 0, caught.isSome, caught, settled, log⟩

theorem gone_step (caught : Option ε) : (gone queue log caught true).step = none :=
  step_eq_none_iff.mpr ⟨rfl, rfl, rfl⟩

theorem gone_leads (caught : Option ε) :
    Leads (gone queue log caught false) (gone queue (log ++ [.settle]) caught true) := by
  refine .of_step ?_ (.refl _)
  cases caught <;> rfl

-- Nothing else is done until the task ends.
theorem awaiting_leads (left : Nat) :
    Leads (awaiting queue task i log left) ((calling queue log).complete task i) := by
  induction left with
  | zero => exact .of_step rfl (.refl _)
  | succ left ih => exact .of_step rfl ih

variable {task}

theorem looking_step :
    (looking ((task, i) :: queue) log).step = some ((calling queue log).begin task i) := rfl

-- A task that does not fail within its call ends by itself, however long it takes.
theorem looking_leads (h : task.turns = none → task.failure = none) :
    Leads (looking ((task, i) :: queue) log)
      ((calling queue (log ++ [.start i])).complete task i) := by
  refine .of_step (looking_step queue i log) ?_
  cases ht : task.turns with
  | none =>
      rw [begin, ht, h ht]
      exact .refl _
  | some turns =>
      rw [begin, ht]
      cases turns with
      | zero => exact .refl _
      | succ left => exact awaiting_leads queue task i _ left

-- A task that ends well is followed by the next one.
theorem looking_finish (hf : task.failure = none) :
    Leads (looking ((task, i) :: queue) log) (looking queue (log ++ [.start i, .finish i])) := by
  have hends := looking_leads queue i log fun _ => hf
  rw [complete, hf] at hends
  simpa [calling, looking, record, wake] using hends

-- A failure ends the run, whether it comes within the call or later.
theorem looking_fail {e : ε} (hf : task.failure = some e) :
    Leads (looking ((task, i) :: queue) log)
      (gone queue (log ++ [.start i, .fail i, .settle]) (some e) true) := by
  have hsettles := gone_leads queue (log ++ [.start i, .fail i]) (some e)
  rw [List.append_assoc] at hsettles
  refine .trans ?_ hsettles
  cases ht : task.turns with
  | none =>
      refine .of_step (looking_step queue i log) ?_
      rw [begin, ht, hf]
      simpa [calling, gone, record, take, Pool.retire] using .refl _
  | some turns =>
      have hends : Leads (looking ((task, i) :: queue) log)
          ((calling queue (log ++ [.start i])).complete task i) :=
        looking_leads queue i log (by simp [ht])
      rw [complete, hf] at hends
      have hcatches : Leads (looking ((task, i) :: queue) log)
          (catching queue (log ++ [.start i, .fail i]) e) := by
        simpa [calling, catching, record, wake] using hends
      exact hcatches.trans (.of_step rfl (.refl _))

-- The worker and the sequential run go through the tasks side by side.
theorem looking_settles :
    ∃ rest caught, Leads (looking queue log) (gone rest (log ++ (inOrder queue).log) caught true) ∧
      (gone rest [] caught true).result = (inOrder queue).result := by
  induction queue generalizing log with
  | nil => exact ⟨[], none, .of_step rfl (gone_leads [] log none), rfl⟩
  | cons entry queue ih =>
      obtain ⟨task, i⟩ := entry
      cases hf : task.failure with
      | some e =>
          simp only [inOrder, hf]
          exact ⟨queue, some e, looking_fail queue i log hf, rfl⟩
      | none =>
          obtain ⟨rest, caught, hleads, hresult⟩ := ih (log ++ [.start i, .finish i])
          rw [List.append_assoc] at hleads
          simp only [inOrder, hf]
          exact ⟨rest, caught, (looking_finish queue i log hf).trans hleads, hresult⟩

end OneWorker

-- A pool of one worker runs the tasks one after another.
theorem run_initial_one (tasks : List (Task ε × Nat)) :
    (⟨(initial 1 tasks).run.log, (initial 1 tasks).run.result⟩ : Run ε) = inOrder tasks := by
  obtain ⟨rest, caught, hleads, hresult⟩ := looking_settles tasks []
  have hrun : (initial 1 tasks).run = gone rest (inOrder tasks).log caught true :=
    hleads.run_eq (fun _ hw => absurd hw List.not_mem_nil) (gone_step ..)
  rw [hrun]
  exact congrArg (Run.mk _) hresult

end Pool

-- With at most one task under way at a time, tasks that run together run one after another: all
-- that happens, and in what order, is the same, and so is the answer.
theorem Strategy.run_concurrent_one {ε : Type} (tasks : List (Task ε)) :
    ∃ limit, Limit.ofNumber (.ofNat 1) = .ok limit ∧
      (Strategy.concurrent limit).run tasks = Strategy.sequential.run tasks := by
  refine ⟨.atMost 1 Nat.one_pos, rfl, ?_⟩
  cases tasks with
  | nil => rfl
  | cons task rest =>
      have hworkers : Limit.workers (.atMost 1 Nat.one_pos) (task :: rest).length = 1 := by
        simp [Limit.workers]
      simp only [run, hworkers]
      exact Pool.run_initial_one (task :: rest).zipIdx

end Sections.Schedule
