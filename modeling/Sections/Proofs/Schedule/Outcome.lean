import Sections.Proofs.Schedule.Discipline

namespace Sections.Schedule

variable {ε : Type}

-- A task that ends within the call that starts it.
def Task.atOnce (task : Task ε) : Bool := task.turns.isNone

def endsAtOnce (tasks : List (Task ε)) (i : Nat) : Bool := tasks[i]?.any Task.atOnce

def failureOf (tasks : List (Task ε)) (i : Nat) : Option ε := tasks[i]?.bind Task.failure

-- The failed tasks of a log in the order in which their workers take the failures in. A failure
-- within the call that starts a task is taken in at once, before those that are still to be taken
-- in, and then no other task is started. Each of the others is taken in one wake-up after it was
-- logged, in the order of the log.
def takenOrder (tasks : List (Task ε)) (log : List Event) : List Nat :=
  (Log.failed log).filter (endsAtOnce tasks) ++ (Log.failed log).filter (!endsAtOnce tasks ·)

-- No failure was one within a call.
def AllLater (tasks : List (Task ε)) (log : List Event) : Prop :=
  ∀ i ∈ Log.failed log, endsAtOnce tasks i = false

section Order

variable {tasks : List (Task ε)} {log new : List Event} {i : Nat} {task : Task ε}
  {e : ε}

theorem takenOrder_congr {other : List Event} (h : Log.failed log = Log.failed other) :
    takenOrder tasks log = takenOrder tasks other := by
  rw [takenOrder, takenOrder, h]

theorem mem_failed_of_mem_takenOrder (h : i ∈ takenOrder tasks log) : i ∈ Log.failed log := by
  rcases List.mem_append.mp h with h | h
  · exact (List.mem_filter.mp h).1
  · exact (List.mem_filter.mp h).1

theorem endsAtOnce_of_mem (hm : (task, i) ∈ tasks.zipIdx) : endsAtOnce tasks i = task.atOnce := by
  rw [endsAtOnce, List.mk_mem_zipIdx_iff_getElem?.mp hm, Option.any_some]

theorem failureOf_of_mem (hm : (task, i) ∈ tasks.zipIdx) : failureOf tasks i = task.failure := by
  rw [failureOf, List.mk_mem_zipIdx_iff_getElem?.mp hm, Option.bind_some]

-- A failure that comes later than the call is taken in last.
theorem failures_append_later (hm : (task, i) ∈ tasks.zipIdx) (ho : task.atOnce = false)
    (he : task.failure = some e) (hn : Log.failed new = [i]) :
    (takenOrder tasks (log ++ new)).map (failureOf tasks) =
      (takenOrder tasks log).map (failureOf tasks) ++ [some e] := by
  have hlater : endsAtOnce tasks i = false := endsAtOnce_of_mem hm ▸ ho
  simp [takenOrder, hn, hlater, failureOf_of_mem hm, he]

-- A failure within the call is taken in first.
theorem failures_append_now (h : AllLater tasks log) (hm : (task, i) ∈ tasks.zipIdx)
    (ho : task.atOnce = true) (he : task.failure = some e) (hn : Log.failed new = [i]) :
    (takenOrder tasks (log ++ new)).map (failureOf tasks) =
      some e :: (takenOrder tasks log).map (failureOf tasks) := by
  have hnow : endsAtOnce tasks i = true := endsAtOnce_of_mem hm ▸ ho
  have hnone : (Log.failed log).filter (endsAtOnce tasks) = [] := by
    rw [List.filter_eq_nil_iff]
    exact fun k hk => Bool.eq_false_iff.mp (h k hk)
  simp [takenOrder, hn, hnow, hnone, failureOf_of_mem hm, he]

theorem AllLater.congr {other : List Event} (h : AllLater tasks log)
    (he : Log.failed other = Log.failed log) : AllLater tasks other := by
  intro k hk
  rw [he] at hk
  exact h k hk

theorem AllLater.append (h : AllLater tasks log) (hm : (task, i) ∈ tasks.zipIdx)
    (ho : task.atOnce = false) (hn : Log.failed new = [i]) : AllLater tasks (log ++ new) := by
  intro k hk
  rw [Log.failed_append, hn] at hk
  rcases List.mem_append.mp hk with hk | hk
  · exact h k hk
  · rw [List.mem_singleton.mp hk, endsAtOnce_of_mem hm]
    exact ho

end Order

-- The failures that workers still have to wake up to.
@[simp] def Wake.failures : List (Wake ε) → List ε
  | [] => []
  | .next :: rest => failures rest
  | .caught e :: rest => e :: failures rest

@[simp] theorem Wake.failures_append (first second : List (Wake ε)) :
    failures (first ++ second) = failures first ++ failures second := by
  induction first with
  | nil => rfl
  | cons w rest ih => cases w <;> simp [ih]

namespace Pool

-- The failure that the next step takes in: one that a worker wakes up to, or that of a task that
-- fails within the call that starts it.
def takes? (p : Pool ε) : Option ε :=
  match p.wakes, p.queued with
  | .caught e :: _, _ => some e
  | .next :: _, (task, _) :: _ => if !p.failed && task.atOnce then task.failure else none
  | _, _ => none

-- The failures that are taken in during a number of steps.
def takenFor : Nat → Pool ε → List ε
  | 0, _ => []
  | n + 1, p =>
      match p.step with
      | none => []
      | some next => p.takes?.toList ++ takenFor n next

-- The failures that were taken in so far, and then those to come, are the logged ones.
structure Blames (tasks : List (Task ε)) (taken : List ε) (p : Pool ε) : Prop where
  order : (taken ++ Wake.failures p.wakes).map some = (takenOrder tasks p.log).map (failureOf tasks)
  first : p.caught = taken.head?
  calm : p.failed = false → taken = [] ∧ AllLater tasks p.log
  patient : ∀ w ∈ p.waiting, w.task.atOnce = false

theorem takes?_of_asleep {p : Pool ε} (hw : p.wakes = []) : p.takes? = none := by
  rw [takes?, hw]

theorem takes?_of_begin {p : Pool ε} {task : Task ε} {i : Nat} {queue : List (Task ε × Nat)}
    {rest : List (Wake ε)} (hw : p.wakes = .next :: rest) (hf : p.failed = false)
    (hq : p.queued = (task, i) :: queue) :
    p.takes? = if task.atOnce then task.failure else none := by
  rw [takes?, hw, hq, hf]
  rfl

theorem takes?_of_retire {p : Pool ε} {rest : List (Wake ε)} (hw : p.wakes = .next :: rest)
    (hq : p.failed = true ∨ p.queued = []) : p.takes? = none := by
  rw [takes?, hw]
  rcases hq with hf | hq
  · rw [hf]
    split <;> simp_all
  · rw [hq]

theorem Move.blames {tasks : List (Task ε)} {taken : List ε} {p next : Pool ε} (h : Move p next)
    (hk : ∀ entry, p.Open entry → entry ∈ tasks.zipIdx) (hp : p.Blames tasks taken) :
    next.Blames tasks (taken ++ p.takes?.toList) := by
  obtain ⟨horder, hfirst, hcalm, hpatient⟩ := hp
  cases h with
  | takeIn e rest hw =>
      have htakes : p.takes? = some e := by rw [takes?, hw]
      rw [htakes]
      refine ⟨?_, ?_, nofun, hpatient⟩
      · simpa [hw] using horder
      · rw [hfirst]
        cases taken <;> rfl
  | retire rest hw hq =>
      rw [takes?_of_retire hw hq, Option.toList_none, List.append_nil]
      exact ⟨by simpa [hw] using horder, hfirst, hcalm, hpatient⟩
  | failAtOnce task i queue rest e hw hf hq ht he =>
      have hmem := hk (task, i) ((open_of_queue hq).mpr (Or.inl rfl))
      have hatOnce : task.atOnce = true := by rw [Task.atOnce, ht]; rfl
      obtain ⟨rfl, hlater⟩ := hcalm hf
      rw [takes?_of_begin hw hf hq, hatOnce, if_pos rfl, he]
      refine ⟨?_, ?_, nofun, hpatient⟩
      · rw [failures_append_now hlater hmem hatOnce he (by simp), ← horder]
        simp [hw]
      · rw [hfirst]
        rfl
  | failSoon task i queue rest e hw hf hq ht he =>
      have hmem := hk (task, i) ((open_of_queue hq).mpr (Or.inl rfl))
      have hatOnce : task.atOnce = false := by rw [Task.atOnce, ht]; rfl
      rw [takes?_of_begin hw hf hq, hatOnce]
      refine ⟨?_, by simpa using hfirst, fun _ => ?_, hpatient⟩
      · rw [failures_append_later hmem hatOnce he (by simp), ← horder]
        simp [hw]
      · exact ⟨by simpa using (hcalm hf).1, (hcalm hf).2.append hmem hatOnce (by simp)⟩
  | finishAtOnce task i queue rest hw hf hq ht he =>
      have hnone : p.takes? = none := by rw [takes?_of_begin hw hf hq, he, ite_self]
      have hlog : Log.failed (p.log ++ [.start i, .finish i]) = Log.failed p.log := by simp
      rw [hnone, Option.toList_none, List.append_nil]
      refine ⟨?_, hfirst, fun hf => ?_, hpatient⟩
      · rw [takenOrder_congr hlog, ← horder]
        simp [hw]
      · exact ⟨(hcalm hf).1, (hcalm hf).2.congr hlog⟩
  | wait task i queue rest left hw hf hq ht =>
      have hatOnce : task.atOnce = false := by rw [Task.atOnce, ht]; rfl
      have hlog : Log.failed (p.log ++ [.start i]) = Log.failed p.log := by simp
      rw [takes?_of_begin hw hf hq, hatOnce]
      refine ⟨?_, by simpa using hfirst, fun _ => ?_, fun w hm => ?_⟩
      · rw [takenOrder_congr hlog, ← horder]
        simp [hw]
      · exact ⟨by simpa using (hcalm hf).1, (hcalm hf).2.congr hlog⟩
      · rcases List.mem_append.mp hm with hm | hm
        · exact hpatient w hm
        · rw [List.mem_singleton.mp hm]
          exact hatOnce
  | settle hw =>
      have hlog : Log.failed (p.log ++ [.settle]) = Log.failed p.log := by simp
      rw [takes?_of_asleep hw, Option.toList_none, List.append_nil]
      refine ⟨?_, hfirst, fun hf => ?_, hpatient⟩
      · rw [takenOrder_congr hlog]
        exact horder
      · exact ⟨(hcalm hf).1, (hcalm hf).2.congr hlog⟩
  | advance w rest hw hs hq =>
      rw [takes?_of_asleep hw, Option.toList_none, List.append_nil]
      refine ⟨horder, hfirst, hcalm, fun other hm => ?_⟩
      rcases List.mem_append.mp hm with hm | hm
      · exact hpatient other (hq ▸ List.mem_cons_of_mem w hm)
      · rw [List.mem_singleton.mp hm]
        exact hpatient w (by simp [hq])
  | finish w rest hw hs hq =>
      have hlog : Log.failed (p.log ++ [.finish w.index]) = Log.failed p.log := by simp
      rw [takes?_of_asleep hw, Option.toList_none, List.append_nil]
      refine ⟨?_, hfirst, fun hf => ?_, fun other hm => ?_⟩
      · rw [takenOrder_congr hlog, ← horder]
        simp [hw]
      · exact ⟨(hcalm hf).1, (hcalm hf).2.congr hlog⟩
      · exact hpatient other (hq ▸ List.mem_cons_of_mem w hm)
  | fail w rest e hw hs hq hl he =>
      have hmem := hk (w.task, w.index) ((open_of_waiting hq).mpr (Or.inl rfl))
      have hatOnce := hpatient w (by simp [hq])
      rw [takes?_of_asleep hw, Option.toList_none, List.append_nil]
      refine ⟨?_, hfirst, fun hf => ?_, fun other hm => ?_⟩
      · rw [failures_append_later hmem hatOnce he (by simp), ← horder]
        simp [hw]
      · exact ⟨(hcalm hf).1, (hcalm hf).2.append hmem hatOnce (by simp)⟩
      · exact hpatient other (hq ▸ List.mem_cons_of_mem w hm)

theorem Blames.runFor {tasks : List (Task ε)} {taken : List ε} {p : Pool ε}
    (h : p.Blames tasks taken) (hs : Sound tasks.zipIdx p) (n : Nat) :
    (Pool.runFor n p).Blames tasks (taken ++ takenFor n p) := by
  induction n generalizing taken p with
  | zero => simpa [Pool.runFor, takenFor] using h
  | succ n ih =>
      rw [Pool.runFor, takenFor]
      cases hstep : p.step with
      | none => simpa using h
      | some next =>
          have hm := step_move hstep
          have hnext := ih (hm.blames hs.known h) (hs.move p next hm)
          rwa [List.append_assoc] at hnext

-- Where a run stops no failure is still to come. It failed with the first one that was taken in.
theorem Blames.result_eq_error_iff {tasks : List (Task ε)} {taken : List ε} {p : Pool ε}
    (h : p.Blames tasks taken) (hw : p.wakes = []) (e : ε) :
    p.result = .error e ↔ ∃ i, (takenOrder tasks p.log).head? = some i ∧
      failureOf tasks i = some e := by
  have hhead := congrArg List.head? h.order
  rw [hw, Wake.failures, List.append_nil, List.head?_map, List.head?_map, ← h.first] at hhead
  have hresult : p.result = .error e ↔ p.caught = some e := by
    unfold result
    cases p.caught <;> simp
  rw [hresult]
  constructor
  · intro hc
    rw [hc] at hhead
    exact Option.map_eq_some_iff.mp hhead.symm
  · rintro ⟨i, hi, he⟩
    rw [hi, Option.map_some, he] at hhead
    obtain ⟨other, hc, ho⟩ := Option.map_eq_some_iff.mp hhead
    rw [hc, ho]

end Pool

-- What comes of a run, whatever its tasks do. It settles once, without a failure just when no task
-- has one, and then everything was done before. Otherwise it settles on the failure that was taken
-- in first. In any case every task that was started ends once, if need be after the settling.
structure Run.Concludes (run : Run ε) (tasks : List (Task ε)) : Prop where
  settles : run.log.count .settle = 1
  result : run.result = .ok () ↔ ∀ task ∈ tasks, task.failure = none
  completes : run.result = .ok () → run.Completes (List.range tasks.length)
  rejects : ∀ e, run.result = .error e ↔
    ∃ i, (takenOrder tasks run.log).head? = some i ∧ failureOf tasks i = some e
  ends : run.started.Perm (Log.ended run.log)

theorem Pool.Sound.count_settle {tasks : List (Task ε × Nat)} {p : Pool ε} (h : Pool.Sound tasks p)
    (hstop : p.step = none) : p.log.count .settle = 1 := by
  obtain ⟨-, -, -, hsettled⟩ := h.stopped hstop
  obtain ⟨before, after, hlog, hbefore, hafter, -⟩ := h.settles.settled hsettled
  rw [hlog, List.count_append, List.count_cons_self, List.count_eq_zero.mpr hbefore,
    List.count_eq_zero.mpr hafter]

theorem Pool.Blames.initial (crew : Nat) (tasks : List (Task ε)) :
    (Pool.initial crew tasks.zipIdx).Blames tasks [] where
  order := by
    have hnone : ∀ n, Wake.failures (List.replicate n (.next : Wake ε)) = [] := by
      intro n
      induction n with
      | zero => rfl
      | succ n ih => exact ih
    rw [Pool.initial, hnone]
    rfl
  first := rfl
  calm _ := ⟨rfl, fun _ hi => absurd hi List.not_mem_nil⟩
  patient _ hw := absurd hw List.not_mem_nil

namespace Limit

variable (limit : Limit) (tasks : List (Task ε))

theorem sound_run : Pool.Sound tasks.zipIdx ((Strategy.concurrent limit).pool tasks).run :=
  .run fun h => by simpa using limit.eq_nil_of_workers_eq_zero h

theorem run_stops : ((Strategy.concurrent limit).pool tasks).run.step = none :=
  Pool.run_step _ fun _ hw => absurd hw List.not_mem_nil

theorem run_blames :
    let start := (Strategy.concurrent limit).pool tasks
    start.run.Blames tasks (Pool.takenFor start.work start) := by
  intro start
  have hsound : Pool.Sound tasks.zipIdx start :=
    .initial _ _ fun h => by simpa using limit.eq_nil_of_workers_eq_zero h
  exact (Pool.Blames.initial _ tasks).runFor hsound start.work

theorem result_eq_error_iff (e : ε) :
    let run := (Strategy.concurrent limit).run tasks
    run.result = .error e ↔
      ∃ i, (takenOrder tasks run.log).head? = some i ∧ failureOf tasks i = some e := by
  obtain ⟨hwakes, -⟩ := (limit.sound_run tasks).stopped (limit.run_stops tasks)
  exact (limit.run_blames tasks).result_eq_error_iff hwakes e

theorem started_perm_ended :
    let run := (Strategy.concurrent limit).run tasks
    run.started.Perm (Log.ended run.log) := by
  intro run
  have hregular : Pool.Regular tasks.length _ ((Strategy.concurrent limit).pool tasks).run :=
    limit.regular_runFor tasks _
  have hends := hregular.ledger.started_perm
  obtain ⟨-, hwaiting, -⟩ := (limit.sound_run tasks).stopped (limit.run_stops tasks)
  rwa [hwaiting, List.map_nil, List.nil_append] at hends

-- Tasks that run together come to such an end under every limit, and the failures are taken in by
-- the workers in the order that the log shows.
theorem run_concludes :
    let run := (Strategy.concurrent limit).run tasks
    let start := (Strategy.concurrent limit).pool tasks
    run.Concludes tasks ∧
      (Pool.takenFor start.work start).map some =
        (takenOrder tasks run.log).map (failureOf tasks) := by
  intro run start
  have hfaithful := (Strategy.concurrent limit).run_faithful tasks
  have hstop := limit.run_stops tasks
  refine ⟨⟨(limit.sound_run tasks).count_settle hstop, hfaithful.result, hfaithful.completes,
    limit.result_eq_error_iff tasks, limit.started_perm_ended tasks⟩, ?_⟩
  obtain ⟨hwakes, -⟩ := (limit.sound_run tasks).stopped hstop
  have horder := (limit.run_blames tasks).order
  rwa [hwakes, Wake.failures, List.append_nil] at horder

end Limit

-- The second task fails within its call, when the failure of the first one was logged but not yet
-- taken in.
example : (Strategy.concurrent .unbounded).run
    [⟨some 0, some 'a'.unit⟩, ⟨none, some 'b'.unit⟩, ⟨none, none⟩] =
    ⟨[.start 0, .fail 0, .start 1, .fail 1, .settle], .error 'b'.unit⟩ := rfl

end Sections.Schedule
