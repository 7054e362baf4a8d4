import Sections.Proofs.Schedule.Moves

namespace Sections.Schedule.Pool

variable {ε : Type}

-- Every worker that has not ended is awake or waits for its task, and until a failure is taken in
-- no task is left without a worker.
structure Manned (p : Pool ε) : Prop where
  workers : p.workers = p.wakes.length + p.waiting.length
  failed : p.failed = p.caught.isSome
  queued : p.failed = false → p.workers = 0 → p.queued = []

theorem Move.manned {p next : Pool ε} (h : Move p next) (hp : p.Manned) : next.Manned := by
  obtain ⟨hworkers, hfailed, hqueued⟩ := hp
  cases h with
  | takeIn e rest hw =>
      refine ⟨?_, ?_, nofun⟩
      · simp only [hw, List.length_cons] at hworkers ⊢
        omega
      · cases p.caught <;> rfl
  | retire rest hw hq =>
      refine ⟨?_, hfailed, fun hf _ => hq.resolve_left (Bool.eq_false_iff.mp hf)⟩
      simp only [hw, List.length_cons] at hworkers ⊢
      omega
  | failAtOnce task i queue rest e hw =>
      refine ⟨?_, ?_, nofun⟩
      · simp only [hw, List.length_cons] at hworkers ⊢
        omega
      · cases p.caught <;> rfl
  | failSoon task i queue rest e hw hf hq | finishAtOnce task i queue rest hw hf hq =>
      refine ⟨?_, hfailed, fun hf hz => ?_⟩
      · simp only [hw, List.length_cons, List.length_append, List.length_nil] at hworkers ⊢
        omega
      · have hnone := hqueued hf hz
        rw [hq] at hnone
        contradiction
  | wait task i queue rest left hw hf hq =>
      refine ⟨?_, hfailed, fun hf hz => ?_⟩
      · simp only [hw, List.length_cons, List.length_append, List.length_nil] at hworkers ⊢
        omega
      · have hnone := hqueued hf hz
        rw [hq] at hnone
        contradiction
  | settle => exact ⟨hworkers, hfailed, hqueued⟩
  | advance w rest hw hs hq =>
      refine ⟨?_, hfailed, hqueued⟩
      simp only [hq, List.length_cons, List.length_append, List.length_nil] at hworkers ⊢
      omega
  | finish w rest hw hs hq | fail w rest e hw hs hq =>
      refine ⟨?_, hfailed, hqueued⟩
      simp only [hw, hq, List.length_cons, List.length_nil] at hworkers ⊢
      omega

-- Where no worker is left there is nothing to do but to settle.
theorem Manned.not_move {p next : Pool ε} (h : p.Manned) (hz : p.workers = 0)
    (hs : p.settled = true) : ¬Move p next := by
  intro hm
  have hworkers := h.workers
  rw [hz] at hworkers
  cases hm with
  | settle _ hc => simp [canSettle, hs] at hc
  | advance w rest _ _ hq | finish w rest _ _ hq | fail w rest _ _ _ hq =>
      rw [hq, List.length_cons] at hworkers
      omega
  | takeIn _ rest hr | retire rest hr | failAtOnce _ _ _ rest _ hr | failSoon _ _ _ rest _ hr
  | finishAtOnce _ _ _ rest hr | wait _ _ _ rest _ hr =>
      rw [hr, List.length_cons] at hworkers
      omega

-- Tasks are started in the order of the list.
def Dispatches (indices : List Nat) (p : Pool ε) : Prop :=
  p.log.filterMap Event.startedTask? ++ p.queued.map (·.2) = indices

theorem Move.dispatches {indices : List Nat} {p next : Pool ε} (h : Move p next)
    (hp : p.Dispatches indices) : next.Dispatches indices := by
  unfold Dispatches at hp ⊢
  cases h with
  | takeIn | retire | advance => exact hp
  | failAtOnce task i queue rest e hw hf hq | failSoon task i queue rest e hw hf hq
  | finishAtOnce task i queue rest hw hf hq | wait task i queue rest left hw hf hq =>
      simpa [hq, List.filterMap_cons, Event.startedTask?] using hp
  | settle | finish | fail =>
      simpa [List.filterMap_cons, Event.startedTask?] using hp

-- A failure that ends the run is taken in, or a worker will take it in.
def Failing (p : Pool ε) (e : ε) : Prop := p.caught = some e ∨ .caught e ∈ p.wakes

theorem Move.failing {p next : Pool ε} (h : Move p next) (hp : ∃ e, p.Failing e) :
    ∃ e, next.Failing e := by
  obtain ⟨e, hc | hw⟩ := hp
  · cases h with
    | takeIn | failAtOnce => exact ⟨e, Or.inl (by simp [hc])⟩
    | _ => exact ⟨e, Or.inl hc⟩
  · cases h with
    | takeIn other rest | failAtOnce task i queue rest other =>
        exact ⟨p.caught.getD other, Or.inl (by cases p.caught <;> rfl)⟩
    | retire rest hr =>
        rw [hr] at hw
        exact ⟨e, Or.inr ((List.mem_cons.mp hw).resolve_left nofun)⟩
    | failSoon task i queue rest other hr | finishAtOnce task i queue rest hr =>
        rw [hr] at hw
        exact ⟨e, Or.inr (List.mem_append_left _ ((List.mem_cons.mp hw).resolve_left nofun))⟩
    | wait task i queue rest left hr =>
        rw [hr] at hw
        exact ⟨e, Or.inr ((List.mem_cons.mp hw).resolve_left nofun)⟩
    | settle | advance => exact ⟨e, Or.inr hw⟩
    | finish w rest hr | fail w rest other hr =>
        rw [hr] at hw
        contradiction

-- The tasks that have not ended.
def Open (p : Pool ε) (entry : Task ε × Nat) : Prop :=
  entry ∈ p.queued ∨ entry ∈ p.waiting.map fun w => (w.task, w.index)

theorem open_of_queue {p : Pool ε} {served : Task ε × Nat} {queue : List (Task ε × Nat)}
    (hq : p.queued = served :: queue) {entry : Task ε × Nat} :
    p.Open entry ↔
      entry = served ∨ entry ∈ queue ∨ entry ∈ p.waiting.map fun w => (w.task, w.index) := by
  rw [Open, hq, List.mem_cons, or_assoc]

theorem open_of_waiting {p : Pool ε} {w : Waiting ε} {rest : List (Waiting ε)}
    (hq : p.waiting = w :: rest) {entry : Task ε × Nat} :
    p.Open entry ↔ entry = (w.task, w.index) ∨ entry ∈ p.queued ∨
      entry ∈ rest.map fun w => (w.task, w.index) := by
  rw [Open, hq, List.map_cons, List.mem_cons, or_left_comm]

theorem Move.open_of_open {p next : Pool ε} (h : Move p next) {entry : Task ε × Nat}
    (ho : next.Open entry) : p.Open entry := by
  cases h with
  | takeIn | retire | settle => exact ho
  | failAtOnce task i queue rest e hw hf hq | failSoon task i queue rest e hw hf hq
  | finishAtOnce task i queue rest hw hf hq => exact (open_of_queue hq).mpr (Or.inr ho)
  | wait task i queue rest left hw hf hq =>
      rw [open_of_queue hq, or_left_comm]
      simpa [Open, or_comm] using ho
  | advance w rest hw hs hq =>
      rw [open_of_waiting hq, or_left_comm]
      simpa [Open, or_comm] using ho
  | finish w rest hw hs hq | fail w rest e hw hs hq => exact (open_of_waiting hq).mpr (Or.inr ho)

-- A failure is that of a task.
theorem Move.failing_of_failing {p next : Pool ε} (h : Move p next) {e : ε} (hf : next.Failing e) :
    p.Failing e ∨ ∃ entry, p.Open entry ∧ entry.1.failure = some e := by
  unfold Failing at hf ⊢
  cases h with
  | settle | advance => exact Or.inl hf
  | takeIn other rest hw =>
      rw [hw]
      rcases hf with hc | hc
      · rcases Option.or_eq_some_iff.mp hc with hc | ⟨-, ho⟩
        · exact Or.inl (Or.inl hc)
        · exact Or.inl (Or.inr (by simp [Option.some.inj ho]))
      · exact Or.inl (Or.inr (List.mem_cons_of_mem _ hc))
  | retire rest hw | wait task i queue rest left hw =>
      rw [hw]
      exact Or.inl (hf.imp_right (List.mem_cons_of_mem _))
  | finishAtOnce task i queue rest hw =>
      rw [hw]
      refine Or.inl (hf.imp_right fun hc => List.mem_cons_of_mem _ ?_)
      exact (List.mem_append.mp hc).resolve_right (by simp)
  | failAtOnce task i queue rest other hw hrun hq ht he =>
      rw [hw]
      rcases hf with hc | hc
      · rcases Option.or_eq_some_iff.mp hc with hc | ⟨-, ho⟩
        · exact Or.inl (Or.inl hc)
        · exact Or.inr ⟨(task, i), (open_of_queue hq).mpr (Or.inl rfl), he.trans ho⟩
      · exact Or.inl (Or.inr (List.mem_cons_of_mem _ hc))
  | failSoon task i queue rest other hw hrun hq ht he =>
      rw [hw]
      rcases hf with hc | hc
      · exact Or.inl (Or.inl hc)
      · rcases List.mem_append.mp hc with hc | hc
        · exact Or.inl (Or.inr (List.mem_cons_of_mem _ hc))
        · cases List.mem_singleton.mp hc
          exact Or.inr ⟨(task, i), (open_of_queue hq).mpr (Or.inl rfl), he⟩
  | finish w rest => exact Or.inl (Or.inl (hf.resolve_right (by simp)))
  | fail w rest other hw hs hq hl he =>
      rcases hf with hc | hc
      · exact Or.inl (Or.inl hc)
      · cases List.mem_singleton.mp hc
        exact Or.inr ⟨(w.task, w.index), (open_of_waiting hq).mpr (Or.inl rfl), he⟩

-- A task that is served ends well, or its failure ends the run.
theorem Move.fate {p next : Pool ε} (h : Move p next) {entry : Task ε × Nat} (ho : p.Open entry) :
    next.Open entry ∨ (∃ e, next.Failing e) ∨
      entry.1.failure = none ∧ .finish entry.2 ∈ next.log := by
  cases h with
  | takeIn | retire | settle => exact Or.inl ho
  | failAtOnce task i queue rest e hw hf hq =>
      rcases (open_of_queue hq).mp ho with rfl | ho
      · exact Or.inr (Or.inl ⟨p.caught.getD e, Or.inl (by cases p.caught <;> rfl)⟩)
      · exact Or.inl ho
  | failSoon task i queue rest e hw hf hq =>
      rcases (open_of_queue hq).mp ho with rfl | ho
      · exact Or.inr (Or.inl ⟨e, Or.inr (by simp)⟩)
      · exact Or.inl ho
  | finishAtOnce task i queue rest hw hf hq ht he =>
      rcases (open_of_queue hq).mp ho with rfl | ho
      · exact Or.inr (Or.inr ⟨he, by simp⟩)
      · exact Or.inl ho
  | wait task i queue rest left hw hf hq =>
      rw [open_of_queue hq, or_left_comm] at ho
      exact Or.inl (by simpa [Open, or_comm] using ho)
  | advance w rest hw hs hq =>
      rw [open_of_waiting hq, or_left_comm] at ho
      exact Or.inl (by simpa [Open, or_comm] using ho)
  | finish w rest hw hs hq hl he =>
      rcases (open_of_waiting hq).mp ho with rfl | ho
      · exact Or.inr (Or.inr ⟨he, by simp⟩)
      · exact Or.inl ho
  | fail w rest e hw hs hq =>
      rcases (open_of_waiting hq).mp ho with rfl | ho
      · exact Or.inr (Or.inl ⟨e, Or.inr (by simp)⟩)
      · exact Or.inl ho

-- All that a move adds to the log: events of a task, or the settling.
theorem Move.log {p next : Pool ε} (h : Move p next) :
    ∃ new, next.log = p.log ++ new ∧
      (.settle ∉ new ∧ next.settled = p.settled ∨
        new = [.settle] ∧ next = { p with settled := true, log := p.log ++ [.settle] } ∧
          p.canSettle = true) := by
  cases h with
  | takeIn | retire | advance => exact ⟨[], by simp, Or.inl ⟨by simp, rfl⟩⟩
  | settle hw hs => exact ⟨_, rfl, Or.inr ⟨rfl, rfl, hs⟩⟩
  | _ => exact ⟨_, rfl, Or.inl ⟨by simp, rfl⟩⟩

-- A run settles once, and nothing happens after it has settled without a failure.
structure Settles (p : Pool ε) : Prop where
  unsettled : p.settled = false → .settle ∉ p.log
  settled : p.settled = true → ∃ before after, p.log = before ++ .settle :: after ∧
    .settle ∉ before ∧ .settle ∉ after ∧ (p.caught = none → p.workers = 0 ∧ after = [])

theorem Move.caught_of_caught {p next : Pool ε} (h : Move p next) (hc : next.caught = none) :
    p.caught = none := by
  cases h with
  | takeIn | failAtOnce => exact (Option.or_eq_none_iff.mp hc).1
  | _ => exact hc

theorem Move.settles {p next : Pool ε} (h : Move p next) (hm : p.Manned) (hp : p.Settles) :
    next.Settles := by
  obtain ⟨new, hlog, ⟨hnew, hsettled⟩ | ⟨rfl, rfl, hcan⟩⟩ := h.log
  · constructor
    · intro hs
      rw [hlog, List.mem_append, not_or]
      exact ⟨hp.unsettled (hsettled ▸ hs), hnew⟩
    · intro hs
      obtain ⟨before, after, hsplit, hbefore, hafter, hquiet⟩ := hp.settled (hsettled ▸ hs)
      refine ⟨before, after ++ new, by simp [hlog, hsplit], hbefore, ?_, fun hc => ?_⟩
      · rw [List.mem_append, not_or]
        exact ⟨hafter, hnew⟩
      · exact absurd h (hm.not_move (hquiet (h.caught_of_caught hc)).1 (hsettled ▸ hs))
  · simp only [canSettle, Bool.and_eq_true, Bool.not_eq_true', Bool.or_eq_true,
      decide_eq_true_eq] at hcan
    refine ⟨by simp, fun _ => ⟨p.log, [], rfl, hp.unsettled hcan.1, by simp, fun hc => ⟨?_, rfl⟩⟩⟩
    exact hcan.2.resolve_left (by simp [show p.caught = none from hc])

-- What holds all along a run over a list of tasks.
structure Sound (tasks : List (Task ε × Nat)) (p : Pool ε) : Prop where
  manned : p.Manned
  dispatches : p.Dispatches (tasks.map (·.2))
  settles : p.Settles
  known : ∀ entry, p.Open entry → entry ∈ tasks
  blamed : ∀ e, p.Failing e → ∃ entry ∈ tasks, entry.1.failure = some e
  fate : ∀ entry ∈ tasks, p.Open entry ∨ (∃ e, p.Failing e) ∨
    entry.1.failure = none ∧ .finish entry.2 ∈ p.log

theorem Sound.initial (workers : Nat) (tasks : List (Task ε × Nat))
    (hw : workers = 0 → tasks = []) : Sound tasks (Pool.initial workers tasks) where
  manned := ⟨by simp [Pool.initial], rfl, fun _ => hw⟩
  dispatches := rfl
  settles := ⟨fun _ => List.not_mem_nil, nofun⟩
  known _ ho := ho.resolve_right List.not_mem_nil
  blamed _ hf := by simp [Failing, Pool.initial] at hf
  fate _ he := Or.inl (Or.inl he)

theorem Sound.move {tasks : List (Task ε × Nat)} (p next : Pool ε) (hm : Move p next)
    (h : Sound tasks p) : Sound tasks next where
  manned := hm.manned h.manned
  dispatches := hm.dispatches h.dispatches
  settles := hm.settles h.manned h.settles
  known entry ho := h.known entry (hm.open_of_open ho)
  blamed e hf := by
    rcases hm.failing_of_failing hf with hf | ⟨entry, ho, he⟩
    · exact h.blamed e hf
    · exact ⟨entry, h.known entry ho, he⟩
  fate entry he := by
    rcases h.fate entry he with ho | hf | ⟨hn, hlog⟩
    · exact hm.fate ho
    · exact Or.inr (Or.inl (hm.failing hf))
    · obtain ⟨new, hnew, -⟩ := hm.log
      exact Or.inr (Or.inr ⟨hn, hnew ▸ List.mem_append_left new hlog⟩)

theorem Sound.run {workers : Nat} {tasks : List (Task ε × Nat)} (hw : workers = 0 → tasks = []) :
    Sound tasks (Pool.initial workers tasks).run :=
  runFor_preserves Sound.move _ _ (.initial workers tasks hw)

end Sections.Schedule.Pool
