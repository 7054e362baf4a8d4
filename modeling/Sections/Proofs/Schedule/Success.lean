import Sections.Proofs.Schedule.Invariants
import Sections.Schedule.Strategy

namespace Sections.Schedule

variable {ε : Type}

-- A run in which every task was started once and has succeeded before the run settled.
structure Run.Completes (run : Run ε) (indices : List Nat) : Prop where
  result : run.result = .ok ()
  started : run.started.Perm indices
  finished : ∀ i ∈ indices, i ∈ run.finishedInTime

theorem Run.started_cons (i : Nat) (rest : List Event) (result : Except ε Unit) :
    Run.started ⟨.start i :: .finish i :: rest, result⟩ = i :: Run.started ⟨rest, result⟩ := rfl

theorem Run.finishedInTime_cons (i : Nat) (rest : List Event) (result : Except ε Unit) :
    Run.finishedInTime ⟨.start i :: .finish i :: rest, result⟩ =
      i :: Run.finishedInTime ⟨rest, result⟩ := rfl

namespace Pool

-- A run stops when it has settled and no worker is left.
theorem Sound.stopped {tasks : List (Task ε × Nat)} {p : Pool ε} (h : Sound tasks p)
    (hstop : p.step = none) :
    p.wakes = [] ∧ p.waiting = [] ∧ p.workers = 0 ∧ p.settled = true := by
  obtain ⟨hwakes, hcan, hwaiting⟩ := step_eq_none_iff.mp hstop
  have hworkers : p.workers = 0 := by simp [h.manned.workers, hwakes, hwaiting]
  have hsettled : p.settled = true := by simpa [canSettle, hworkers] using hcan
  exact ⟨hwakes, hwaiting, hworkers, hsettled⟩

-- Where a run without a failure stops, everything was done before it settled.
theorem Sound.completes {tasks : List (Task ε × Nat)} {p : Pool ε} (h : Sound tasks p)
    (hstop : p.step = none) (hc : p.caught = none) :
    Run.Completes ⟨p.log, p.result⟩ (tasks.map (·.2)) ∧ ∀ entry ∈ tasks, entry.1.failure = none := by
  obtain ⟨hwakes, hwaiting, hworkers, hsettled⟩ := h.stopped hstop
  have hqueued : p.queued = [] := h.manned.queued (by simp [h.manned.failed, hc]) hworkers
  obtain ⟨before, after, hlog, hbefore, -, hquiet⟩ := h.settles.settled hsettled
  rw [(hquiet hc).2] at hlog
  have hdone : ∀ entry ∈ tasks, entry.1.failure = none ∧ .finish entry.2 ∈ p.log := by
    intro entry he
    rcases h.fate entry he with ho | ⟨e, hf⟩ | hd
    · simp [Open, hqueued, hwaiting] at ho
    · simp [Failing, hc, hwakes] at hf
    · exact hd
  have hintime : p.log.takeWhile (· ≠ .settle) = before := by
    rw [hlog, List.takeWhile_append_of_pos]
    · simp
    · intro event he
      have hne : event ≠ .settle := fun hs => hbefore (hs ▸ he)
      simpa using hne
  have hstarted : p.log.filterMap Event.startedTask? = tasks.map (·.2) := by
    simpa [Dispatches, hqueued] using h.dispatches
  refine ⟨⟨by simp [result, hc], List.Perm.of_eq hstarted, fun i hi => ?_⟩,
    fun entry he => (hdone entry he).1⟩
  obtain ⟨entry, he, rfl⟩ := List.mem_map.mp hi
  have hfinish : .finish entry.2 ∈ before := by simpa [hlog] using (hdone entry he).2
  exact List.mem_filterMap.mpr ⟨.finish entry.2, hintime ▸ hfinish, rfl⟩

theorem Sound.caught_eq_none {tasks : List (Task ε × Nat)} {p : Pool ε} (h : Sound tasks p)
    (hn : ∀ entry ∈ tasks, entry.1.failure = none) : p.caught = none := by
  cases hc : p.caught with
  | none => rfl
  | some e =>
      obtain ⟨entry, he, hf⟩ := h.blamed e (Or.inl hc)
      rw [hn entry he] at hf
      contradiction

theorem nodup_started {indices : List Nat} (hn : indices.Nodup) {p : Pool ε}
    (h : p.Dispatches indices) : (p.log.filterMap Event.startedTask?).Nodup :=
  (List.nodup_append.mp (h ▸ hn)).1

end Pool

-- The outcome of a run, whatever the tasks do: none of them is started twice, and the run succeeds
-- just when no task fails, after it has done all of them.
structure Run.Faithful (run : Run ε) (tasks : List (Task ε)) : Prop where
  nodup : run.started.Nodup
  result : run.result = .ok () ↔ ∀ task ∈ tasks, task.failure = none
  completes : run.result = .ok () → run.Completes (List.range tasks.length)

theorem inOrder_result (entries : List (Task ε × Nat)) :
    (inOrder entries).result = .ok () ↔ ∀ entry ∈ entries, entry.1.failure = none := by
  induction entries with
  | nil => exact iff_of_true rfl nofun
  | cons entry rest ih =>
      obtain ⟨task, i⟩ := entry
      cases hf : task.failure with
      | none => simp [inOrder, hf, ih]
      | some e => simp [inOrder, hf]

theorem inOrder_started (entries : List (Task ε × Nat)) :
    (inOrder entries).started <+: entries.map (·.2) := by
  induction entries with
  | nil => exact List.nil_prefix
  | cons entry rest ih =>
      obtain ⟨task, i⟩ := entry
      rw [List.map_cons, inOrder]
      split
      · exact (List.prefix_cons_inj i).mpr List.nil_prefix
      · exact (List.prefix_cons_inj i).mpr ih

theorem inOrder_completes (tasks : List (Task ε × Nat))
    (h : ∀ entry ∈ tasks, entry.1.failure = none) :
    (inOrder tasks).Completes (tasks.map (·.2)) := by
  induction tasks with
  | nil => exact ⟨rfl, List.Perm.nil, fun _ hi => absurd hi List.not_mem_nil⟩
  | cons entry rest ih =>
      obtain ⟨task, i⟩ := entry
      have hf : task.failure = none := h (task, i) (by simp)
      obtain ⟨hr, hs, hd⟩ := ih fun other ho => h other (List.mem_cons_of_mem _ ho)
      have hrun : inOrder ((task, i) :: rest) =
          ⟨.start i :: .finish i :: (inOrder rest).log, (inOrder rest).result⟩ := by
        simp only [inOrder, hf]
      rw [hrun]
      refine ⟨hr, ?_, fun k hk => ?_⟩
      · rw [Run.started_cons]
        exact hs.cons i
      · rw [Run.finishedInTime_cons]
        rcases List.mem_cons.mp hk with rfl | hk
        · exact List.mem_cons_self
        · exact List.mem_cons_of_mem _ (hd k hk)

theorem map_snd_zipIdx {α : Type} (items : List α) :
    items.zipIdx.map (·.2) = List.range items.length := by
  rw [List.zipIdx_map_snd, List.range_eq_range']

theorem forall_mem_zipIdx {tasks : List (Task ε)} :
    (∀ entry ∈ tasks.zipIdx, entry.1.failure = none) ↔ ∀ task ∈ tasks, task.failure = none := by
  constructor
  · intro h task ht
    rw [← List.zipIdx_map_fst 0 tasks] at ht
    obtain ⟨entry, he, rfl⟩ := List.mem_map.mp ht
    exact h entry he
  · exact fun h entry he => h entry.1 (List.fst_mem_of_mem_zipIdx he)

theorem inOrder_faithful {entries : List (Task ε × Nat)} {tasks : List (Task ε)}
    (h : entries.Perm tasks.zipIdx) : (inOrder entries).Faithful tasks := by
  have hindices : (entries.map (·.2)).Perm (List.range tasks.length) :=
    map_snd_zipIdx tasks ▸ h.map (·.2)
  refine ⟨?_, ?_, fun hr => ?_⟩
  · exact (hindices.nodup_iff.mpr List.nodup_range).sublist (inOrder_started entries).sublist
  · rw [inOrder_result, ← forall_mem_zipIdx]
    exact ⟨fun hf entry he => hf entry (h.mem_iff.mpr he), fun hf entry he => hf entry (h.mem_iff.mp he)⟩
  · have hc := inOrder_completes entries ((inOrder_result entries).mp hr)
    exact ⟨hc.result, hc.started.trans hindices,
      fun i hi => hc.finished i (hindices.mem_iff.mpr hi)⟩

theorem concurrently_faithful (workers : Nat) (tasks : List (Task ε))
    (hw : workers = 0 → tasks = []) : (concurrently workers tasks).Faithful tasks := by
  have hsound : Pool.Sound tasks.zipIdx (Pool.initial workers tasks.zipIdx).run :=
    .run (by simpa using hw)
  have hstop := Pool.run_step (.initial workers tasks.zipIdx) fun _ hm => absurd hm List.not_mem_nil
  have hdispatches := hsound.dispatches
  rw [map_snd_zipIdx] at hdispatches
  have hresult : (concurrently workers tasks).result = .ok () ↔
      (Pool.initial workers tasks.zipIdx).run.caught = none := by
    simp only [concurrently, Pool.result]
    split <;> simp_all
  refine ⟨Pool.nodup_started List.nodup_range hdispatches, ?_, fun hr => ?_⟩
  · rw [hresult, ← forall_mem_zipIdx]
    exact ⟨fun hc => (hsound.completes hstop hc).2, hsound.caught_eq_none⟩
  · exact map_snd_zipIdx tasks ▸ (hsound.completes hstop (hresult.mp hr)).1

theorem Limit.eq_nil_of_workers_eq_zero (limit : Limit) {tasks : List (Task ε)}
    (h : limit.workers tasks.length = 0) : tasks = [] := by
  cases limit with
  | unbounded => exact List.length_eq_zero_iff.mp h
  | atMost count positive =>
      simp only [Limit.workers] at h
      exact List.length_eq_zero_iff.mp (by omega)

-- The order of the tasks and the number of workers make no difference to whether a run succeeds.
theorem Strategy.run_faithful (strategy : Strategy) (tasks : List (Task ε)) :
    (strategy.run tasks).Faithful tasks := by
  cases strategy with
  | sequential => exact inOrder_faithful (List.Perm.refl _)
  | lastToFirst => exact inOrder_faithful (List.reverse_perm _)
  | concurrent limit => exact concurrently_faithful _ tasks limit.eq_nil_of_workers_eq_zero

end Sections.Schedule
