import Sections.Proofs.Schedule.Success
import Sections.Proofs.Schedule.UnderWay

namespace Sections.Schedule

variable {ε : Type}

namespace Pool

-- Between the start of a task and what comes of it at once, the worker of that task has just
-- woken up. At every other moment the log is that of a pool before or after a move.
theorem Move.log_prefix {p next : Pool ε} (h : Move p next) {log : List Event}
    (hl : log <+: next.log) :
    log <+: p.log ∨ log = next.log ∨ p.wakes ≠ [] ∧ ∃ i, log = p.log ++ [.start i] := by
  cases h with
  | takeIn | retire | advance => exact Or.inl hl
  | wait | settle | finish | fail =>
      rcases List.prefix_concat_iff.mp hl with hl | hl
      · exact Or.inr (Or.inl hl)
      · exact Or.inl hl
  | failAtOnce task i queue rest e hw | failSoon task i queue rest e hw
  | finishAtOnce task i queue rest hw =>
      have hwakes : p.wakes ≠ [] := by simp [hw]
      rcases Log.prefix_of_prefix_pair hl with hl | hl | hl
      · exact Or.inl hl
      · exact Or.inr (Or.inl hl)
      · exact Or.inr (Or.inr ⟨hwakes, i, hl⟩)

-- At no moment are more tasks under way than the crew has workers.
def Bounded (crew : Nat) (p : Pool ε) : Prop :=
  ∀ log, log <+: p.log → (Log.underWay log).length ≤ crew

theorem Move.bounded {crew count : Nat} {p next : Pool ε} (h : Move p next) (hm : p.Manned)
    (hw : p.workers ≤ crew) (hw' : next.workers ≤ crew) (hl : p.Ledger count)
    (hp : p.Bounded crew) : next.Bounded crew := by
  intro log hlog
  rcases h.log_prefix hlog with hlog | rfl | ⟨hwakes, i, rfl⟩
  · exact hp log hlog
  · have hworkers := (h.manned hm).workers
    rw [(hl.move h).length_underWay]
    omega
  · have hworkers := hm.workers
    have hawake := List.length_pos_iff.mpr hwakes
    have hstart := Log.length_underWay_start p.log i
    rw [hl.length_underWay] at hstart
    omega

-- Until a failure is logged every worker of the crew takes part, unless nothing is left to start.
structure Crewed (crew : Nat) (p : Pool ε) : Prop where
  workers_le : p.workers ≤ crew
  calm : Log.failed p.log = [] → p.failed = false ∧ ∀ e, .caught e ∉ p.wakes
  busy : Log.failed p.log = [] → p.workers = crew ∨ p.queued = []

theorem Move.crewed {crew : Nat} {p next : Pool ε} (h : Move p next) (hp : p.Crewed crew) :
    next.Crewed crew := by
  obtain ⟨hle, hcalm, hbusy⟩ := hp
  have hfewer : p.workers - 1 ≤ crew := by omega
  cases h with
  | takeIn e rest hw =>
      have hnever : Log.failed p.log ≠ [] := fun hf => (hcalm hf).2 e (by simp [hw])
      exact ⟨hfewer, fun hf => absurd hf hnever, fun hf => absurd hf hnever⟩
  | retire rest hw hq =>
      refine ⟨hfewer, fun hf => ⟨(hcalm hf).1, fun e he => ?_⟩, fun hf => Or.inr ?_⟩
      · exact (hcalm hf).2 e (hw ▸ List.mem_cons_of_mem _ he)
      · exact hq.resolve_left (Bool.eq_false_iff.mp (hcalm hf).1)
  | failAtOnce => exact ⟨hfewer, by simp, by simp⟩
  | failSoon | fail => exact ⟨hle, by simp, by simp⟩
  | finishAtOnce task i queue rest hw hrun hq =>
      refine ⟨hle, fun hf => ⟨hrun, fun e he => ?_⟩, fun hf => Or.inl ?_⟩
      · have hrest := (List.mem_append.mp he).resolve_right (by simp)
        exact (hcalm (by simpa using hf)).2 e (hw ▸ List.mem_cons_of_mem _ hrest)
      · exact (hbusy (by simpa using hf)).resolve_right (by simp [hq])
  | wait task i queue rest left hw hrun hq =>
      refine ⟨hle, fun hf => ⟨hrun, fun e he => ?_⟩, fun hf => Or.inl ?_⟩
      · exact (hcalm (by simpa using hf)).2 e (hw ▸ List.mem_cons_of_mem _ he)
      · exact (hbusy (by simpa using hf)).resolve_right (by simp [hq])
  | settle => exact ⟨hle, fun hf => hcalm (by simpa using hf), fun hf => hbusy (by simpa using hf)⟩
  | advance => exact ⟨hle, hcalm, hbusy⟩
  | finish w rest hw =>
      refine ⟨hle, fun hf => ⟨(hcalm (by simpa using hf)).1, by simp⟩, fun hf => ?_⟩
      exact hbusy (by simpa using hf)

-- Where nobody wakes up, as many tasks are under way as the limit allows for those that have not
-- ended.
theorem Crewed.length_underWay {limit : Limit} {count : Nat} {p : Pool ε}
    (h : p.Crewed (limit.workers count)) (hm : p.Manned) (hl : p.Ledger count)
    (hw : p.wakes = []) (hf : Log.failed p.log = []) :
    (Log.underWay p.log).length = limit.workers (Log.unended count p.log).length := by
  have hworkers := hm.workers
  have hle := h.workers_le
  have hbusy := h.busy hf
  have hcount : (Log.unended count p.log).length ≤ count :=
    (List.length_filter_le _ _).trans_eq List.length_range
  rw [hl.length_unended] at hcount ⊢
  rw [hl.length_underWay]
  rw [hw, List.length_nil] at hworkers
  rw [← List.length_eq_zero_iff] at hbusy
  cases limit with
  | unbounded =>
      simp only [Limit.workers] at hle hbusy ⊢
      omega
  | atMost most positive =>
      simp only [Limit.workers] at hle hbusy ⊢
      omega

end Pool

namespace Wake

-- The workers that look for a task before the first failure is taken in.
def ahead : List (Wake ε) → Nat
  | .next :: rest => ahead rest + 1
  | _ => 0

-- What comes behind a failure has to wait until it is taken in.
theorem ahead_append {wakes : List (Wake ε)} {e : ε} (h : .caught e ∈ wakes)
    (more : List (Wake ε)) : ahead (wakes ++ more) = ahead wakes := by
  induction wakes with
  | nil => exact absurd h List.not_mem_nil
  | cons w rest ih =>
      cases w with
      | caught other => rfl
      | next => exact congrArg (· + 1) (ih ((List.mem_cons.mp h).resolve_left nofun))

theorem ahead_caught_le (rest : List (Wake ε)) (e : ε) :
    ahead (rest ++ [.caught e]) ≤ rest.length := by
  induction rest with
  | nil => exact Nat.le_refl 0
  | cons w rest ih =>
      cases w with
      | caught other => exact Nat.zero_le _
      | next => exact Nat.succ_le_succ ih

end Wake

namespace Pool

-- Workers that may still start a task before a failure is taken in.
def allowance (p : Pool ε) : Nat := if p.failed then 0 else Wake.ahead p.wakes

-- A failure that was logged is taken in, or a worker will wake up to it.
def Warned (p : Pool ε) : Prop := p.failed = true ∨ ∃ e, .caught e ∈ p.wakes

-- While workers may still start a task, the failure comes behind the one that wakes up.
theorem Warned.behind {p : Pool ε} {rest : List (Wake ε)} (h : p.Warned) (hf : p.failed = false)
    (hw : p.wakes = .next :: rest) : ∃ e, .caught e ∈ rest := by
  obtain ⟨e, he⟩ := h.resolve_left (Bool.eq_false_iff.mp hf)
  rw [hw] at he
  exact ⟨e, (List.mem_cons.mp he).resolve_left nofun⟩

theorem Warned.failed_of_asleep {p : Pool ε} (h : p.Warned) (hw : p.wakes = []) :
    p.failed = true := by
  refine h.resolve_right ?_
  rintro ⟨e, he⟩
  rw [hw] at he
  contradiction

theorem Move.warned {p next : Pool ε} (h : Move p next) (hp : Log.failed p.log ≠ [] → p.Warned)
    (hf : Log.failed next.log ≠ []) : next.Warned := by
  cases h with
  | takeIn | failAtOnce => exact Or.inl rfl
  | failSoon task i queue rest e | fail w rest e => exact Or.inr ⟨e, by simp⟩
  | retire rest hw =>
      refine (hp hf).imp_right ?_
      rintro ⟨e, he⟩
      rw [hw] at he
      exact ⟨e, (List.mem_cons.mp he).resolve_left nofun⟩
  | finishAtOnce task i queue rest hw hrun =>
      obtain ⟨e, he⟩ := (hp (by simpa using hf)).behind hrun hw
      exact Or.inr ⟨e, List.mem_append_left _ he⟩
  | wait task i queue rest left hw hrun =>
      exact Or.inr ((hp (by simpa using hf)).behind hrun hw)
  | settle => exact hp (by simpa using hf)
  | advance => exact hp hf
  | finish w rest hw => exact Or.inl ((hp (by simpa using hf)).failed_of_asleep hw)

-- A start behind a failure uses up one of the workers that may still start a task.
theorem Move.spends {p next : Pool ε} (h : Move p next) (hp : p.Warned) :
    ∃ new, next.log = p.log ++ new ∧ (Log.started new).length + next.allowance ≤ p.allowance := by
  cases h with
  | takeIn e rest hw => exact ⟨[], by simp, Nat.zero_le _⟩
  | retire rest hw hq =>
      refine ⟨[], by simp, ?_⟩
      simp only [allowance, hw, Wake.ahead, Log.started_nil, List.length_nil]
      split <;> omega
  | failAtOnce task i queue rest e hw hf =>
      refine ⟨_, rfl, ?_⟩
      simp only [allowance, hf, hw, Wake.ahead]
      exact Nat.succ_le_succ (Nat.zero_le _)
  | failSoon task i queue rest e hw hf | finishAtOnce task i queue rest hw hf =>
      obtain ⟨other, ho⟩ := hp.behind hf hw
      refine ⟨_, rfl, ?_⟩
      simp only [allowance, hf, hw, Wake.ahead, Wake.ahead_append ho]
      exact Nat.le_of_eq (Nat.add_comm 1 _)
  | wait task i queue rest left hw hf =>
      refine ⟨_, rfl, ?_⟩
      simp only [allowance, hf, hw, Wake.ahead]
      exact Nat.le_of_eq (Nat.add_comm 1 _)
  | settle => exact ⟨[.settle], rfl, Nat.le_of_eq (Nat.zero_add _)⟩
  | advance => exact ⟨[], by simp, Nat.le_of_eq (Nat.zero_add _)⟩
  | finish w rest hw | fail w rest e hw =>
      refine ⟨_, rfl, ?_⟩
      simp only [allowance, hp.failed_of_asleep hw]
      exact Nat.le_refl 0

-- When the first failure is logged only the other workers may still start a task.
theorem Move.first_failure {p next : Pool ε} (h : Move p next) (hm : p.Manned)
    (hf : Log.failed p.log = []) (hn : Log.failed next.log ≠ []) :
    Log.started (Log.sinceFailure next.log) = [] ∧ next.allowance ≤ p.workers - 1 := by
  have hworkers := hm.workers
  cases h with
  | takeIn | retire | advance => exact absurd hf hn
  | wait | settle | finish | finishAtOnce => exact absurd (by simpa using hf) hn
  | failAtOnce task i queue rest e hw hrun =>
      rw [Log.sinceFailure_of_failed_eq_nil hf]
      exact ⟨rfl, Nat.zero_le _⟩
  | failSoon task i queue rest e hw hrun =>
      have hbehind := Wake.ahead_caught_le rest e
      rw [Log.sinceFailure_of_failed_eq_nil hf]
      rw [hw, List.length_cons] at hworkers
      refine ⟨rfl, ?_⟩
      simp only [allowance]
      split <;> omega
  | fail w rest e hw =>
      rw [Log.sinceFailure_of_failed_eq_nil hf]
      refine ⟨rfl, ?_⟩
      simp only [allowance, Wake.ahead, ite_self]
      exact Nat.zero_le _

-- Each task that is started after a failure uses up one of the other workers.
structure Restrained (crew : Nat) (p : Pool ε) : Prop where
  warned : Log.failed p.log ≠ [] → p.Warned
  starts : Log.failed p.log ≠ [] →
    (Log.started (Log.sinceFailure p.log)).length + p.allowance ≤ crew - 1

theorem Move.restrained {crew : Nat} {p next : Pool ε} (h : Move p next) (hm : p.Manned)
    (hc : p.workers ≤ crew) (hp : p.Restrained crew) : next.Restrained crew := by
  refine ⟨h.warned hp.warned, fun hn => ?_⟩
  by_cases hf : Log.failed p.log = []
  · obtain ⟨hnone, hallow⟩ := h.first_failure hm hf hn
    rw [hnone, List.length_nil]
    omega
  · obtain ⟨new, hnew, hspent⟩ := h.spends (hp.warned hf)
    have hstarts := hp.starts hf
    rw [hnew, Log.sinceFailure_append hf, Log.started_append, List.length_append]
    omega

-- What is logged stays, up to the end of the run.
theorem log_prefix_runFor (n : Nat) (p : Pool ε) : p.log <+: (runFor n p).log := by
  refine runFor_preserves (P := fun q => p.log <+: q.log) (fun q next hm hq => ?_) n p
    (List.prefix_refl _)
  obtain ⟨new, hnew, -⟩ := hm.log
  rw [hnew]
  exact hq.trans (List.prefix_append _ _)

theorem log_prefix_run (n : Nat) {p : Pool ε} (hp : p.Patient) :
    (runFor n p).log <+: p.run.log := by
  rcases Nat.le_total n p.work with hn | hn
  · obtain ⟨rest, hrest⟩ := Nat.exists_eq_add_of_le hn
    rw [run, hrest, runFor_add]
    exact log_prefix_runFor rest _
  · obtain ⟨rest, hrest⟩ := Nat.exists_eq_add_of_le hn
    have hstop : (runFor p.work p).step = none := run_step p hp
    rw [hrest, runFor_add, runFor_of_step_eq_none hstop]
    exact List.prefix_refl _

-- What holds all along a run of a crew over so many tasks.
structure Regular (count crew : Nat) (p : Pool ε) : Prop where
  manned : p.Manned
  ledger : p.Ledger count
  crewed : p.Crewed crew
  bounded : p.Bounded crew
  restrained : p.Restrained crew

theorem Regular.initial (crew : Nat) (tasks : List (Task ε)) (hc : crew = 0 → tasks = []) :
    Regular tasks.length crew (Pool.initial crew tasks.zipIdx) where
  manned := ⟨by simp [Pool.initial], rfl, fun _ hw => by simpa [Pool.initial] using hc hw⟩
  ledger := by
    have hindices := List.Perm.of_eq (map_snd_zipIdx tasks)
    exact ⟨map_snd_zipIdx tasks, by simpa [Accounts, Pool.initial] using hindices⟩
  crewed := ⟨Nat.le_refl _, fun _ => ⟨rfl, by simp [Pool.initial]⟩, fun _ => Or.inl rfl⟩
  bounded log hl := by
    rw [List.prefix_nil.mp hl]
    exact Nat.zero_le _
  restrained := ⟨fun hf => absurd rfl hf, fun hf => absurd rfl hf⟩

theorem Regular.move {count crew : Nat} (p next : Pool ε) (hm : Move p next)
    (h : Regular count crew p) : Regular count crew next where
  manned := hm.manned h.manned
  ledger := h.ledger.move hm
  crewed := hm.crewed h.crewed
  bounded := hm.bounded h.manned h.crewed.workers_le (hm.crewed h.crewed).workers_le h.ledger
    h.bounded
  restrained := hm.restrained h.manned h.crewed.workers_le h.restrained

end Pool

theorem Limit.regular_runFor (limit : Limit) (tasks : List (Task ε)) (n : Nat) :
    Pool.Regular tasks.length (limit.workers tasks.length)
      (Pool.runFor n ((Strategy.concurrent limit).pool tasks)) :=
  Pool.runFor_preserves Pool.Regular.move n _
    (.initial _ tasks limit.eq_nil_of_workers_eq_zero)

-- A run that starts its tasks in the order of the list, has never more of them under way than the
-- limit allows, and starts few after a failure.
structure Run.Disciplined (run : Run ε) (limit : Limit) (count : Nat) : Prop where
  inOrder : run.started <+: List.range count
  bounded : ∀ log, log <+: run.log → (Log.underWay log).length ≤ limit.workers count
  restrained : (Log.started (Log.sinceFailure run.log)).length ≤ limit.workers count - 1

-- Tasks that run together are started in the order of the list, each at most once. No more of them
-- than the limit allows are under way at any moment. As long as none has failed, whenever nobody
-- wakes up there are as many under way as the limit allows for those that have not ended. After
-- the first failure each worker but one starts one more task at most.
theorem Limit.run_disciplined (limit : Limit) (tasks : List (Task ε)) :
    let run := (Strategy.concurrent limit).run tasks
    run.Disciplined limit tasks.length ∧
      ∀ n, let p := Pool.runFor n ((Strategy.concurrent limit).pool tasks)
        p.log <+: run.log ∧ (p.wakes = [] → Log.failed p.log = [] →
          (Log.underWay p.log).length =
            limit.workers (Log.unended tasks.length p.log).length) := by
  have hregular := limit.regular_runFor tasks
  have hpatient : ((Strategy.concurrent limit).pool tasks).Patient :=
    fun w hw => absurd hw List.not_mem_nil
  constructor
  · have hend := hregular ((Strategy.concurrent limit).pool tasks).work
    refine ⟨⟨_, hend.ledger.dispatches⟩, hend.bounded, ?_⟩
    by_cases hf : Log.failed ((Strategy.concurrent limit).run tasks).log = []
    · have hnone := Log.sinceFailure_of_failed_eq_nil hf []
      rw [List.append_nil] at hnone
      rw [hnone]
      exact Nat.zero_le _
    · exact Nat.le_of_add_right_le (hend.restrained.starts hf)
  · intro n
    refine ⟨Pool.log_prefix_run n hpatient, fun hw hf => ?_⟩
    exact (hregular n).crewed.length_underWay (hregular n).manned (hregular n).ledger hw hf

-- Two tasks are started by other workers before the first failure is taken in, and the last one
-- is not.
example : ((Strategy.concurrent (.atMost 3 (by decide))).run
    [⟨some 0, some ()⟩, ⟨none, none⟩, ⟨some 1, none⟩, ⟨none, none⟩]).log =
    [.start 0, .fail 0, .start 1, .finish 1, .start 2, .settle, .finish 2] := by decide

end Sections.Schedule
