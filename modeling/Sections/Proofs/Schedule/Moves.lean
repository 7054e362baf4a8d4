import Sections.Schedule.Pool

namespace Sections.Schedule

theorem total_append (first second : List Nat) :
    total (first ++ second) = total first + total second := by
  induction first with
  | nil => simp [total]
  | cons n rest ih =>
      rw [List.cons_append, total, total, ih]
      omega

namespace Pool

variable {ε : Type}

-- All that a step of a pool can do. A worker that wakes up ends, or starts the next task;
-- when nobody wakes up the run settles, or the first waiting task advances.
inductive Move (p : Pool ε) : Pool ε → Prop where
  | takeIn (e : ε) (rest : List (Wake ε)) (hw : p.wakes = .caught e :: rest) :
      Move p { p with
        wakes := rest, workers := p.workers - 1, failed := true, caught := p.caught.or (some e) }
  | retire (rest : List (Wake ε)) (hw : p.wakes = .next :: rest)
      (hq : p.failed = true ∨ p.queued = []) :
      Move p { p with wakes := rest, workers := p.workers - 1 }
  | failAtOnce (task : Task ε) (i : Nat) (queue : List (Task ε × Nat)) (rest : List (Wake ε))
      (e : ε) (hw : p.wakes = .next :: rest) (hf : p.failed = false)
      (hq : p.queued = (task, i) :: queue) (ht : task.turns = none)
      (he : task.failure = some e) :
      Move p { p with
        queued := queue, wakes := rest, workers := p.workers - 1, failed := true,
        caught := p.caught.or (some e), log := p.log ++ [.start i, .fail i] }
  | failSoon (task : Task ε) (i : Nat) (queue : List (Task ε × Nat)) (rest : List (Wake ε))
      (e : ε) (hw : p.wakes = .next :: rest) (hf : p.failed = false)
      (hq : p.queued = (task, i) :: queue) (ht : task.turns = some 0)
      (he : task.failure = some e) :
      Move p { p with
        queued := queue, wakes := rest ++ [.caught e], log := p.log ++ [.start i, .fail i] }
  | finishAtOnce (task : Task ε) (i : Nat) (queue : List (Task ε × Nat)) (rest : List (Wake ε))
      (hw : p.wakes = .next :: rest) (hf : p.failed = false)
      (hq : p.queued = (task, i) :: queue) (ht : task.turns.getD 0 = 0)
      (he : task.failure = none) :
      Move p { p with
        queued := queue, wakes := rest ++ [.next], log := p.log ++ [.start i, .finish i] }
  | wait (task : Task ε) (i : Nat) (queue : List (Task ε × Nat)) (rest : List (Wake ε))
      (left : Nat) (hw : p.wakes = .next :: rest) (hf : p.failed = false)
      (hq : p.queued = (task, i) :: queue) (ht : task.turns = some (left + 1)) :
      Move p { p with
        queued := queue, wakes := rest, waiting := p.waiting ++ [⟨task, i, left + 1⟩],
        log := p.log ++ [.start i] }
  | settle (hw : p.wakes = []) (hs : p.canSettle = true) :
      Move p { p with settled := true, log := p.log ++ [.settle] }
  | advance (w : Waiting ε) (rest : List (Waiting ε)) (hw : p.wakes = [])
      (hs : p.canSettle = false) (hq : p.waiting = w :: rest) (hl : 1 < w.left) :
      Move p { p with waiting := rest ++ [{ w with left := w.left - 1 }] }
  | finish (w : Waiting ε) (rest : List (Waiting ε)) (hw : p.wakes = [])
      (hs : p.canSettle = false) (hq : p.waiting = w :: rest) (hl : w.left ≤ 1)
      (he : w.task.failure = none) :
      Move p { p with
        waiting := rest, wakes := [.next], log := p.log ++ [.finish w.index] }
  | fail (w : Waiting ε) (rest : List (Waiting ε)) (e : ε) (hw : p.wakes = [])
      (hs : p.canSettle = false) (hq : p.waiting = w :: rest) (hl : w.left ≤ 1)
      (he : w.task.failure = some e) :
      Move p { p with
        waiting := rest, wakes := [.caught e], log := p.log ++ [.fail w.index] }

-- The next task fails or ends within the call, or waits.
theorem begin_move {p : Pool ε} {task : Task ε} {i : Nat} {queue : List (Task ε × Nat)}
    {rest : List (Wake ε)} (hw : p.wakes = .next :: rest) (hf : p.failed = false)
    (hq : p.queued = (task, i) :: queue) :
    Move p ({ p with wakes := rest, queued := queue }.begin task i) := by
  cases ht : task.turns with
  | none =>
      cases he : task.failure with
      | none =>
          simpa [begin, complete, record, wake, ht, he] using
            Move.finishAtOnce task i queue rest hw hf hq (by simp [ht]) he
      | some e =>
          simpa [begin, complete, record, take, Pool.retire, ht, he] using
            Move.failAtOnce task i queue rest e hw hf hq ht he
  | some turns =>
      cases turns with
      | zero =>
          cases he : task.failure with
          | none =>
              simpa [begin, complete, record, wake, ht, he] using
                Move.finishAtOnce task i queue rest hw hf hq (by simp [ht]) he
          | some e =>
              simpa [begin, complete, record, wake, ht, he] using
                Move.failSoon task i queue rest e hw hf hq ht he
      | succ left =>
          simpa [begin, record, ht] using Move.wait task i queue rest left hw hf hq ht

theorem advance_move {p : Pool ε} {w : Waiting ε} {rest : List (Waiting ε)} (hw : p.wakes = [])
    (hs : p.canSettle = false) (hq : p.waiting = w :: rest) :
    Move p ({ p with waiting := rest }.advance w) := by
  unfold Pool.advance
  split
  · rename_i hl
    cases he : w.task.failure with
    | none => simpa [complete, record, wake, he, hw] using Move.finish w rest hw hs hq hl he
    | some e => simpa [complete, record, wake, he, hw] using Move.fail w rest e hw hs hq hl he
  · rename_i hl
    exact Move.advance w rest hw hs hq (by omega)

theorem step_move {p next : Pool ε} (h : p.step = some next) : Move p next := by
  unfold step at h
  split at h
  · rename_i e rest hw
    rw [← Option.some.inj h]
    exact Move.takeIn e rest hw
  · rename_i rest hw
    rw [← Option.some.inj h]
    unfold look
    split
    · rename_i hf
      exact Move.retire rest hw (Or.inl hf)
    · rename_i hf
      split
      · rename_i hq
        exact Move.retire rest hw (Or.inr hq)
      · rename_i task i queue hq
        exact begin_move hw (Bool.eq_false_iff.mpr hf) hq
  · rename_i hw
    split at h
    · rename_i hs
      rw [← Option.some.inj h]
      exact Move.settle hw hs
    · rename_i hs
      split at h
      · contradiction
      · rename_i w rest hq
        rw [← Option.some.inj h]
        exact advance_move hw (Bool.eq_false_iff.mpr hs) hq

-- A run stops only when nobody wakes up, nothing waits and the run has settled or cannot settle.
theorem step_eq_none_iff {p : Pool ε} :
    p.step = none ↔ p.wakes = [] ∧ p.canSettle = false ∧ p.waiting = [] := by
  unfold step
  cases p.wakes with
  | cons w rest => cases w <;> simp
  | nil =>
      cases p.canSettle with
      | true => simp
      | false => cases p.waiting <;> simp

-- Every waiting task has at least one turn left.
def Patient (p : Pool ε) : Prop := ∀ w ∈ p.waiting, 1 ≤ w.left

theorem Move.patient {p next : Pool ε} (h : Move p next) (hp : p.Patient) : next.Patient := by
  cases h with
  | takeIn | retire | failAtOnce | failSoon | finishAtOnce | settle => exact hp
  | wait task i queue rest left =>
      intro w hm
      rcases List.mem_append.mp hm with hm | hm
      · exact hp w hm
      · rw [List.mem_singleton.mp hm]
        exact Nat.le_add_left 1 left
  | advance w rest hw hs hq hl =>
      intro other hm
      rcases List.mem_append.mp hm with hm | hm
      · exact hp other (hq ▸ List.mem_cons_of_mem w hm)
      · rw [List.mem_singleton.mp hm]
        exact Nat.le_sub_one_of_lt hl
  | finish w rest _ _ hq | fail w rest _ _ _ hq =>
      intro other hm
      exact hp other (hq ▸ List.mem_cons_of_mem w hm)

theorem Move.work_lt {p next : Pool ε} (h : Move p next) (hp : p.Patient) : next.work < p.work := by
  cases h with
  | takeIn e rest hw | retire rest hw =>
      simp only [work, hw, List.length_cons]
      omega
  | failAtOnce task i queue rest e hw _ hq | failSoon task i queue rest e hw _ hq
  | finishAtOnce task i queue rest hw _ hq =>
      simp only [work, hw, hq, List.length_cons, List.length_append, List.length_nil,
        List.map_cons, total, Task.weight]
      omega
  | wait task i queue rest left hw _ hq ht =>
      simp only [work, hw, hq, ht, List.length_cons, List.map_cons, List.map_append,
        total, total_append, List.map_nil, Task.weight, Option.getD_some]
      omega
  | settle hw hs =>
      simp only [canSettle, Bool.and_eq_true, Bool.not_eq_true'] at hs
      simp [work, hs.1]
  | advance w rest hw hs hq hl =>
      simp only [work, hq, List.map_cons, List.map_append, total, total_append,
        List.map_nil]
      omega
  | finish w rest hw hs hq | fail w rest e hw hs hq =>
      have hl := hp w (by simp [hq])
      simp only [work, hw, hq, List.map_cons, total, List.length_cons, List.length_nil]
      omega

-- What every move preserves holds wherever a run stops.
theorem runFor_preserves {P : Pool ε → Prop} (hstep : ∀ p next, Move p next → P p → P next)
    (n : Nat) (p : Pool ε) (hp : P p) : P (runFor n p) := by
  induction n generalizing p with
  | zero => exact hp
  | succ n ih =>
      rw [runFor]
      split
      · exact hp
      · rename_i next hs
        exact ih next (hstep p next (step_move hs) hp)

theorem runFor_step (n : Nat) (p : Pool ε) (hp : p.Patient) (hn : p.work ≤ n) :
    (runFor n p).step = none := by
  induction n generalizing p with
  | zero =>
      cases hs : p.step with
      | none => exact hs
      | some next =>
          have := (step_move hs).work_lt hp
          omega
  | succ n ih =>
      rw [runFor]
      split
      · assumption
      · rename_i next hs
        have hlt := (step_move hs).work_lt hp
        exact ih next ((step_move hs).patient hp) (by omega)

-- The work at the start is enough for a run to come to its end.
theorem run_step (p : Pool ε) (hp : p.Patient) : p.run.step = none :=
  runFor_step p.work p hp (Nat.le_refl _)

-- A pool that has come to its end stays as it is.
theorem runFor_of_step_eq_none {p : Pool ε} (h : p.step = none) (n : Nat) : runFor n p = p := by
  cases n with
  | zero => rfl
  | succ n => rw [runFor, h]

theorem runFor_add (m n : Nat) (p : Pool ε) : runFor (m + n) p = runFor n (runFor m p) := by
  induction m generalizing p with
  | zero => rw [Nat.zero_add, runFor]
  | succ m ih =>
      rw [Nat.add_right_comm, runFor, runFor]
      split
      · rename_i hs
        exact (runFor_of_step_eq_none hs n).symm
      · exact ih _

end Pool

end Sections.Schedule
