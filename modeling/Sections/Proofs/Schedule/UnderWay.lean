import Mathlib.Data.List.TakeWhile
import Sections.Proofs.Schedule.Invariants

namespace Sections.Schedule

variable {ε : Type}

namespace Event

-- A task ends by succeeding or by failing.
@[simp] def endedTask? : Event → Option Nat
  | .finish i => some i
  | .fail i => some i
  | _ => none

@[simp] def failedTask? : Event → Option Nat
  | .fail i => some i
  | _ => none

end Event

namespace Log

-- The tasks that a log tells of, in its order.
def started (log : List Event) : List Nat := log.filterMap Event.startedTask?

def ended (log : List Event) : List Nat := log.filterMap Event.endedTask?

def failed (log : List Event) : List Nat := log.filterMap Event.failedTask?

-- The tasks that were started and have not ended.
def underWay (log : List Event) : List Nat := (started log).filter (· ∉ ended log)

-- The tasks, of so many, that have not ended, whether started or not.
def unended (count : Nat) (log : List Event) : List Nat :=
  (List.range count).filter (· ∉ ended log)

-- What is logged behind the first failure.
def sinceFailure (log : List Event) : List Event :=
  (log.dropWhile fun event => event.failedTask? = none).tail

theorem started_cons (event : Event) (rest : List Event) :
    started (event :: rest) = event.startedTask?.toList ++ started rest := by
  cases event <;> rfl

@[simp] theorem ended_cons (event : Event) (rest : List Event) :
    ended (event :: rest) = event.endedTask?.toList ++ ended rest := by
  cases event <;> rfl

@[simp] theorem failed_cons (event : Event) (rest : List Event) :
    failed (event :: rest) = event.failedTask?.toList ++ failed rest := by
  cases event <;> rfl

@[simp] theorem started_nil : started [] = [] := rfl

@[simp] theorem ended_nil : ended [] = [] := rfl

@[simp] theorem failed_nil : failed [] = [] := rfl

@[simp] theorem started_append (first second : List Event) :
    started (first ++ second) = started first ++ started second := List.filterMap_append

@[simp] theorem ended_append (first second : List Event) :
    ended (first ++ second) = ended first ++ ended second := List.filterMap_append

@[simp] theorem failed_append (first second : List Event) :
    failed (first ++ second) = failed first ++ failed second := List.filterMap_append

theorem failed_subset_ended (log : List Event) : failed log ⊆ ended log := by
  intro i hi
  obtain ⟨event, he, hf⟩ := List.mem_filterMap.mp hi
  refine List.mem_filterMap.mpr ⟨event, he, ?_⟩
  cases event with
  | fail k => exact hf
  | start k | finish k | settle => contradiction

-- A start adds one task at most to those under way.
theorem length_underWay_start (log : List Event) (i : Nat) :
    (underWay (log ++ [.start i])).length ≤ (underWay log).length + 1 := by
  have hs : started [.start i] = [i] := rfl
  have he : ended [.start i] = [] := rfl
  have hone := List.length_filter_le (· ∉ ended log) [i]
  simp only [underWay, started_append, ended_append, hs, he, List.append_nil, List.filter_append,
    List.length_append, List.length_singleton] at hone ⊢
  omega

theorem failed_eq_nil {log : List Event} :
    failed log = [] ↔ ∀ event ∈ log, event.failedTask? = none := List.filterMap_eq_nil_iff

-- A beginning of a log that two events were added to.
theorem prefix_of_prefix_pair {log before : List Event} {first second : Event}
    (h : log <+: before ++ [first, second]) :
    log <+: before ∨ log = before ++ [first, second] ∨ log = before ++ [first] := by
  have hsplit : before ++ [first, second] = (before ++ [first]) ++ [second] := by simp
  rw [hsplit, List.prefix_concat_iff, List.prefix_concat_iff] at h
  rcases h with h | h | h
  · exact Or.inr (Or.inl (hsplit ▸ h))
  · exact Or.inr (Or.inr h)
  · exact Or.inl h

-- Behind a failure everything counts.
theorem sinceFailure_append {log : List Event} (h : failed log ≠ []) (new : List Event) :
    sinceFailure (log ++ new) = sinceFailure log ++ new := by
  have hne : log.dropWhile (fun event => event.failedTask? = none) ≠ [] := by
    intro hd
    rw [List.dropWhile_eq_nil_iff] at hd
    exact h (failed_eq_nil.mpr fun event he => of_decide_eq_true (hd event he))
  rw [sinceFailure, List.dropWhile_append, if_neg (by simpa using hne),
    List.tail_append_of_ne_nil hne]
  rfl

theorem sinceFailure_of_failed_eq_nil {log : List Event} (h : failed log = []) (new : List Event) :
    sinceFailure (log ++ new) = sinceFailure new := by
  have hd : log.dropWhile (fun event => event.failedTask? = none) = [] := by
    rw [List.dropWhile_eq_nil_iff]
    exact fun event he => decide_eq_true (failed_eq_nil.mp h event he)
  rw [sinceFailure, List.dropWhile_append, hd]
  rfl

-- What is left of a list without the members of another.
theorem filter_notMem_perm {all kept others : List Nat} (h : all.Perm (kept ++ others))
    (hn : all.Nodup) : (all.filter (· ∉ others)).Perm kept := by
  have hnodup := h.nodup_iff.mp hn
  have hdisjoint := (List.nodup_append.mp hnodup).2.2
  have hkept : kept.filter (· ∉ others) = kept := by
    rw [List.filter_eq_self]
    intro i hi
    simpa using fun ho => hdisjoint i hi i ho rfl
  have hothers : others.filter (· ∉ others) = [] := by
    simp [List.filter_eq_nil_iff]
  have hfilter := h.filter (· ∉ others)
  rwa [List.filter_append, hkept, hothers, List.append_nil] at hfilter

end Log

namespace Pool

-- Every task is in the queue, under way or ended.
def Accounts (indices : List Nat) (p : Pool ε) : Prop :=
  (p.queued.map (·.2) ++ (p.waiting.map (·.index) ++ Log.ended p.log)).Perm indices

theorem Move.accounts {indices : List Nat} {p next : Pool ε} (h : Move p next)
    (hp : p.Accounts indices) : next.Accounts indices := by
  unfold Accounts at hp ⊢
  rw [List.perm_iff_count] at hp ⊢
  intro i
  have hi := hp i
  cases h with
  | takeIn | retire => exact hi
  | settle => simpa using hi
  | failAtOnce _ _ _ _ _ _ _ hq | failSoon _ _ _ _ _ _ _ hq | finishAtOnce _ _ _ _ _ _ hq
  | wait _ _ _ _ _ _ _ hq | advance _ _ _ _ hq | finish _ _ _ _ hq | fail _ _ _ _ _ hq =>
      simp only [hq, List.map_cons, List.map_append, List.map_nil, Log.ended_append,
        Log.ended_cons, Log.ended_nil, Event.endedTask?, Option.toList_some, Option.toList_none,
        List.count_append, List.count_cons, List.count_nil] at hi ⊢
      omega

-- The books of a pool over a list of tasks.
structure Ledger (count : Nat) (p : Pool ε) : Prop where
  dispatches : p.Dispatches (List.range count)
  accounts : p.Accounts (List.range count)

theorem Ledger.move {count : Nat} {p next : Pool ε} (hm : Move p next) (h : p.Ledger count) :
    next.Ledger count := ⟨hm.dispatches h.dispatches, hm.accounts h.accounts⟩

namespace Ledger

variable {count : Nat} {p : Pool ε}

-- Started tasks wait or have ended.
theorem started_perm (h : p.Ledger count) :
    (Log.started p.log).Perm (p.waiting.map (·.index) ++ Log.ended p.log) := by
  have hdispatched : (p.queued.map (·.2) ++ Log.started p.log).Perm (List.range count) :=
    List.perm_append_comm.trans (List.Perm.of_eq h.dispatches)
  exact (List.perm_append_left_iff _).mp (hdispatched.trans h.accounts.symm)

theorem nodup_started (h : p.Ledger count) : (Log.started p.log).Nodup :=
  (List.nodup_append.mp (h.dispatches ▸ List.nodup_range)).1

-- What is under way are the waiting tasks.
theorem length_underWay (h : p.Ledger count) : (Log.underWay p.log).length = p.waiting.length := by
  rw [Log.underWay, (Log.filter_notMem_perm h.started_perm h.nodup_started).length_eq,
    List.length_map]

theorem length_unended (h : p.Ledger count) :
    (Log.unended count p.log).length = p.queued.length + p.waiting.length := by
  have hperm := h.accounts.symm
  rw [← List.append_assoc] at hperm
  rw [Log.unended, (Log.filter_notMem_perm hperm List.nodup_range).length_eq, List.length_append,
    List.length_map, List.length_map]

end Ledger

end Pool

end Sections.Schedule
