import Mathlib.Data.List.Basic
import Sections.Proofs.Schedule.Outcome

namespace Sections.Schedule

variable {ε : Type}

-- The numbers of some items stand for the items.
theorem filterMap_getElem?_range {α : Type} (items : List α) :
    (List.range items.length).filterMap (fun i => items[i]?) = items := by
  have hget : ∀ entry ∈ items.zipIdx, items[entry.2]? = some entry.1 :=
    fun entry he => List.mk_mem_zipIdx_iff_getElem?.mp he
  rw [← map_snd_zipIdx, List.filterMap_map]
  calc items.zipIdx.filterMap ((fun i => items[i]?) ∘ Prod.snd)
      = items.zipIdx.filterMap (fun entry => some entry.1) := List.filterMap_congr hget
    _ = items.zipIdx.map Prod.fst := by rw [← List.filterMap_eq_map]; rfl
    _ = items := List.zipIdx_map_fst 0 items

namespace Strategy

-- The items of a list in the order in which their tasks are started.
def arrange {α : Type} (strategy : Strategy) (items : List α) : List α :=
  match strategy with
  | .lastToFirst => items.reverse
  | .sequential | .concurrent _ => items

def OneByOne (strategy : Strategy) : Prop := ∀ limit, strategy ≠ .concurrent limit

theorem OneByOne.cases {strategy : Strategy} (h : strategy.OneByOne) :
    strategy = .sequential ∨ strategy = .lastToFirst := by
  cases strategy with
  | sequential => exact Or.inl rfl
  | lastToFirst => exact Or.inr rfl
  | concurrent limit => exact absurd rfl (h limit)

theorem OneByOne.run_eq {strategy : Strategy} (h : strategy.OneByOne) (tasks : List (Task ε)) :
    strategy.run tasks = inOrder (strategy.arrange tasks.zipIdx) := by
  rcases h.cases with rfl | rfl <;> rfl

theorem arrange_map {α β : Type} (strategy : Strategy) (f : α → β) (items : List α) :
    strategy.arrange (items.map f) = (strategy.arrange items).map f := by
  cases strategy with
  | lastToFirst => exact List.map_reverse.symm
  | sequential | concurrent limit => rfl

theorem arrange_filterMap {α β : Type} (strategy : Strategy) (f : α → Option β) (items : List α) :
    strategy.arrange (items.filterMap f) = (strategy.arrange items).filterMap f := by
  cases strategy with
  | lastToFirst => exact List.filterMap_reverse.symm
  | sequential | concurrent limit => rfl

theorem mem_arrange {α : Type} {strategy : Strategy} {item : α} {items : List α} :
    item ∈ strategy.arrange items ↔ item ∈ items := by
  cases strategy with
  | lastToFirst => exact List.mem_reverse
  | sequential | concurrent limit => exact Iff.rfl

-- Where one task comes after another, a failure is that of the last one that was started.
theorem inOrder_error {entries : List (Task ε × Nat)} {e : ε}
    (h : (inOrder entries).result = .error e) :
    ∃ before entry after, entries = before ++ entry :: after ∧
      (∀ other ∈ before, other.1.failure = none) ∧ entry.1.failure = some e ∧
      (inOrder entries).started = (before ++ [entry]).map (·.2) := by
  induction entries with
  | nil => contradiction
  | cons entry rest ih =>
      obtain ⟨task, i⟩ := entry
      cases hf : task.failure with
      | some failure =>
          simp only [inOrder, hf] at h ⊢
          obtain rfl := Except.error.inj h
          exact ⟨[], (task, i), rest, rfl, fun _ ho => absurd ho List.not_mem_nil, hf, rfl⟩
      | none =>
          simp only [inOrder, hf] at h ⊢
          obtain ⟨before, refused, after, rfl, hbefore, he, hs⟩ := ih h
          refine ⟨(task, i) :: before, refused, after, rfl, ?_, he, ?_⟩
          · exact List.forall_mem_cons.mpr ⟨hf, hbefore⟩
          · rw [Run.started_cons, List.cons_append, List.map_cons, ← hs]

section Started

variable {strategy : Strategy} {tasks : List (Task ε)} {e : ε}

theorem started_isPrefix (strategy : Strategy) (tasks : List (Task ε)) :
    (strategy.run tasks).started <+: strategy.arrange (List.range tasks.length) := by
  rw [← map_snd_zipIdx, arrange_map]
  cases strategy with
  | sequential => exact inOrder_started _
  | lastToFirst => exact inOrder_started _
  | concurrent limit => exact ⟨_, (limit.sound_run tasks).dispatches⟩

theorem OneByOne.started_of_error (hs : strategy.OneByOne)
    (h : (strategy.run tasks).result = .error e) :
    ∃ before i, (strategy.run tasks).started = before ++ [i] ∧
      (∀ k ∈ before, failureOf tasks k = none) ∧ failureOf tasks i = some e := by
  rw [hs.run_eq tasks] at h ⊢
  obtain ⟨before, entry, after, hentries, hbefore, he, hstarted⟩ := inOrder_error h
  have hmem : ∀ other, other ∈ before ++ entry :: after → other ∈ tasks.zipIdx := by
    intro other ho
    rw [← hentries] at ho
    exact mem_arrange.mp ho
  refine ⟨before.map (·.2), entry.2, by rw [hstarted, List.map_append]; rfl, fun k hk => ?_, ?_⟩
  · obtain ⟨other, ho, rfl⟩ := List.mem_map.mp hk
    rw [failureOf_of_mem (hmem other (List.mem_append_left _ ho))]
    exact hbefore other ho
  · rw [failureOf_of_mem (hmem entry (by simp))]
    exact he

-- The failure of a run is that of a task that was started.
theorem exists_started_of_error (h : (strategy.run tasks).result = .error e) :
    ∃ i ∈ (strategy.run tasks).started, failureOf tasks i = some e := by
  by_cases hs : strategy.OneByOne
  · obtain ⟨before, i, hstarted, -, he⟩ := hs.started_of_error h
    exact ⟨i, by simp [hstarted], he⟩
  · simp only [OneByOne, not_forall, not_not] at hs
    obtain ⟨limit, rfl⟩ := hs
    obtain ⟨i, hi, he⟩ := (limit.result_eq_error_iff tasks e).mp h
    have hfailed := mem_failed_of_mem_takenOrder (List.mem_of_mem_head? hi)
    have hended := Log.failed_subset_ended _ hfailed
    exact ⟨i, (limit.started_perm_ended tasks).mem_iff.mpr hended, he⟩

end Started

end Strategy

end Sections.Schedule
