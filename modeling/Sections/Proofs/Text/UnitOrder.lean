import Mathlib.Data.List.Basic
import Sections.Text.UnitOrder

namespace Sections.Text

section Sorting

variable {α : Type} {le : α → α → Bool}

theorem insertBy_perm (x : α) (xs : List α) : (insertBy le x xs).Perm (x :: xs) := by
  induction xs with
  | nil => exact List.Perm.refl [x]
  | cons y ys ih =>
      rw [insertBy]
      split
      · exact List.Perm.refl _
      · exact (ih.cons y).trans (List.Perm.swap x y ys)

theorem sortBy_perm (xs : List α) : (sortBy le xs).Perm xs := by
  induction xs with
  | nil => exact List.Perm.nil
  | cons x xs ih => exact (insertBy_perm x _).trans (ih.cons x)

@[simp] theorem mem_sortBy {x : α} {xs : List α} : x ∈ sortBy le xs ↔ x ∈ xs :=
  (sortBy_perm xs).mem_iff

theorem insertBy_pairwise (htotal : ∀ a b, le a b = true ∨ le b a = true)
    (htrans : ∀ a b c, le a b = true → le b c = true → le a c = true) (x : α) (xs : List α)
    (h : xs.Pairwise (le · ·)) : (insertBy le x xs).Pairwise (le · ·) := by
  induction xs with
  | nil => exact List.pairwise_singleton _ x
  | cons y ys ih =>
      obtain ⟨hy, hys⟩ := List.pairwise_cons.mp h
      rw [insertBy]
      split
      · rename_i hxy
        refine List.pairwise_cons.mpr ⟨fun z hz => ?_, h⟩
        rcases List.mem_cons.mp hz with rfl | hz
        · exact hxy
        · exact htrans x y z hxy (hy z hz)
      · rename_i hxy
        refine List.pairwise_cons.mpr ⟨fun z hz => ?_, ih hys⟩
        rcases List.mem_cons.mp ((insertBy_perm x ys).mem_iff.mp hz) with rfl | hz
        · exact (htotal z y).resolve_left hxy
        · exact hy z hz

theorem sortBy_pairwise (htotal : ∀ a b, le a b = true ∨ le b a = true)
    (htrans : ∀ a b c, le a b = true → le b c = true → le a c = true) (xs : List α) :
    (sortBy le xs).Pairwise (le · ·) := by
  induction xs with
  | nil => exact List.Pairwise.nil
  | cons x xs ih => exact insertBy_pairwise htotal htrans x _ ih

end Sorting

section Distinct

variable {α : Type} [DecidableEq α]

@[simp] theorem mem_distinct {x : α} {xs : List α} : x ∈ distinct xs ↔ x ∈ xs := by
  induction xs with
  | nil => rfl
  | cons y ys ih =>
      by_cases hx : x = y
      · simp [distinct, hx]
      · simp [distinct, hx, ih]

theorem nodup_distinct (xs : List α) : (distinct xs).Nodup := by
  induction xs with
  | nil => exact List.nodup_nil
  | cons x xs ih =>
      rw [distinct, List.nodup_cons]
      exact ⟨by simp, ih.filter _⟩

end Distinct

theorem unitLe_total (a b : Text) : unitLe a b = true ∨ unitLe b a = true := by
  induction a generalizing b with
  | nil => exact Or.inl rfl
  | cons x xs ih =>
      cases b with
      | nil => exact Or.inr rfl
      | cons y ys =>
          have hs := ih ys
          rcases Std.lt_trichotomy x y with hxy | rfl | hxy
          · simp [unitLe, hxy]
          · simpa [unitLe] using hs
          · simp [unitLe, hxy]

theorem unitLe_trans (a b c : Text) (hab : unitLe a b = true)
    (hbc : unitLe b c = true) : unitLe a c = true := by
  induction a generalizing b c with
  | nil => rfl
  | cons x xs ih =>
      cases b with
      | nil => exact absurd hab Bool.false_ne_true
      | cons y ys =>
          cases c with
          | nil => exact absurd hbc Bool.false_ne_true
          | cons z zs =>
              simp only [unitLe, Bool.or_eq_true, Bool.and_eq_true, decide_eq_true_eq]
                at hab hbc ⊢
              rcases hab with hab | ⟨rfl, hab⟩
              · rcases hbc with hbc | ⟨rfl, -⟩
                · exact Or.inl (UInt16.lt_trans hab hbc)
                · exact Or.inl hab
              · rcases hbc with hbc | ⟨rfl, hbc⟩
                · exact Or.inl hbc
                · exact Or.inr ⟨rfl, ih ys zs hab hbc⟩

theorem unitLe_antisymm (a b : Text) (hab : unitLe a b = true)
    (hba : unitLe b a = true) : a = b := by
  induction a generalizing b with
  | nil =>
      cases b with
      | nil => rfl
      | cons y ys => contradiction
  | cons x xs ih =>
      cases b with
      | nil => contradiction
      | cons y ys =>
          simp only [unitLe, Bool.or_eq_true, Bool.and_eq_true, decide_eq_true_eq] at hab hba
          rcases hab with hab | ⟨rfl, hab⟩
          · rcases hba with hba | ⟨rfl, -⟩
            · exact absurd hba (UInt16.lt_asymm hab)
            · exact absurd hab (UInt16.lt_irrefl y)
          · have hys : unitLe ys xs = true := (hba.resolve_left (UInt16.lt_irrefl _)).2
            rw [ih ys hab hys]

-- The names with a property, each once, in the order of their units.
structure Listing (names : List Text) (property : Text → Prop) : Prop where
  sorted : names.Pairwise (unitLe · ·)
  nodup : names.Nodup
  mem_iff : ∀ name, name ∈ names ↔ property name

theorem sorted_pairwise (names : List Text) : (sorted names).Pairwise (unitLe · ·) :=
  sortBy_pairwise unitLe_total unitLe_trans names

theorem Listing.sorted_of_nodup {names : List Text} (h : names.Nodup) :
    Listing (Text.sorted names) (· ∈ names) :=
  ⟨sorted_pairwise names, (sortBy_perm names).nodup_iff.mpr h, fun _ => mem_sortBy⟩

theorem Listing.filter {names : List Text} {property : Text → Prop} (h : Listing names property)
    (keep : Text → Bool) : Listing (names.filter keep) fun name => property name ∧ keep name = true :=
  ⟨h.sorted.filter keep, h.nodup.filter keep, fun name => by simp [h.mem_iff name]⟩

theorem Listing.congr {names : List Text} {property other : Text → Prop} (h : Listing names property)
    (ho : ∀ name, property name ↔ other name) : Listing names other :=
  ⟨h.sorted, h.nodup, fun name => (h.mem_iff name).trans (ho name)⟩

-- The order and the property leave one list.
theorem Listing.unique {names others : List Text} {property : Text → Prop}
    (h : Listing names property) (ho : Listing others property) : names = others := by
  have hperm : names.Perm others := (List.perm_ext_iff_of_nodup h.nodup ho.nodup).mpr fun name =>
    (h.mem_iff name).trans (ho.mem_iff name).symm
  exact hperm.eq_of_pairwise (fun a b _ _ => unitLe_antisymm a b) h.sorted ho.sorted

theorem Listing.eq_nil {names : List Text} {property : Text → Prop} (h : Listing names property)
    (hnone : ∀ name, ¬property name) : names = [] :=
  List.eq_nil_iff_forall_not_mem.mpr fun name hm => hnone name ((h.mem_iff name).mp hm)

end Sections.Text
