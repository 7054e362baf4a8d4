import Sections.Json

namespace Sections.Json

-- The values that have no plain text: objects with a field that hides the text of objects, and
-- arrays that hold such a value at any depth.
inductive Unprintable : Json → Prop where
  | object {fields : List (Text × Json)} (h : (lookup "toString".units fields).isSome) :
      Unprintable (.object fields)
  | array {items : List Json} {item : Json} (hm : item ∈ items) (h : Unprintable item) :
      Unprintable (.array items)

theorem unprintable_array_iff {items : List Json} :
    Unprintable (.array items) ↔ ∃ item ∈ items, item.Unprintable := by
  constructor
  · rintro (_ | ⟨hm, h⟩)
    exact ⟨_, hm, h⟩
  · rintro ⟨item, hm, h⟩
    exact .array hm h

theorem unprintable_object_iff {fields : List (Text × Json)} :
    Unprintable (.object fields) ↔ (lookup "toString".units fields).isSome := by
  constructor
  · rintro ⟨h⟩
    exact h
  · exact .object

theorem not_unprintable_null : ¬Unprintable .null := by
  intro h
  cases h

theorem displayItems?_null (rest : List Json) :
    displayItems? (.null :: rest) = (displayItems? rest).map ([] :: ·) := rfl

theorem displayItems?_cons {item : Json} (h : item ≠ .null) (rest : List Json) :
    displayItems? (item :: rest) =
      item.display?.bind fun first => (displayItems? rest).map (first :: ·) := by
  cases item with
  | null => contradiction
  | bool | number | string | array | object => rfl

mutual

theorem display?_eq_none_iff (value : Json) : value.display? = none ↔ value.Unprintable := by
  cases value with
  | null | bool value | number value | string value =>
      constructor
      · intro h
        contradiction
      · intro h
        cases h
  | array items =>
      rw [display?, Option.map_eq_none_iff, unprintable_array_iff]
      exact displayItems?_eq_none_iff items
  | object fields =>
      rw [display?, unprintable_object_iff]
      split <;> simp_all

theorem displayItems?_eq_none_iff (items : List Json) :
    displayItems? items = none ↔ ∃ item ∈ items, item.Unprintable := by
  cases items with
  | nil =>
      constructor
      · intro h
        contradiction
      · rintro ⟨item, hm, -⟩
        contradiction
  | cons item rest =>
      have hrest := displayItems?_eq_none_iff rest
      simp only [List.mem_cons, exists_eq_or_imp, ← hrest]
      by_cases hnull : item = .null
      · subst hnull
        simp only [displayItems?_null, Option.map_eq_none_iff, not_unprintable_null, false_or]
      · rw [displayItems?_cons hnull, ← display?_eq_none_iff item]
        cases item.display? <;> simp

end

end Sections.Json
