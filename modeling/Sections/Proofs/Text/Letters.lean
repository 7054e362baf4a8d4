import Mathlib.Data.List.Basic
import Sections.Text.Letters

namespace Sections.Text

variable {c : Char} {u v : CodeUnit} {text : Text}

-- No half of a pair stands alone.
def WellFormed (text : Text) : Prop := ∃ cs, text = ofChars cs

theorem ofChars_append (first second : List Char) :
    ofChars (first ++ second) = ofChars first ++ ofChars second :=
  List.flatMap_append

theorem ofChars_cons (c : Char) (cs : List Char) : ofChars (c :: cs) = c.units ++ ofChars cs := rfl

theorem toNat_char (c : Char) : c.toNat < 0xD800 ∨ 0xE000 ≤ c.toNat ∧ c.toNat < 0x110000 := by
  have hvalid : c.toNat.isValidChar := c.valid
  unfold Nat.isValidChar at hvalid
  omega

theorem toNat_ofNat {n : Nat} (h : n < 0xD800 ∨ 0xE000 ≤ n ∧ n < 0x110000) :
    (Char.ofNat n).toNat = n := by
  have hvalid : n.isValidChar := by
    unfold Nat.isValidChar
    omega
  exact congrArg Char.toNat (dif_pos hvalid : Char.ofNat n = Char.ofNatAux n hvalid)

theorem toNat_unit (h : c.toNat < 0x10000) : c.unit.toNat = c.toNat := by
  rw [Char.toNat_unit, Nat.mod_eq_of_lt h]

theorem units_small (h : c.toNat < 0x10000) : c.units = [c.unit] := if_pos h

theorem units_large (h : ¬c.toNat < 0x10000) :
    c.units = [UInt16.ofNat (0xD800 + (c.toNat - 0x10000) / 0x400),
      UInt16.ofNat (0xDC00 + (c.toNat - 0x10000) % 0x400)] := if_neg h

theorem units_ne_nil (c : Char) : c.units ≠ [] := by
  unfold Char.units
  split <;> exact List.cons_ne_nil _ _

-- A unit of a character is the character itself, or a half.
theorem toNat_of_mem_units (h : u ∈ c.units) :
    u.toNat = c.toNat ∨ 0xD800 ≤ u.toNat := by
  have hc := toNat_char c
  by_cases hsmall : c.toNat < 0x10000
  · rw [units_small hsmall, List.mem_singleton] at h
    exact .inl (h ▸ toNat_unit hsmall)
  · rw [units_large hsmall] at h
    simp only [List.mem_cons, List.not_mem_nil, or_false] at h
    rcases h with rfl | rfl <;>
      exact .inr (by rw [UInt16.toNat_ofNat_of_lt' (show _ < 0x10000 by omega)]; omega)

theorem isHigh_iff : isHigh u = true ↔ 0xD800 ≤ u.toNat ∧ u.toNat < 0xDC00 := by
  simp [isHigh]

theorem isLow_iff : isLow u = true ↔ 0xDC00 ≤ u.toNat ∧ u.toNat < 0xE000 := by
  simp [isLow]

-- A unit that is no half is a character of its own.
theorem single_unit (h : c.toNat < 0x10000) : Letter.single c.unit = .char c := by
  have hc := toNat_char c
  have hhigh : isHigh c.unit = false := by
    rw [Bool.eq_false_iff, ne_eq, isHigh_iff, toNat_unit h]
    omega
  have hlow : isLow c.unit = false := by
    rw [Bool.eq_false_iff, ne_eq, isLow_iff, toNat_unit h]
    omega
  simp only [Letter.single, hhigh, hlow, Bool.or_self, Bool.false_eq_true, if_false, toNat_unit h,
    Char.ofNat_toNat]

theorem letters_cons (h : isHigh u = false) (rest : Text) :
    letters (u :: rest) = .single u :: letters rest := by
  cases rest with
  | nil => rfl
  | cons v rest => simp [letters, h]

theorem letters_pair (hu : isHigh u = true) (hv : isLow v = true) (rest : Text) :
    letters (u :: v :: rest) = .pair u v :: letters rest := by
  simp [letters, hu, hv]

-- A character is read back from its units, whatever follows.
theorem letters_units (c : Char) (rest : Text) :
    letters (c.units ++ rest) = .char c :: letters rest := by
  have hc := toNat_char c
  by_cases h : c.toNat < 0x10000
  · rw [units_small h, List.singleton_append, letters_cons, single_unit h]
    rw [Bool.eq_false_iff, ne_eq, isHigh_iff, toNat_unit h]
    omega
  · rw [units_large h, List.cons_append, List.singleton_append]
    have hhigh : (UInt16.ofNat (0xD800 + (c.toNat - 0x10000) / 0x400)).toNat =
        0xD800 + (c.toNat - 0x10000) / 0x400 :=
      UInt16.toNat_ofNat_of_lt' (show _ < 0x10000 by omega)
    have hlow : (UInt16.ofNat (0xDC00 + (c.toNat - 0x10000) % 0x400)).toNat =
        0xDC00 + (c.toNat - 0x10000) % 0x400 :=
      UInt16.toNat_ofNat_of_lt' (show _ < 0x10000 by omega)
    rw [letters_pair (isHigh_iff.mpr (by rw [hhigh]; omega)) (isLow_iff.mpr (by rw [hlow]; omega)),
      Letter.pair, hhigh, hlow]
    have hsum : 0x10000 + (0xD800 + (c.toNat - 0x10000) / 0x400 - 0xD800) * 0x400 +
        (0xDC00 + (c.toNat - 0x10000) % 0x400 - 0xDC00) = c.toNat := by omega
    rw [hsum, Char.ofNat_toNat]

theorem letters_ofChars_append (cs : List Char) (rest : Text) :
    letters (ofChars cs ++ rest) = cs.map .char ++ letters rest := by
  induction cs with
  | nil => rfl
  | cons c cs ih => rw [ofChars_cons, List.append_assoc, letters_units, ih, List.map_cons,
      List.cons_append]

theorem chars_ofChars_append (cs : List Char) (rest : Text) :
    chars (ofChars cs ++ rest) = cs ++ chars rest := by
  rw [chars, letters_ofChars_append, List.map_append, List.map_map, chars]
  congr 1
  exact List.map_id' cs

theorem chars_ofChars (cs : List Char) : chars (ofChars cs) = cs := by
  simpa [chars, letters] using chars_ofChars_append cs []

theorem letters_eq_nil : letters text = [] ↔ text = [] := by
  fun_cases letters text <;> simp

theorem units_single (u : CodeUnit) : (Letter.single u).units = [u] := by
  unfold Letter.single
  split
  · rfl
  · rename_i h
    rw [Bool.or_eq_true, isHigh_iff, isLow_iff] at h
    have hu := UInt16.toNat_lt u
    have hback : (Char.ofNat u.toNat).toNat = u.toNat := toNat_ofNat (by omega)
    rw [Letter.units, units_small (by omega), Char.unit, hback, UInt16.ofNat_toNat]

theorem units_pair (hu : isHigh u = true) (hv : isLow v = true) :
    (Letter.pair u v).units = [u, v] := by
  rw [isHigh_iff] at hu
  rw [isLow_iff] at hv
  have hback : (Char.ofNat (0x10000 + (u.toNat - 0xD800) * 0x400 + (v.toNat - 0xDC00))).toNat =
      0x10000 + (u.toNat - 0xD800) * 0x400 + (v.toNat - 0xDC00) := toNat_ofNat (by omega)
  have hhigh : 0xD800 + (0x10000 + (u.toNat - 0xD800) * 0x400 + (v.toNat - 0xDC00) - 0x10000) /
      0x400 = u.toNat := by omega
  have hlow : 0xDC00 + (0x10000 + (u.toNat - 0xD800) * 0x400 + (v.toNat - 0xDC00) - 0x10000) %
      0x400 = v.toNat := by omega
  rw [Letter.pair, Letter.units, units_large (by omega), hback, hhigh, hlow, UInt16.ofNat_toNat,
    UInt16.ofNat_toNat]

-- Nothing of a text is lost in its letters.
theorem flatMap_units_letters (text : Text) : (letters text).flatMap Letter.units = text := by
  fun_induction letters text with
  | case1 => rfl
  | case2 u => simp [units_single]
  | case3 u v rest h ih =>
      rw [Bool.and_eq_true] at h
      rw [List.flatMap_cons, units_pair h.1 h.2, ih]
      rfl
  | case4 u v rest h ih => rw [List.flatMap_cons, units_single, ih]; rfl

theorem WellFormed.append {first second : Text} (hf : WellFormed first) (hs : WellFormed second) :
    WellFormed (first ++ second) := by
  obtain ⟨cs, rfl⟩ := hf
  obtain ⟨ds, rfl⟩ := hs
  exact ⟨cs ++ ds, (ofChars_append cs ds).symm⟩

theorem toWellFormed_eq_iff : toWellFormed text = text ↔ WellFormed text := by
  constructor
  · intro h
    exact ⟨chars text, h.symm⟩
  · rintro ⟨cs, rfl⟩
    rw [toWellFormed, chars_ofChars]

theorem chars_toWellFormed (text : Text) : chars (toWellFormed text) = chars text :=
  chars_ofChars _

end Sections.Text
