import Mathlib.Algebra.Order.Ring.Nat
import Sections.Number

namespace Sections.Number

-- A natural number, with binary places behind the point that are all zero.
def IsWhole (x : Number) (n : Nat) : Prop :=
  ∃ places : Nat, x = .finite false (n * 2 ^ places) (-places)

theorem isWhole_zero : (zero false).IsWhole 0 := by
  have hzero : ∀ places : Nat, IsWhole (.finite false 0 (-places)) 0 := by
    intro places
    exact ⟨places, by rw [Nat.zero_mul]⟩
  exact hzero 1074

theorem roundHalfEven_mul (quotient : Nat) {den : Nat} (h : 0 < den) :
    roundHalfEven (quotient * den) den = quotient := by
  simp only [roundHalfEven, Nat.mul_div_cancel quotient h, Nat.mul_mod_left, Nat.mul_zero]
  rw [if_neg (by omega)]

theorem log2_mul_two_pow {n : Nat} (hn : n ≠ 0) (k : Nat) : (n * 2 ^ k).log2 = n.log2 + k := by
  obtain ⟨hle, hlt⟩ := (Nat.log2_eq_iff hn).mp rfl
  refine (Nat.log2_eq_iff (Nat.mul_ne_zero hn (Nat.two_pow_pos k).ne')).mpr ⟨?_, ?_⟩
  · rw [Nat.pow_add]
    exact Nat.mul_le_mul_right _ hle
  · rw [Nat.add_right_comm, Nat.pow_add]
    exact Nat.mul_lt_mul_of_pos_right hlt (Nat.two_pow_pos k)

theorem binaryExponent_whole {n : Nat} (hn : n ≠ 0) (k : Nat) :
    binaryExponent (n * 2 ^ k) (2 ^ k) = n.log2 := by
  have hestimate : ((n * 2 ^ k).log2 : Int) - ((2 ^ k).log2 : Int) = n.log2 := by
    rw [log2_mul_two_pow hn, Nat.log2_two_pow]
    omega
  have hle : 2 ^ k * 2 ^ n.log2 ≤ n * 2 ^ k := by
    rw [Nat.mul_comm]
    exact Nat.mul_le_mul_right _ (Nat.log2_self_le hn)
  simp only [binaryExponent, hestimate, scaled, Nat.pow_eq, Int.toNat_natCast,
    Int.toNat_neg_natCast, Nat.pow_zero, Nat.mul_one, if_pos hle]

-- A natural number that fits in a mantissa is not rounded.
theorem isWhole_ofRatio {n : Nat} (h : n < 2 ^ 53) (k : Nat) :
    (ofRatio false (n * 2 ^ k) (2 ^ k)).IsWhole n := by
  rcases Nat.eq_zero_or_pos n with rfl | hpos
  · rw [Nat.zero_mul, ofRatio, if_pos rfl]
    exact isWhole_zero
  · have hlog : n.log2 ≤ 52 := Nat.lt_succ_iff.mp ((Nat.log2_lt hpos.ne').mpr h)
    have hshift : max ((n.log2 : Int) - 52) (-1074) = -((52 - n.log2 : Nat) : Int) := by omega
    have hround : roundHalfEven (n * 2 ^ k * 2 ^ (52 - n.log2)) (2 ^ k) =
        n * 2 ^ (52 - n.log2) := by
      rw [Nat.mul_right_comm]
      exact roundHalfEven_mul _ (Nat.two_pow_pos k)
    have hne : n * 2 ^ (52 - n.log2) ≠ 2 ^ 53 := by
      have hlt := Nat.mul_lt_mul_of_pos_right (Nat.lt_log2_self (n := n))
        (Nat.two_pow_pos (52 - n.log2))
      rw [← Nat.pow_add] at hlt
      have hexp : n.log2 + 1 + (52 - n.log2) = 53 := by omega
      rw [hexp] at hlt
      exact hlt.ne
    refine ⟨52 - n.log2, ?_⟩
    rw [ofRatio, if_neg (Nat.mul_ne_zero hpos.ne' (Nat.two_pow_pos k).ne')]
    simp only [binaryExponent_whole hpos.ne', hshift, scaled, Nat.pow_eq, Int.neg_neg,
      Int.toNat_natCast, Int.toNat_neg_natCast, Nat.pow_zero, Nat.mul_one, hround, if_neg hne]
    rw [if_neg (by omega)]

theorem widen_places (n : Nat) {s t : Nat} (h : s ≤ t) :
    n * 2 ^ s * 2 ^ (-(s : Int) - -(t : Int)).toNat = n * 2 ^ t := by
  have hexp : s + (-(s : Int) - -(t : Int)).toNat = t := by omega
  rw [Nat.mul_assoc, ← Nat.pow_add, hexp]

theorem IsWhole.add {x y : Number} {m n : Nat} (hx : x.IsWhole m) (hy : y.IsWhole n)
    (h : m + n < 2 ^ 53) : (x.add y).IsWhole (m + n) := by
  obtain ⟨s, rfl⟩ := hx
  obtain ⟨t, rfl⟩ := hy
  have hleast : min (-(s : Int)) (-(t : Int)) = -((max s t : Nat) : Int) := by omega
  have hfirst := widen_places m (Nat.le_max_left s t)
  have hsecond := widen_places n (Nat.le_max_right s t)
  have hsum : ((m * 2 ^ max s t : Nat) : Int) + ((n * 2 ^ max s t : Nat) : Int) =
      (((m + n) * 2 ^ max s t : Nat) : Int) := by
    rw [Nat.add_mul]
    rfl
  simp only [Number.add, hleast, Nat.pow_eq, hfirst, hsecond, signed, Bool.false_eq_true, if_false,
    hsum, Int.natAbs_natCast, scaled, Int.neg_neg, Int.toNat_natCast, Int.toNat_neg_natCast,
    Nat.pow_zero, Nat.mul_one, Nat.one_mul]
  split
  · rename_i hzero
    have hmn : m + n = 0 := by
      have hprod : (m + n) * 2 ^ max s t = 0 := by exact_mod_cast hzero
      exact (Nat.mul_eq_zero.mp hprod).resolve_right (Nat.two_pow_pos _).ne'
    rw [hmn]
    exact isWhole_zero
  · rw [decide_eq_false (by omega)]
    exact isWhole_ofRatio h (max s t)

theorem IsWhole.truncate? {x : Number} {n : Nat} (h : x.IsWhole n) :
    x.truncate? = some (n : Int) := by
  obtain ⟨places, rfl⟩ := h
  simp only [Number.truncate?, signed, Bool.false_eq_true, if_false, Nat.pow_eq, Int.neg_neg,
    Int.toNat_natCast, Int.toNat_neg_natCast, Nat.pow_zero, Nat.mul_one,
    Nat.mul_div_cancel n (Nat.two_pow_pos places)]

-- Above zero there are no natural numbers but the positive ones.
theorem toNat?_pos {x : Number} {n : Nat} (hp : x.isPositive) (h : x.toNat? = some n) : 0 < n := by
  unfold toNat? at h
  split at h
  · contradiction
  · cases x with
    | nan | infinite => contradiction
    | finite negative mantissa exponent =>
        have hm : 0 < mantissa := by
          simp only [isPositive, Bool.and_eq_true, decide_eq_true_eq] at hp
          exact Nat.pos_of_ne_zero hp.2
        have hpow : 0 < Nat.pow 2 (-exponent).toNat := Nat.two_pow_pos _
        simp only [wholeMagnitude?] at h
        split at h
        · rename_i hmod
          rw [← Option.some.inj h]
          have hle : Nat.pow 2 (-exponent).toNat ≤ mantissa :=
            Nat.le_of_dvd hm (Nat.dvd_of_mod_eq_zero hmod)
          exact Nat.mul_pos (Nat.div_pos hle hpow) (Nat.two_pow_pos _)
        · contradiction

theorem isWhole_ofNat_zero : (ofNat 0).IsWhole 0 := isWhole_zero

theorem isWhole_ofNat_one : (ofNat 1).IsWhole 1 := ⟨52, by decide⟩

end Sections.Number
