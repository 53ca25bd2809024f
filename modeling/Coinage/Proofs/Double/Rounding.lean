import Mathlib

namespace Coinage.Double

open Float.Model Float.Model.UnpackedFloat

theorem log2_mul_two_pow {n : Nat} (hn : n ≠ 0) (k : Nat) : (n * 2 ^ k).log2 = n.log2 + k := by
  induction k with
  | zero => simp
  | succ k ih =>
    have hpos : n * 2 ^ k ≠ 0 := Nat.mul_ne_zero hn (Nat.two_pow_pos k).ne'
    rw [show n * 2 ^ (k + 1) = 2 * (n * 2 ^ k) by ring, Nat.log2_two_mul hpos, ih, Nat.add_assoc]

-- A significand is normal if it fills its 53 bits.
def Normal (m : Nat) : Prop :=
  2 ^ 52 ≤ m ∧ m < 2 ^ 53

theorem Normal.ne_zero {m : Nat} (h : Normal m) : m ≠ 0 := by
  have := h.1
  omega

theorem Normal.pos {m : Nat} (h : Normal m) : 0 < m :=
  Nat.pos_of_ne_zero h.ne_zero

theorem Normal.log2_eq {m : Nat} (h : Normal m) : m.log2 = 52 :=
  (Nat.log2_eq_iff h.ne_zero).mpr h

-- Away from the smallest exponents the target leaves 53 bits.
theorem targetExponent_eq (m : Nat) (e : Int) (h : -1074 ≤ m.log2 + e - 52) :
    Format.binary64.targetExponent (totalExponent m e) = m.log2 + e - 52 := by
  simp only [Format.targetExponent, totalExponent, Format.mantissaBits, Format.minExponent]
  norm_num
  omega

theorem shiftRight_exact (q k : Nat) :
    (⟨q * 2 ^ k, false, false⟩ : ExtendedMantissa) >>> k = ⟨q, false, false⟩ := by
  induction k generalizing q with
  | zero => simp [HShiftRight.hShiftRight, Nat.repeat]
  | succ k ih =>
    have hshift : (⟨q * 2 ^ (k + 1), false, false⟩ : ExtendedMantissa) >>> (k + 1) =
        ((⟨(q * 2) * 2 ^ k, false, false⟩ : ExtendedMantissa) >>> k).shiftRightOne := by
      rw [show q * 2 ^ (k + 1) = (q * 2) * 2 ^ k by ring]
      rfl
    rw [hshift, ih]
    simp [ExtendedMantissa.shiftRightOne]

-- Bits that are all zero can be dropped.
theorem shiftToTargetExponent_exact {q : Nat} (hq : Normal q) (k : Nat) (e : Int)
    (he : -1074 ≤ e + k) :
    shiftToTargetExponent Format.binary64 (q * 2 ^ k) e .exact = (⟨q, false, false⟩, e + k) := by
  have hlog : (q * 2 ^ k).log2 = 52 + k := by rw [log2_mul_two_pow hq.ne_zero, hq.log2_eq]
  have htarget : Format.binary64.targetExponent (totalExponent (q * 2 ^ k) e) = e + k := by
    rw [targetExponent_eq _ _ (by rw [hlog]; omega), hlog]
    omega
  have hshift : (e + k - e).toNat = k := by omega
  simp only [shiftToTargetExponent, htarget, shiftToExponent, hshift,
    ExtendedMantissa.ofMantissaAndAccuracy, shiftRight_exact]

theorem roundWithAccuracy_exact {q : Nat} (hq : Normal q) (k : Nat) (e : Int) (s : Sign)
    (he : -1074 ≤ e + k) :
    roundWithAccuracy Format.binary64 s (q * 2 ^ k) e .exact = .finite s q (e + k) hq.pos := by
  have hsecond := shiftToTargetExponent_exact hq 0 (e + k) (by omega)
  simp only [Nat.pow_zero, Nat.mul_one, Int.natCast_zero, Int.add_zero] at hsecond
  simp [roundWithAccuracy, shiftToTargetExponent_exact hq k e he,
    ExtendedMantissa.roundedMantissa, ExtendedMantissa.accuracy, Accuracy.roundToNearestEven,
    hsecond, hq.ne_zero]

-- The 53-bit significand of a whole number.
def significand (n : Nat) : Nat :=
  n * 2 ^ (52 - n.log2)

theorem normal_significand {n : Nat} (hn : n ≠ 0) (hlt : n < 2 ^ 53) : Normal (significand n) := by
  have hlog : n.log2 ≤ 52 := Nat.lt_succ_iff.mp ((Nat.log2_lt hn).mpr hlt)
  have hlow := Nat.log2_self_le hn
  have hhigh := Nat.lt_log2_self (n := n)
  constructor
  · calc
      2 ^ 52 = 2 ^ n.log2 * 2 ^ (52 - n.log2) := by rw [← Nat.pow_add]; congr 1; omega
      _ ≤ significand n := Nat.mul_le_mul_right _ hlow
  · calc
      significand n < 2 ^ (n.log2 + 1) * 2 ^ (52 - n.log2) :=
        Nat.mul_lt_mul_of_pos_right hhigh (Nat.two_pow_pos _)
      _ = 2 ^ 53 := by rw [← Nat.pow_add]; congr 1; omega

-- A whole number of 53 bits, scaled by any power of two that the exponents
-- reach, is not changed by rounding.
theorem round_exact {n : Nat} (hn : n ≠ 0) (hlt : n < 2 ^ 53) (k : Nat) (e : Int) (s : Sign)
    (he : -1074 ≤ n.log2 + k + e - 52) :
    UnpackedFloat.round Format.binary64 s (n * 2 ^ k) e =
      .finite s (significand n) (n.log2 + k + e - 52) (normal_significand hn hlt).pos := by
  have hq := normal_significand hn hlt
  have hlog := log2_mul_two_pow hn k
  have htarget : Format.binary64.targetExponent (totalExponent (n * 2 ^ k) e) =
      n.log2 + k + e - 52 := by
    rw [targetExponent_eq _ _ (by rw [hlog]; omega), hlog]
    omega
  simp only [UnpackedFloat.round, htarget, decreaseExponent, Nat.shiftLeft_eq]
  by_cases hk : n.log2 + k ≤ 52
  · have hshift : (e - (n.log2 + k + e - 52)).toNat = 52 - (n.log2 + k) := by omega
    have hm : n * 2 ^ k * 2 ^ (52 - (n.log2 + k)) = significand n * 2 ^ 0 := by
      rw [Nat.mul_assoc, ← Nat.pow_add, significand, Nat.pow_zero, Nat.mul_one]
      congr 2
      omega
    rw [hshift, hm, roundWithAccuracy_exact hq 0 _ s (by omega)]
    congr 1
    omega
  · have hshift : (e - (n.log2 + k + e - 52)).toNat = 0 := by omega
    have hm : n * 2 ^ k * 2 ^ 0 = significand n * 2 ^ (n.log2 + k - 52) := by
      have hlow : n.log2 ≤ 52 := Nat.lt_succ_iff.mp ((Nat.log2_lt hn).mpr hlt)
      rw [Nat.pow_zero, Nat.mul_one, significand, Nat.mul_assoc, ← Nat.pow_add]
      congr 2
      omega
    rw [hshift, hm, roundWithAccuracy_exact hq _ _ s (by omega)]
    congr 1
    omega

end Coinage.Double
