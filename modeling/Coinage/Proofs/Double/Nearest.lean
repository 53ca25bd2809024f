import Coinage.Proofs.Double.Whole

namespace Coinage.Double

open Float.Model Float.Model.UnpackedFloat

-- A mantissa and the two bits below it describe the numbers whose binary digits
-- begin with them. The second bit tells whether any digit that follows is set.
def Describes (em : ExtendedMantissa) (x : ℚ) : Prop :=
  ∃ rest : ℚ, x = em.mantissa + em.roundBit.toNat / 2 + rest ∧ 0 ≤ rest ∧ rest < 1 / 2 ∧
    (em.stickyBit = true ↔ 0 < rest)

theorem describes_exact (m : ℕ) :
    Describes (ExtendedMantissa.ofMantissaAndAccuracy m .exact) m :=
  ⟨0, by simp [ExtendedMantissa.ofMantissaAndAccuracy],
    le_refl 0, by norm_num, by simp [ExtendedMantissa.ofMantissaAndAccuracy]⟩

theorem toNat_mod_two_ne_zero (m : ℕ) : (m % 2 != 0).toNat = m % 2 := by
  rcases Nat.mod_two_eq_zero_or_one m with h | h <;> rw [h] <;> rfl

theorem Describes.shiftRightOne {em : ExtendedMantissa} {x : ℚ} (h : Describes em x) :
    Describes em.shiftRightOne (x / 2) := by
  obtain ⟨rest, hx, hlow, hhigh, hsticky⟩ := h
  have hm : (2 * (em.mantissa / 2 : ℕ) + (em.mantissa % 2 : ℕ) : ℚ) = em.mantissa := by
    exact_mod_cast Nat.div_add_mod em.mantissa 2
  have hround : (em.roundBit.toNat : ℚ) = 0 ∨ (em.roundBit.toNat : ℚ) = 1 := by
    cases em.roundBit <;> simp
  refine ⟨em.roundBit.toNat / 4 + rest / 2, ?_, ?_, ?_, ?_⟩
  · simp only [ExtendedMantissa.shiftRightOne, toNat_mod_two_ne_zero]
    linarith
  · rcases hround with hr | hr <;> linarith
  · rcases hround with hr | hr <;> linarith
  · simp only [ExtendedMantissa.shiftRightOne, Bool.or_eq_true, hsticky]
    cases em.roundBit with
    | false => simp
    | true =>
      refine iff_of_true (Or.inl rfl) ?_
      simp only [Bool.toNat_true, Nat.cast_one]
      linarith

theorem Describes.shiftRight {em : ExtendedMantissa} {x : ℚ} (h : Describes em x) (k : ℕ) :
    Describes (em >>> k) (x / 2 ^ k) := by
  induction k with
  | zero => simpa [HShiftRight.hShiftRight, Nat.repeat] using h
  | succ k ih =>
    have hstep := ih.shiftRightOne
    rw [div_div, ← pow_succ] at hstep
    exact hstep

-- Rounding goes to a nearest whole number.
theorem Describes.abs_roundedMantissa_sub_le {em : ExtendedMantissa} {x : ℚ}
    (h : Describes em x) : |(em.roundedMantissa : ℚ) - x| ≤ 1 / 2 := by
  obtain ⟨m, round, sticky⟩ := em
  obtain ⟨rest, hx, hlow, hhigh, hsticky⟩ := h
  rw [abs_le, hx]
  cases round with
  | false =>
    have hdown : ExtendedMantissa.roundedMantissa ⟨m, false, sticky⟩ = m := by
      cases sticky <;> rfl
    simp only [hdown, Bool.toNat_false, Nat.cast_zero]
    constructor <;> linarith
  | true =>
    cases sticky with
    | false =>
      -- the middle: either neighbour is as near
      have htie : ExtendedMantissa.roundedMantissa ⟨m, true, false⟩ = m + m % 2 := rfl
      have hrest : rest = 0 := by
        refine le_antisymm (not_lt.mp fun hpos => ?_) hlow
        simpa using hsticky.mpr hpos
      rcases Nat.mod_two_eq_zero_or_one m with hparity | hparity <;>
        simp only [htie, hparity, hrest, Bool.toNat_true] <;> norm_num
    | true =>
      have hup : ExtendedMantissa.roundedMantissa ⟨m, true, true⟩ = m + 1 := rfl
      have hpos := hsticky.mp rfl
      simp only [hup, Bool.toNat_true]
      push_cast
      constructor <;> linarith

theorem abs_sub_le_abs_sub {q : ℤ} {x : ℚ} (h : |(q : ℚ) - x| ≤ 1 / 2) (n : ℤ) :
    |(q : ℚ) - x| ≤ |(n : ℚ) - x| := by
  by_cases hn : n = q
  · rw [hn]
  · have hone : (1 : ℚ) ≤ |(n : ℚ) - q| := by
      exact_mod_cast Int.one_le_abs (sub_ne_zero.mpr hn)
    have htri : |(n : ℚ) - q| ≤ |(n : ℚ) - x| + |(q : ℚ) - x| := by
      rw [abs_sub_comm (q : ℚ) x]
      exact abs_sub_le _ _ _
    linarith

-- The number that a double stands for, as it is unpacked. Only zero and positive
-- finite doubles matter here.
def value : UnpackedFloat → ℚ
  | .finite _ m e _ => m * 2 ^ e
  | _ => 0

-- The mantissas and exponents of zero and of the positive doubles, apart from the
-- upper end of the exponents.
def Shaped : UnpackedFloat → Prop
  | .zero .positive => True
  | .finite .positive m e _ => m < 2 ^ 53 ∧ -1074 ≤ e ∧ (2 ^ 52 ≤ m ∨ e = -1074)
  | _ => False

-- The numbers from zero on that doubles without an upper end could stand for.
def Representable (a : ℚ) : Prop :=
  ∃ (n : ℕ) (j : ℤ), n < 2 ^ 53 ∧ -1074 ≤ j ∧ a = n * 2 ^ j

theorem target_eq (m : ℕ) (e : ℤ) :
    Format.binary64.targetExponent (totalExponent m e) = max ((m.log2 : ℤ) + e - 52) (-1074) := by
  simp only [Format.targetExponent, totalExponent, Format.mantissaBits, Format.minExponent]
  norm_num
  omega

theorem shiftToTargetExponent_of_lt {q : ℕ} (hq : q < 2 ^ 53) {e : ℤ} (he : -1074 ≤ e) :
    shiftToTargetExponent Format.binary64 q e .exact = (⟨q, false, false⟩, e) := by
  have hlog : q.log2 ≤ 52 := by
    by_cases hz : q = 0
    · simp [hz]
    · exact Nat.lt_succ_iff.mp ((Nat.log2_lt hz).mpr hq)
  have hshift : (max ((q.log2 : ℤ) + e - 52) (-1074) - e).toNat = 0 := by omega
  simp only [shiftToTargetExponent, target_eq, shiftToExponent, hshift]
  simp [HShiftRight.hShiftRight, Nat.repeat, ExtendedMantissa.ofMantissaAndAccuracy]

theorem shiftToTargetExponent_two_pow {e : ℤ} (he : -1074 ≤ e) :
    shiftToTargetExponent Format.binary64 (2 ^ 53) e .exact = (⟨2 ^ 52, false, false⟩, e + 1) := by
  have hshift : (max (((2 ^ 53 : ℕ).log2 : ℤ) + e - 52) (-1074) - e).toNat = 1 := by
    rw [Nat.log2_two_pow]
    omega
  simp only [shiftToTargetExponent, target_eq, shiftToExponent, hshift]
  simp [HShiftRight.hShiftRight, Nat.repeat, ExtendedMantissa.ofMantissaAndAccuracy,
    ExtendedMantissa.shiftRightOne]

-- A mantissa that is rounded to 53 bits has these bits, or is the first that has
-- more.
theorem rounded_le_two_pow {q m k : ℕ} (hnear : |(q : ℚ) - m / 2 ^ k| ≤ 1 / 2)
    (hlog : m.log2 ≤ k + 52) : q ≤ 2 ^ 53 := by
  have hlt : (m : ℚ) / 2 ^ k < 2 ^ 53 := by
    rw [div_lt_iff₀ (by positivity), ← pow_add]
    exact_mod_cast Nat.lt_of_lt_of_le Nat.lt_log2_self
      (Nat.pow_le_pow_right (by norm_num) (by omega))
  obtain ⟨-, hhigh⟩ := abs_le.mp hnear
  have hq : (q : ℚ) < (2 ^ 53 + 1 : ℕ) := by
    push_cast
    linarith
  exact Nat.lt_succ_iff.mp (by exact_mod_cast hq)

theorem two_pow_le_rounded {q m k : ℕ} (hm : m ≠ 0) (hnear : |(q : ℚ) - m / 2 ^ k| ≤ 1 / 2)
    (hlog : k + 52 ≤ m.log2) : 2 ^ 52 ≤ q := by
  have hge : (2 : ℚ) ^ 52 ≤ m / 2 ^ k := by
    rw [le_div_iff₀ (by positivity), ← pow_add]
    exact_mod_cast (Nat.pow_le_pow_right (by norm_num) (by omega)).trans (Nat.log2_self_le hm)
  obtain ⟨hlow, -⟩ := abs_le.mp hnear
  have hq : ((2 ^ 52 : ℕ) : ℚ) < (q + 1 : ℕ) := by
    push_cast
    linarith
  exact Nat.lt_succ_iff.mp (by exact_mod_cast hq)

-- What rounding gives if no bits have to be added first: a nearest multiple of
-- the last place that is kept.
theorem exists_rounded {m : ℕ} (hm : m ≠ 0) {e t : ℤ}
    (ht : t = max ((m.log2 : ℤ) + e - 52) (-1074)) (he : e ≤ t) :
    ∃ q : ℕ, |(q : ℚ) - m * 2 ^ (e - t)| ≤ 1 / 2 ∧
      Shaped (roundWithAccuracy Format.binary64 .positive m e .exact) ∧
      value (roundWithAccuracy Format.binary64 .positive m e .exact) = q * 2 ^ t := by
  obtain ⟨k, rfl⟩ : ∃ k : ℕ, t = e + k := ⟨(t - e).toNat, by omega⟩
  have hfirst : shiftToTargetExponent Format.binary64 m e .exact =
      (ExtendedMantissa.ofMantissaAndAccuracy m .exact >>> k, e + k) := by
    have hshift : (max ((m.log2 : ℤ) + e - 52) (-1074) - e).toNat = k := by omega
    simp only [shiftToTargetExponent, target_eq, shiftToExponent, hshift]
  have hscale : (m : ℚ) * 2 ^ (e - (e + k)) = m / 2 ^ k := by
    rw [show e - (e + k) = -(k : ℤ) by ring, zpow_neg, zpow_natCast, div_eq_mul_inv]
  have hnear := ((describes_exact m).shiftRight k).abs_roundedMantissa_sub_le
  rw [← hscale] at hnear
  generalize ExtendedMantissa.ofMantissaAndAccuracy m .exact >>> k = em at hfirst hnear
  refine ⟨em.roundedMantissa, hnear, ?_⟩
  rw [hscale] at hnear
  generalize hq : em.roundedMantissa = q at hnear
  have hle : q ≤ 2 ^ 53 := rounded_le_two_pow hnear (by omega)
  have hnormal : e + k = -1074 ∨ 2 ^ 52 ≤ q := by
    by_cases hmin : e + k = -1074
    · exact Or.inl hmin
    · exact Or.inr (two_pow_le_rounded hm hnear (by omega))
  rcases hle.lt_or_eq with hlt | rfl
  · have hsecond := shiftToTargetExponent_of_lt hlt (e := e + k) (by omega)
    simp only [roundWithAccuracy, hfirst, hq, hsecond]
    by_cases hz : q = 0
    · simp [hz, Shaped, value]
    · simp only [hz, dif_neg, not_false_eq_true]
      exact ⟨⟨hlt, by omega, hnormal.symm⟩, rfl⟩
  · have hsecond := shiftToTargetExponent_two_pow (e := e + k) (by omega)
    simp only [roundWithAccuracy, hfirst, hq, hsecond]
    refine ⟨⟨by norm_num, by omega, Or.inl (le_refl _)⟩, ?_⟩
    change ((2 ^ 52 : ℕ) : ℚ) * 2 ^ (e + k + 1) = ((2 ^ 53 : ℕ) : ℚ) * 2 ^ (e + k : ℤ)
    rw [zpow_add_one₀ (by norm_num)]
    push_cast
    ring

-- A number that is rounded to a last place above the smallest lies in the binade
-- of this place, and all doubles with a finer last place lie below.
theorem two_zpow_le_mul {m : ℕ} (hm : m ≠ 0) {e t : ℤ} (ht : t = (m.log2 : ℤ) + e - 52) :
    (2 : ℚ) ^ (52 + t) ≤ m * 2 ^ e := by
  have hlog : ((2 ^ m.log2 : ℕ) : ℚ) ≤ m := by exact_mod_cast Nat.log2_self_le hm
  rw [show 52 + t = m.log2 + e by omega, zpow_add₀ (by norm_num), zpow_natCast]
  exact mul_le_mul_of_nonneg_right (by exact_mod_cast hlog) (by positivity)

theorem mul_le_two_zpow {n : ℕ} (hn : n < 2 ^ 53) {j t : ℤ} (hjt : j < t) :
    (n : ℚ) * 2 ^ j ≤ 2 ^ (52 + t) := by
  have hn53 : (n : ℚ) ≤ 2 ^ 53 := by exact_mod_cast hn.le
  calc (n : ℚ) * 2 ^ j ≤ 2 ^ 53 * 2 ^ j := by gcongr
    _ = 2 ^ (53 + j) := by rw [zpow_add₀ (by norm_num)]; norm_num
    _ ≤ 2 ^ (52 + t) := zpow_le_zpow_right₀ (by norm_num) (by omega)

-- Rounding gives a double that is nearest among all of them.
theorem rounded_nearest {m : ℕ} (hm : m ≠ 0) {e : ℤ}
    (he : e ≤ max ((m.log2 : ℤ) + e - 52) (-1074)) {a : ℚ} (ha : Representable a) :
    |value (roundWithAccuracy Format.binary64 .positive m e .exact) - m * 2 ^ e| ≤
      |a - m * 2 ^ e| := by
  generalize ht : max ((m.log2 : ℤ) + e - 52) (-1074) = t at he
  obtain ⟨q, hq, -, hvalue⟩ := exists_rounded hm ht.symm he
  have hpos : (0 : ℚ) < 2 ^ t := by positivity
  have hexact : (m : ℚ) * 2 ^ e = m * 2 ^ (e - t) * 2 ^ t := by
    rw [mul_assoc, ← zpow_add₀ (by norm_num), sub_add_cancel]
  -- multiples of the last place are no nearer
  have hmultiple : ∀ n : ℕ, |(q : ℚ) * 2 ^ t - m * 2 ^ e| ≤ |(n : ℚ) * 2 ^ t - m * 2 ^ e| := by
    intro n
    have hn := abs_sub_le_abs_sub (q := q) (by exact_mod_cast hq) n
    rw [hexact, ← sub_mul, ← sub_mul, abs_mul, abs_mul]
    exact mul_le_mul_of_nonneg_right (by exact_mod_cast hn) (abs_nonneg _)
  rw [hvalue]
  obtain ⟨n, j, hn, hj, rfl⟩ := ha
  by_cases hjt : t ≤ j
  · obtain ⟨d, rfl⟩ : ∃ d : ℕ, j = d + t := ⟨(j - t).toNat, by omega⟩
    have h := hmultiple (n * 2 ^ d)
    rw [zpow_add₀ (by norm_num), zpow_natCast, ← mul_assoc]
    exact_mod_cast h
  · -- the first double of the binade is at least as near as those below it
    have hbinade : (2 : ℚ) ^ (52 + t) ≤ m * 2 ^ e := two_zpow_le_mul hm (by omega)
    have hfine : (n : ℚ) * 2 ^ j ≤ 2 ^ (52 + t) := mul_le_two_zpow hn (by omega)
    have h := hmultiple (2 ^ 52)
    have hpower : ((2 ^ 52 : ℕ) : ℚ) * 2 ^ t = 2 ^ (52 + t) := by
      rw [zpow_add₀ (by norm_num)]
      norm_num
    rw [hpower] at h
    refine h.trans ?_
    rw [abs_sub_comm, abs_sub_comm ((n : ℚ) * 2 ^ j), abs_of_nonneg (by linarith),
      abs_of_nonneg (by linarith)]
    linarith

end Coinage.Double
