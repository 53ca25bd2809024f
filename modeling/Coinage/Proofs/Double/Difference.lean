import Coinage.Proofs.Double.Finite

namespace Coinage.Double

open Float.Model Float.Model.UnpackedFloat

-- A smaller exponent shifts the mantissa and leaves the number as it is.
theorem shifted_mul (m : ℕ) {e f : ℤ} (h : f ≤ e) :
    ((m * 2 ^ (e - f).toNat : ℕ) : ℚ) * 2 ^ f = m * 2 ^ e := by
  rw [Nat.cast_mul, Nat.cast_pow, mul_assoc, Nat.cast_ofNat, ← zpow_natCast,
    ← zpow_add₀ (by norm_num)]
  congr 2
  omega

-- Every double is a multiple of the least one above zero.
theorem Representable.exists_eq_mul {a : ℚ} (h : Representable a) :
    ∃ k : ℕ, a = k * 2 ^ (-1074 : ℤ) := by
  obtain ⟨n, j, -, hj, rfl⟩ := h
  exact ⟨_, (shifted_mul n hj).symm⟩

theorem representable_least : Representable (2 ^ (-1074 : ℤ)) :=
  ⟨1, -1074, by norm_num, le_rfl, by rw [Nat.cast_one, one_mul]⟩

theorem least_le_sub {a b : ℚ} (ha : Representable a) (hb : Representable b) (hlt : b < a) :
    2 ^ (-1074 : ℤ) ≤ a - b := by
  obtain ⟨k, rfl⟩ := ha.exists_eq_mul
  obtain ⟨l, rfl⟩ := hb.exists_eq_mul
  have hpos : (0 : ℚ) < 2 ^ (-1074 : ℤ) := by positivity
  have hkl : l + 1 ≤ k := Nat.succ_le_of_lt (by exact_mod_cast lt_of_mul_lt_mul_right hlt hpos.le)
  have hstep : ((l + 1 : ℕ) : ℚ) * 2 ^ (-1074 : ℤ) ≤ k * 2 ^ (-1074 : ℤ) := by gcongr
  rw [Nat.cast_add_one, add_one_mul] at hstep
  linarith

-- Before it is rounded, a mantissa is shifted until no bits are missing.
theorem exists_round_eq {m : ℕ} (hm : m ≠ 0) (e : ℤ) :
    ∃ (n : ℕ) (f : ℤ), n ≠ 0 ∧ f ≤ max ((n.log2 : ℤ) + f - 52) (-1074) ∧
      (m : ℚ) * 2 ^ e = n * 2 ^ f ∧
      UnpackedFloat.round Format.binary64 .positive m e =
        roundWithAccuracy Format.binary64 .positive n f .exact := by
  generalize ht : max ((m.log2 : ℤ) + e - 52) (-1074) = t
  refine ⟨m * 2 ^ (e - t).toNat, e - (e - t).toNat,
    Nat.mul_ne_zero hm (Nat.two_pow_pos _).ne', ?_, ?_, ?_⟩
  · rw [log2_mul_two_pow hm]
    omega
  · rw [← shifted_mul m (f := e - (e - t).toNat) (by omega)]
    congr 4
    omega
  · simp only [UnpackedFloat.round, target_eq, ht, decreaseExponent, Nat.shiftLeft_eq]

-- The difference of two numbers at the smaller of their exponents.
theorem sub_eq_round {m n : ℕ} {e f : ℤ} (hm : 0 < m) (hn : 0 < n)
    (hlt : (n : ℚ) * 2 ^ f < m * 2 ^ e) :
    ∃ d : ℕ, d ≠ 0 ∧ (m : ℚ) * 2 ^ e - n * 2 ^ f = d * 2 ^ (min e f) ∧
      UnpackedFloat.sub Format.binary64 (.finite .positive m e hm) (.finite .positive n f hn) =
        UnpackedFloat.round Format.binary64 .positive d (min e f) := by
  have hexact := shifted_mul m (min_le_left e f)
  have hexact' := shifted_mul n (min_le_right e f)
  have hsub : UnpackedFloat.sub Format.binary64 (.finite .positive m e hm)
      (.finite .positive n f hn) = UnpackedFloat.normalize Format.binary64
        ((m * 2 ^ (e - min e f).toNat : ℕ) - (n * 2 ^ (f - min e f).toNat : ℕ) : ℤ)
        (min e f) .positive := by
    simp only [UnpackedFloat.sub, decreaseExponent, Sign.apply, Nat.shiftLeft_eq]
  generalize m * 2 ^ (e - min e f).toNat = a at hexact hsub
  generalize n * 2 ^ (f - min e f).toNat = b at hexact' hsub
  rw [← hexact, ← hexact'] at hlt
  have hba : b < a := by
    exact_mod_cast lt_of_mul_lt_mul_right hlt (by positivity)
  refine ⟨a - b, Nat.sub_ne_zero_of_lt hba, ?_, ?_⟩
  · rw [← hexact, ← hexact', Nat.cast_sub hba.le, sub_mul]
  · have hpos : compare ((a : ℤ) - b) 0 = .gt := Int.compare_eq_gt.mpr (by omega)
    rw [hsub]
    simp only [UnpackedFloat.normalize, hpos]
    congr 1
    omega

-- A difference is rounded to a nearest double.
theorem Denotes.sub {x y : Float} {p q : ℚ} (hx : Denotes x p) (hy : Denotes y q) (hlt : q < p) :
    ∃ r, Denotes (x - y) r ∧ ∀ a, Representable a → |r - (p - q)| ≤ |a - (p - q)| := by
  have hp := hx.representable
  have hq := hy.nonneg
  have hfinite := hx.lt_two_pow_1024
  obtain ⟨hx, rfl⟩ := hx
  obtain ⟨hy, rfl⟩ := hy
  have hsub : x - y = Float.ofModel (Float.Model.pack
    (UnpackedFloat.sub Format.binary64 x.toModel.unpack y.toModel.unpack)) := rfl
  rw [hsub]
  rcases hx.eq_zero_or_finite with hzero | ⟨m, e, hm, hxm, -⟩
  · rw [hzero, value_zero] at hlt
    exact absurd hlt (not_lt.mpr hq)
  rcases hy.eq_zero_or_finite with hzero | ⟨n, f, hn, hyn, -⟩
  · have hsame : UnpackedFloat.sub Format.binary64 x.toModel.unpack y.toModel.unpack =
        x.toModel.unpack := by
      rw [hxm, hzero]
      rfl
    rw [hsame, hzero, value_zero, sub_zero]
    exact ⟨_, denotes_pack hx hfinite, fun a _ => by simp⟩
  · rw [hxm, hyn, value_finite, value_finite] at hlt
    obtain ⟨d, hd, hdiff, hround⟩ := sub_eq_round hm hn hlt
    obtain ⟨k, j, hk, hj, hkj, hrounded⟩ := exists_round_eq hd (min e f)
    rw [hxm] at hp hfinite
    rw [hyn] at hq
    rw [hxm, hyn, hround, hrounded, value_finite, value_finite, hdiff, hkj]
    apply denotes_rounded hk hj hp _ hfinite
    rw [← hkj, ← hdiff]
    exact sub_le_self _ hq

-- A difference is not lost to rounding: it is a multiple of the least double.
theorem Denotes.sub_pos {x y : Float} {p q : ℚ} (hx : Denotes x p) (hy : Denotes y q)
    (hlt : q < p) : 0 < x - y := by
  obtain ⟨r, hr, hnear⟩ := hx.sub hy hlt
  rw [denotes_zero.lt_iff hr]
  have hleast := least_le_sub hx.representable hy.representable hlt
  have hpos : (0 : ℚ) < 2 ^ (-1074 : ℤ) := by positivity
  exact hpos.trans_le (le_of_nearest (hnear _ representable_least) hleast)

end Coinage.Double
