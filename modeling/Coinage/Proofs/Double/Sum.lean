import Coinage.Proofs.Double.Difference

namespace Coinage.Double

open Float.Model Float.Model.UnpackedFloat

-- What is rounded to 2 ^ 1024 or more is packed as an infinity.
theorem lt_of_isFinite_pack {x : UnpackedFloat} (h : Shaped x)
    (hfinite : (Float.Model.pack x).unpack.isFinite = true) : value x < 2 ^ (1024 : ℤ) := by
  by_contra hlarge
  rcases h.eq_zero_or_finite with rfl | ⟨m, e, hm, rfl, hbits, -, -⟩
  · exact hlarge (by rw [value_zero]; positivity)
  have he : 972 ≤ e := by
    by_contra hlow
    exact hlarge (mul_lt_two_pow_1024 hbits (by omega))
  have hinfinite : Float.Model.pack (.finite .positive m e hm) =
      Float.Model.pack (.infinity .positive) := by
    have hexponent : 2 ^ Format.binary64.exponentBits ≤ (e + Format.binary64.exponentBias +
        Format.binary64.mantissaBitsWithoutImplicit).toNat + 1 := by
      simp only [Format.exponentBias]
      norm_num
      omega
    simp only [Float.Model.pack, UnpackedFloat.pack]
    congr 2
    exact if_pos hexponent
  rw [hinfinite] at hfinite
  revert hfinite
  decide

-- The sum of two numbers at the smaller of their exponents.
theorem add_eq_round {m n : ℕ} {e f : ℤ} (hm : 0 < m) (hn : 0 < n) :
    ∃ d : ℕ, d ≠ 0 ∧ (m : ℚ) * 2 ^ e + n * 2 ^ f = d * 2 ^ (min e f) ∧
      UnpackedFloat.add Format.binary64 (.finite .positive m e hm) (.finite .positive n f hn) =
        UnpackedFloat.round Format.binary64 .positive d (min e f) := by
  have hexact := shifted_mul m (min_le_left e f)
  have hexact' := shifted_mul n (min_le_right e f)
  have hadd : UnpackedFloat.add Format.binary64 (.finite .positive m e hm)
      (.finite .positive n f hn) = UnpackedFloat.normalize Format.binary64
        ((m * 2 ^ (e - min e f).toNat : ℕ) + (n * 2 ^ (f - min e f).toNat : ℕ) : ℤ)
        (min e f) .positive := by
    simp only [UnpackedFloat.add, decreaseExponent, Sign.apply, Nat.shiftLeft_eq]
  have ha : 0 < m * 2 ^ (e - min e f).toNat := Nat.mul_pos hm (Nat.two_pow_pos _)
  generalize m * 2 ^ (e - min e f).toNat = a at hexact hadd ha
  generalize n * 2 ^ (f - min e f).toNat = b at hexact' hadd
  refine ⟨a + b, by omega, ?_, ?_⟩
  · rw [← hexact, ← hexact', Nat.cast_add, add_mul]
  · have hpos : compare ((a : ℤ) + b) 0 = .gt := Int.compare_eq_gt.mpr (by omega)
    rw [hadd]
    simp only [UnpackedFloat.normalize, hpos]
    congr 1

-- Adding nothing changes nothing.
theorem add_eq_of_value_eq_zero {x y : UnpackedFloat} (hx : Shaped x) (hy : Shaped y)
    (h : value x = 0 ∨ value y = 0) :
    Shaped (UnpackedFloat.add Format.binary64 x y) ∧
      value (UnpackedFloat.add Format.binary64 x y) = value x + value y := by
  rcases hx.eq_zero_or_finite with rfl | ⟨m, e, hm, rfl, -⟩
  · rcases hy.eq_zero_or_finite with rfl | ⟨n, f, hn, rfl, -⟩
    · exact ⟨trivial, (add_zero _).symm⟩
    · exact ⟨hy, (zero_add _).symm⟩
  · rcases hy.eq_zero_or_finite with rfl | ⟨n, f, hn, rfl, -⟩
    · exact ⟨hx, (add_zero _).symm⟩
    · rw [value_finite, value_finite] at h
      rcases h with h | h <;> exact absurd h (by positivity)

-- A sum that does not overflow is rounded to a nearest double.
theorem Denotes.add {x y : Float} {p q : ℚ} (hx : Denotes x p) (hy : Denotes y q)
    (hfinite : (x + y).isFinite = true) :
    ∃ s, Denotes (x + y) s ∧ ∀ a, Representable a → |s - (p + q)| ≤ |a - (p + q)| := by
  obtain ⟨hx, rfl⟩ := hx
  obtain ⟨hy, rfl⟩ := hy
  have hadd : x + y = Float.ofModel (Float.Model.pack
    (UnpackedFloat.add Format.binary64 x.toModel.unpack y.toModel.unpack)) := rfl
  rw [hadd] at hfinite ⊢
  by_cases hzero : value x.toModel.unpack = 0 ∨ value y.toModel.unpack = 0
  · obtain ⟨hshaped, hvalue⟩ := add_eq_of_value_eq_zero hx hy hzero
    refine ⟨_, denotes_pack hshaped (lt_of_isFinite_pack hshaped hfinite), fun a _ => ?_⟩
    rw [hvalue, sub_self, abs_zero]
    exact abs_nonneg _
  rcases hx.eq_zero_or_finite with hxm | ⟨m, e, hm, hxm, -⟩
  · exact absurd (Or.inl (by rw [hxm, value_zero])) hzero
  rcases hy.eq_zero_or_finite with hyn | ⟨n, f, hn, hyn, -⟩
  · exact absurd (Or.inr (by rw [hyn, value_zero])) hzero
  obtain ⟨d, hd, hsum, hround⟩ := add_eq_round (e := e) (f := f) hm hn
  obtain ⟨k, j, hk, hj, hkj, hrounded⟩ := exists_round_eq hd (min e f)
  obtain ⟨-, -, hshaped, -⟩ := exists_rounded hk rfl hj
  rw [hxm, hyn, hround, hrounded] at hfinite ⊢
  rw [value_finite, value_finite, hsum, hkj]
  exact ⟨_, denotes_pack hshaped (lt_of_isFinite_pack hshaped hfinite),
    fun a ha => rounded_nearest hk hj ha⟩

-- What can be added to a number without overflow is finite itself.
theorem Denotes.exists_addend {x y : Float} {p : ℚ} (hx : Denotes x p) (hpos : 0 < y)
    (hfinite : (x + y).isFinite = true) : ∃ q, 0 < q ∧ Denotes y q := by
  refine denotes_zero.exists_of_lt hpos ?_
  have hsum : (Float.Model.pack (UnpackedFloat.add Format.binary64 x.toModel.unpack
    y.toModel.unpack)).unpack.isFinite = true := hfinite
  have hlt : (0 : Float).toModel.unpack.lt y.toModel.unpack = true := of_decide_eq_true hpos
  change y.toModel.unpack.isFinite = true
  cases hy : y.toModel.unpack with
  | zero s | finite s m e hm => rfl
  | notANumber =>
    rw [hy] at hlt
    revert hlt
    decide
  | infinity s =>
    have hinfinite : UnpackedFloat.add Format.binary64 x.toModel.unpack (.infinity s) =
        .infinity s := by
      rcases hx.1.eq_zero_or_finite with hx | ⟨m, e, hm, hx, -⟩ <;> rw [hx] <;> rfl
    rw [hy, hinfinite] at hsum
    revert hsum
    cases s <;> decide

theorem Representable.two_mul {a : ℚ} (h : Representable a) : Representable (2 * a) := by
  obtain ⟨n, j, hn, hj, rfl⟩ := h
  refine ⟨n, j + 1, hn, by omega, ?_⟩
  rw [zpow_add_one₀ (by norm_num)]
  ring

-- No bits are lost if a number is taken from one that is at most twice as large.
theorem Representable.sub {a b : ℚ} (ha : Representable a) (hb : Representable b) (hle : b ≤ a)
    (htwice : a ≤ 2 * b) : Representable (a - b) := by
  obtain ⟨m, e, hm, he, rfl⟩ := ha
  obtain ⟨n, f, hn, hf, rfl⟩ := hb
  have hplace : (0 : ℚ) < 2 ^ (min e f) := by positivity
  have hexact := shifted_mul m (min_le_left e f)
  have hexact' := shifted_mul n (min_le_right e f)
  have hsame : m * 2 ^ (e - min e f).toNat = m ∨ n * 2 ^ (f - min e f).toNat = n := by
    rcases le_total e f with h | h
    · left
      rw [min_eq_left h, sub_self, Int.toNat_zero, pow_zero, mul_one]
    · right
      rw [min_eq_right h, sub_self, Int.toNat_zero, pow_zero, mul_one]
  generalize m * 2 ^ (e - min e f).toNat = k at hexact hsame
  generalize n * 2 ^ (f - min e f).toNat = l at hexact' hsame
  rw [← hexact, ← hexact'] at hle htwice ⊢
  rw [← mul_assoc] at htwice
  have hlk : l ≤ k := by exact_mod_cast le_of_mul_le_mul_right hle hplace
  have hkl : k ≤ 2 * l := by exact_mod_cast le_of_mul_le_mul_right htwice hplace
  refine ⟨k - l, min e f, by omega, by omega, ?_⟩
  rw [Nat.cast_sub hlk, sub_mul]

end Coinage.Double
