import Coinage.Proofs.Double.Arithmetic
import Coinage.Proofs.Double.Nearest

namespace Coinage.Double

open Float.Model Float.Model.UnpackedFloat

theorem Shaped.eq_zero_or_finite {x : UnpackedFloat} (h : Shaped x) :
    x = .zero .positive ∨ ∃ (m : ℕ) (e : ℤ) (hm : 0 < m), x = .finite .positive m e hm ∧
      m < 2 ^ 53 ∧ -1074 ≤ e ∧ (2 ^ 52 ≤ m ∨ e = -1074) := by
  cases x with
  | infinity s | notANumber => exact False.elim h
  | zero s =>
    cases s with
    | negative => exact False.elim h
    | positive => exact Or.inl rfl
  | finite s m e hm =>
    cases s with
    | negative => exact False.elim h
    | positive => exact Or.inr ⟨m, e, hm, rfl, h⟩

@[simp] theorem value_zero (s : Sign) : value (.zero s) = 0 := rfl

@[simp] theorem value_finite (s : Sign) (m : ℕ) (e : ℤ) (hm : 0 < m) :
    value (.finite s m e hm) = m * 2 ^ e := rfl

theorem Shaped.value_nonneg {x : UnpackedFloat} (h : Shaped x) : 0 ≤ value x := by
  rcases h.eq_zero_or_finite with rfl | ⟨m, e, hm, rfl, -⟩
  · exact le_refl 0
  · rw [value_finite]
    positivity

theorem Shaped.representable {x : UnpackedFloat} (h : Shaped x) : Representable (value x) := by
  rcases h.eq_zero_or_finite with rfl | ⟨m, e, hm, rfl, hbits, he, -⟩
  · exact ⟨0, 0, by norm_num, by norm_num, by simp⟩
  · exact ⟨m, e, hbits, he, rfl⟩

-- The exponent decides before the mantissa, since a mantissa fills its 53 bits
-- unless the exponent is the least.
theorem value_lt_of_exponent_lt {m n : ℕ} {e f : ℤ} (hm : m < 2 ^ 53) (he : -1074 ≤ e)
    (hn : 2 ^ 52 ≤ n ∨ f = -1074) (hlt : e < f) : (m : ℚ) * 2 ^ e < n * 2 ^ f := by
  have hfull : ((2 ^ 52 : ℕ) : ℚ) ≤ n := by exact_mod_cast hn.resolve_right (by omega)
  have hbits : (m : ℚ) < ((2 ^ 53 : ℕ) : ℚ) := by exact_mod_cast hm
  calc (m : ℚ) * 2 ^ e < ((2 ^ 53 : ℕ) : ℚ) * 2 ^ e := by gcongr
    _ = ((2 ^ 52 : ℕ) : ℚ) * 2 ^ (e + 1) := by
      rw [zpow_add_one₀ (by norm_num)]
      push_cast
      ring
    _ ≤ ((2 ^ 52 : ℕ) : ℚ) * 2 ^ f := by
      gcongr
      · norm_num
      · omega
    _ ≤ n * 2 ^ f := by gcongr

-- Doubles compare as the numbers that they stand for.
theorem compare_eq {x y : UnpackedFloat} (hx : Shaped x) (hy : Shaped y) :
    x.compare y = some (compare (value x) (value y)) := by
  rcases hx.eq_zero_or_finite with rfl | ⟨m, e, hm, rfl, hmbits, he, hmfull⟩
  · rcases hy.eq_zero_or_finite with rfl | ⟨n, f, hn, rfl, -⟩
    · rw [compare_eq_iff_eq.mpr rfl]
      rfl
    · have hpos : value (.zero .positive) < value (.finite .positive n f hn) := by
        rw [value_zero, value_finite]
        positivity
      rw [compare_lt_iff_lt.mpr hpos]
      rfl
  rcases hy.eq_zero_or_finite with rfl | ⟨n, f, hn, rfl, hnbits, hf, hnfull⟩
  · have hpos : value (.zero .positive) < value (.finite .positive m e hm) := by
      rw [value_zero, value_finite]
      positivity
    rw [compare_gt_iff_gt.mpr hpos]
    rfl
  simp only [UnpackedFloat.compare, value_finite]
  rcases lt_trichotomy e f with hlt | rfl | hgt
  · rw [Int.compare_eq_lt.mpr hlt,
      compare_lt_iff_lt.mpr (value_lt_of_exponent_lt hmbits he hnfull hlt)]
    rfl
  · rw [Int.compare_eq_eq.mpr rfl]
    rcases lt_trichotomy m n with hlt | rfl | hgt
    · have hvalue : (m : ℚ) * 2 ^ e < n * 2 ^ e := by gcongr
      rw [Nat.compare_eq_lt.mpr hlt, compare_lt_iff_lt.mpr hvalue]
      rfl
    · rw [Nat.compare_eq_eq.mpr rfl, compare_eq_iff_eq.mpr rfl]
      rfl
    · have hvalue : (n : ℚ) * 2 ^ e < m * 2 ^ e := by gcongr
      rw [Nat.compare_eq_gt.mpr hgt, compare_gt_iff_gt.mpr hvalue]
      rfl
  · rw [Int.compare_eq_gt.mpr hgt,
      compare_gt_iff_gt.mpr (value_lt_of_exponent_lt hnbits hf hmfull hgt)]
    rfl

theorem le_eq_true_iff {x y : UnpackedFloat} (hx : Shaped x) (hy : Shaped y) :
    x.le y = true ↔ value x ≤ value y := by
  rw [UnpackedFloat.le, compare_eq hx hy, Option.any_some, Ordering.isLE_iff_ne_gt]
  exact compare_le_iff_le

theorem lt_eq_true_iff {x y : UnpackedFloat} (hx : Shaped x) (hy : Shaped y) :
    x.lt y = true ↔ value x < value y := by
  rw [UnpackedFloat.lt, compare_eq hx hy, beq_iff_eq, Option.some.injEq]
  exact compare_lt_iff_lt

theorem value_injective {x y : UnpackedFloat} (hx : Shaped x) (hy : Shaped y)
    (h : value x = value y) : x = y := by
  have hcompare := compare_eq hx hy
  rw [compare_eq_iff_eq.mpr h] at hcompare
  rcases hx.eq_zero_or_finite with rfl | ⟨m, e, hm, rfl, -⟩
  · rcases hy.eq_zero_or_finite with rfl | ⟨n, f, hn, rfl, -⟩
    · rfl
    · cases hcompare
  · rcases hy.eq_zero_or_finite with rfl | ⟨n, f, hn, rfl, -⟩
    · cases hcompare
    · simp only [UnpackedFloat.compare, Option.some.injEq, Ordering.then_eq_eq,
        compare_eq_iff_eq] at hcompare
      obtain ⟨rfl, rfl⟩ := hcompare
      rfl

-- A subnormal number survives packing.
theorem unpack_pack_subnormal {m : ℕ} (hm : 0 < m) (hlt : m < 2 ^ 52) :
    (Float.Model.pack (.finite .positive m (-1074) hm)).unpack =
      .finite .positive m (-1074) hm := by
  have hlog : m.log2 + 1 ≠ Format.binary64.mantissaBits := by
    have h := (Nat.log2_lt hm.ne').mpr hlt
    simp only [Format.mantissaBits]
    omega
  have hmantissa : (BitVec.ofNat 52 m).toNat = m := by
    rw [BitVec.toNat_ofNat, Nat.mod_eq_of_lt hlt]
  have hnonzero : BitVec.ofNat 52 m ≠ 0#52 := by
    intro h
    rw [h] at hmantissa
    simp only [BitVec.toNat_ofNat, Nat.zero_mod] at hmantissa
    omega
  have hpack : UnpackedFloat.pack Format.binary64 (.finite .positive m (-1074) hm) =
      packComponents Format.binary64 .positive (BitVec.ofNat 11 0) (BitVec.ofNat 52 m) := by
    have hexponent : ¬2 ^ Format.binary64.exponentBits ≤ ((-1074 : ℤ) +
        Format.binary64.exponentBias + Format.binary64.mantissaBitsWithoutImplicit).toNat + 1 := by
      decide
    simp only [UnpackedFloat.pack]
    rw [if_neg hexponent, if_neg hlog]
  simp only [Float.Model.unpack, Float.Model.pack, hpack, UInt64.toBitVec_ofBitVec]
  simp only [UnpackedFloat.unpack, unpackMantissa_packComponents, unpackExponent_packComponents,
    unpackSign_packComponents, Sign.ofBitVec_toBitVec]
  rw [if_neg (by decide), if_pos trivial, dif_neg hnonzero]
  simp only [hmantissa]
  rfl

theorem unpack_pack {x : UnpackedFloat} (h : Shaped x) (hlt : value x < 2 ^ (1024 : ℤ)) :
    (Float.Model.pack x).unpack = x := by
  rcases h.eq_zero_or_finite with rfl | ⟨m, e, hm, rfl, hbits, he, hfull⟩
  · rfl
  by_cases hnormal : 2 ^ 52 ≤ m
  · have hhigh : e ≤ 971 := by
      by_contra hgt
      rw [value_finite] at hlt
      have hle : ((2 ^ 52 : ℕ) : ℚ) * 2 ^ (972 : ℤ) ≤ m * 2 ^ e := by
        gcongr
        · norm_num
        · omega
      have hbound : ((2 ^ 52 : ℕ) : ℚ) * 2 ^ (972 : ℤ) = 2 ^ (1024 : ℤ) := by
        rw [Nat.cast_pow, Nat.cast_ofNat, ← zpow_natCast, ← zpow_add₀ (by norm_num)]
        rfl
      linarith
    exact unpack_pack_normal ⟨hnormal, hbits⟩ e .positive he hhigh
  · obtain rfl := hfull.resolve_left hnormal
    exact unpack_pack_subnormal hm (not_le.mp hnormal)

theorem mul_eq_round {x y : UnpackedFloat} (hx : Shaped x) (hy : Shaped y)
    (hne : value x * value y ≠ 0) :
    ∃ (m : ℕ) (e : ℤ), m ≠ 0 ∧ e ≤ max ((m.log2 : ℤ) + e - 52) (-1074) ∧
      value x * value y = m * 2 ^ e ∧
      UnpackedFloat.mul Format.binary64 x y =
        roundWithAccuracy Format.binary64 .positive m e .exact := by
  rcases hx.eq_zero_or_finite with rfl | ⟨m, e, hm, rfl, -, he, hmfull⟩
  · exact absurd (zero_mul _) hne
  rcases hy.eq_zero_or_finite with rfl | ⟨n, f, hn, rfl, -, hf, hnfull⟩
  · exact absurd (mul_zero _) hne
  have hpos : m * n ≠ 0 := (Nat.mul_pos hm hn).ne'
  refine ⟨m * n, e + f, hpos, ?_, ?_, rfl⟩
  · by_cases hfull : 2 ^ 52 ≤ m * n
    · have hlog := (Nat.le_log2 hpos).mpr hfull
      omega
    · have hme : e = -1074 := by
        refine hmfull.resolve_left fun h => hfull ?_
        exact h.trans (Nat.le_mul_of_pos_right m hn)
      have hnf : f = -1074 := by
        refine hnfull.resolve_left fun h => hfull ?_
        exact h.trans (Nat.le_mul_of_pos_left n hm)
      omega
  · rw [value_finite, value_finite, zpow_add₀ (by norm_num)]
    push_cast
    ring

theorem mul_eq_zero_of_value {x y : UnpackedFloat} (hx : Shaped x) (hy : Shaped y)
    (h : value x * value y = 0) : UnpackedFloat.mul Format.binary64 x y = .zero .positive := by
  rcases hx.eq_zero_or_finite with rfl | ⟨m, e, hm, rfl, -⟩
  · rcases hy.eq_zero_or_finite with rfl | ⟨n, f, hn, rfl, -⟩ <;> rfl
  · rcases hy.eq_zero_or_finite with rfl | ⟨n, f, hn, rfl, -⟩
    · rfl
    · rw [value_finite, value_finite] at h
      exact absurd h (by positivity)

-- The double stands for the number.
def Denotes (x : Float) (q : ℚ) : Prop :=
  Shaped x.toModel.unpack ∧ value x.toModel.unpack = q

theorem Denotes.representable {x : Float} {q : ℚ} (h : Denotes x q) : Representable q :=
  h.2 ▸ h.1.representable

theorem Denotes.le_iff {x y : Float} {p q : ℚ} (hx : Denotes x p) (hy : Denotes y q) :
    x ≤ y ↔ p ≤ q := by
  obtain ⟨hx, rfl⟩ := hx
  obtain ⟨hy, rfl⟩ := hy
  rw [← le_eq_true_iff hx hy]
  exact decide_eq_true_iff

theorem Denotes.lt_iff {x y : Float} {p q : ℚ} (hx : Denotes x p) (hy : Denotes y q) :
    x < y ↔ p < q := by
  obtain ⟨hx, rfl⟩ := hx
  obtain ⟨hy, rfl⟩ := hy
  rw [← lt_eq_true_iff hx hy]
  exact decide_eq_true_iff

-- Doubles that stand for the same number are the same, bit for bit.
theorem Denotes.eq {x y : Float} {q : ℚ} (hx : Denotes x q) (hy : Denotes y q) : x = y := by
  have hunpack : x.toModel.unpack = y.toModel.unpack :=
    value_injective hx.1 hy.1 (hx.2.trans hy.2.symm)
  have hbits := (unpack_inj_of_valid x.toModel.valid y.toModel.valid).mp hunpack
  exact Float.toBits_inj.mp (UInt64.toBitVec_inj.mp hbits)

theorem denotes_pack {x : UnpackedFloat} (h : Shaped x) (hlt : value x < 2 ^ (1024 : ℤ)) :
    Denotes (Float.ofModel (Float.Model.pack x)) (value x) := by
  refine ⟨?_, ?_⟩ <;> simp only [unpack_pack h hlt]
  exact h

-- Rounding goes to a nearest double, as long as some double is not below.
theorem denotes_rounded {m : ℕ} (hm : m ≠ 0) {e : ℤ}
    (he : e ≤ max ((m.log2 : ℤ) + e - 52) (-1074)) {c : ℚ} (hc : Representable c)
    (hle : m * 2 ^ e ≤ c) (hlt : c < 2 ^ (1024 : ℤ)) :
    ∃ r, Denotes (Float.ofModel (Float.Model.pack
        (roundWithAccuracy Format.binary64 .positive m e .exact))) r ∧
      ∀ a, Representable a → |r - m * 2 ^ e| ≤ |a - m * 2 ^ e| := by
  obtain ⟨-, -, hshaped, -⟩ := exists_rounded hm rfl he
  have hbelow := le_abs_self _ |>.trans (rounded_nearest hm he hc)
  rw [abs_of_nonneg (sub_nonneg.mpr hle)] at hbelow
  exact ⟨_, denotes_pack hshaped (by linarith), fun a ha => rounded_nearest hm he ha⟩

theorem Denotes.mul {x y : Float} {p q c : ℚ} (hx : Denotes x p) (hy : Denotes y q)
    (hc : Representable c) (hle : p * q ≤ c) (hlt : c < 2 ^ (1024 : ℤ)) :
    ∃ r, Denotes (x * y) r ∧ ∀ a, Representable a → |r - p * q| ≤ |a - p * q| := by
  obtain ⟨hx, rfl⟩ := hx
  obtain ⟨hy, rfl⟩ := hy
  have hproduct : x * y = Float.ofModel (Float.Model.pack
    (UnpackedFloat.mul Format.binary64 x.toModel.unpack y.toModel.unpack)) := rfl
  rw [hproduct]
  by_cases hzero : value x.toModel.unpack * value y.toModel.unpack = 0
  · rw [mul_eq_zero_of_value hx hy hzero, hzero]
    exact ⟨0, denotes_pack (x := .zero .positive) trivial (by positivity), fun a _ => by simp⟩
  · obtain ⟨m, e, hm, he, hexact, hround⟩ := mul_eq_round hx hy hzero
    rw [hexact] at hle ⊢
    rw [hround]
    exact denotes_rounded hm he hc hle hlt

-- Whole numbers of 53 bits are doubles.
theorem denotes_ofWhole {n : ℕ} (h : n < 2 ^ 53) : Denotes (ofWhole n) n := by
  unfold Denotes ofWhole
  rw [unpack_pack_whole h]
  by_cases hn : n = 0
  · subst hn
    exact ⟨trivial, rfl⟩
  · obtain ⟨hlow, hhigh⟩ := normal_significand hn h
    have hlog := (Nat.log2_lt hn).mpr h
    rw [whole_eq hn h]
    refine ⟨⟨hhigh, by omega, Or.inl hlow⟩, ?_⟩
    rw [value_finite, significand, Nat.cast_mul, Nat.cast_pow, mul_assoc, Nat.cast_ofNat,
      ← zpow_natCast, ← zpow_add₀ (by norm_num)]
    rw [show ((52 - n.log2 : ℕ) : ℤ) + (n.log2 - 52) = 0 by omega, zpow_zero, mul_one]

theorem denotes_ofNat {n : ℕ} (h : n < 2 ^ 53) : Denotes (Float.ofNat n) n := by
  rw [ofNat_eq h]
  exact denotes_ofWhole h

theorem representable_natCast {n : ℕ} (h : n < 2 ^ 53) : Representable n :=
  (denotes_ofWhole h).representable

theorem le_of_nearest {a x r : ℚ} (hnear : |r - x| ≤ |a - x|) (h : a ≤ x) : a ≤ r := by
  rw [abs_of_nonpos (sub_nonpos.mpr h)] at hnear
  have hlow := neg_le_of_abs_le hnear
  linarith

theorem ge_of_nearest {a x r : ℚ} (hnear : |r - x| ≤ |a - x|) (h : x ≤ a) : r ≤ a := by
  rw [abs_of_nonneg (sub_nonneg.mpr h)] at hnear
  have hhigh := le_of_abs_le hnear
  linarith

-- What is below the middle of two doubles is not rounded to the upper one.
theorem lt_of_nearest {a b x r : ℚ} (hnear : |r - x| ≤ |a - x|) (hab : a < b)
    (hmiddle : 2 * x < a + b) : r < b := by
  have hhigh := (le_abs_self _).trans hnear
  rcases abs_cases (a - x) with ⟨heq, -⟩ | ⟨heq, -⟩ <;> linarith

theorem gt_of_nearest {a b x r : ℚ} (hnear : |r - x| ≤ |b - x|) (hab : a < b)
    (hmiddle : a + b < 2 * x) : a < r := by
  have hlow := (neg_abs_le _).trans' (neg_le_neg hnear)
  rcases abs_cases (b - x) with ⟨heq, -⟩ | ⟨heq, -⟩ <;> linarith

-- What is less than half a place below a multiple of the place is rounded to it.
theorem eq_of_nearest_multiple {k l : ℕ} {x place : ℚ} (hplace : 0 < place)
    (hnear : |l * place - x * place| ≤ |k * place - x * place|) (hle : x ≤ k)
    (hmiddle : 2 * k - 1 < 2 * x) : l = k := by
  rw [← sub_mul, ← sub_mul, abs_mul, abs_mul, abs_of_pos hplace] at hnear
  have hunit := le_of_mul_le_mul_right hnear hplace
  have hhigh : (l : ℚ) ≤ k := ge_of_nearest hunit hle
  have hlow : (k : ℚ) - 1 < l := gt_of_nearest hunit (by linarith) (by linarith)
  rw [sub_lt_iff_lt_add] at hlow
  exact le_antisymm (by exact_mod_cast hhigh) (Nat.lt_succ_iff.mp (by exact_mod_cast hlow))

theorem lt_two_pow_1024 {q : ℚ} (h : q < 2 ^ 53) : q < 2 ^ (1024 : ℤ) := by
  have hle : (2 : ℚ) ^ (53 : ℤ) ≤ 2 ^ (1024 : ℤ) :=
    zpow_le_zpow_right₀ (by norm_num) (by norm_num)
  exact h.trans_le hle

end Coinage.Double
