import Coinage.Proofs.Double.Denotes

namespace Coinage.Double

open Float.Model Float.Model.UnpackedFloat

theorem toNat_ne_of_ne {exponent : BitVec 11} (hzero : exponent ≠ 0#11) (hones : exponent ≠ -1#11) :
    exponent.toNat ≠ 0 ∧ exponent.toNat < 2047 := by
  have hlt : exponent.toNat < 2048 := exponent.isLt
  have hlow : exponent.toNat ≠ 0 := fun h => hzero (BitVec.eq_of_toNat_eq h)
  have hhigh : exponent.toNat ≠ 2047 := fun h => hones (BitVec.eq_of_toNat_eq h)
  exact ⟨hlow, by omega⟩

-- The exponents that are kept for zero and the subnormal numbers and for what is
-- not finite leave these to the finite numbers.
theorem bounds_of_unpack_eq_finite {x : Float.Model} {s : Sign} {m : ℕ} {e : ℤ} {hm : 0 < m}
    (h : x.unpack = .finite s m e hm) :
    m < 2 ^ 53 ∧ -1074 ≤ e ∧ e ≤ 971 ∧ (2 ^ 52 ≤ m ∨ e = -1074) := by
  have hbits : (@unpackMantissa Format.binary64 x.toBits.toBitVec).toNat < 2 ^ 52 :=
    BitVec.isLt _
  simp only [Float.Model.unpack, UnpackedFloat.unpack] at h
  split at h
  case isTrue =>
    split at h <;> cases h
  case isFalse hones =>
    split at h
    case isTrue hzero =>
      split at h
      · cases h
      · cases h
        rw [hzero]
        exact ⟨hbits.trans (by norm_num), by decide, by decide, Or.inr (by decide)⟩
    case isFalse hzero =>
      cases h
      obtain ⟨hlow, hhigh⟩ := toNat_ne_of_ne hzero hones
      rw [toNat_implicit_append]
      simp only [Format.exponentBias]
      norm_num
      omega

theorem Shaped.not_lt_zero {x : UnpackedFloat} (h : Shaped x) (s : Sign) :
    x.lt (.zero s) = false := by
  rcases h.eq_zero_or_finite with rfl | ⟨m, e, hm, rfl, -⟩ <;> rfl

theorem Shaped.not_lt_negative {x : UnpackedFloat} (h : Shaped x) {m : ℕ} {e : ℤ} (hm : 0 < m) :
    x.lt (.finite .negative m e hm) = false := by
  rcases h.eq_zero_or_finite with rfl | ⟨n, f, hn, rfl, -⟩ <;> rfl

-- The sign of a zero makes no difference.
theorem Shaped.le_zero {x : UnpackedFloat} (h : Shaped x) (s : Sign) :
    x.le (.zero s) = x.le (.zero .positive) := by
  rcases h.eq_zero_or_finite with rfl | ⟨m, e, hm, rfl, -⟩ <;> rfl

theorem Shaped.zero_lt {x : UnpackedFloat} (h : Shaped x) (s : Sign) :
    (UnpackedFloat.zero s).lt x = (UnpackedFloat.zero .positive).lt x := by
  rcases h.eq_zero_or_finite with rfl | ⟨m, e, hm, rfl, -⟩ <;> rfl

section Denotes

variable {x y : Float} {p q : ℚ}

theorem denotes_zero : Denotes 0 0 := by
  have hzero : Denotes (Float.ofNat 0) (0 : ℕ) := denotes_ofNat (by norm_num)
  rwa [Nat.cast_zero] at hzero

theorem Denotes.nonneg (h : Denotes x q) : 0 ≤ q :=
  h.2 ▸ h.1.value_nonneg

theorem Denotes.isFinite (h : Denotes x q) : x.isFinite = true := by
  change x.toModel.unpack.isFinite = true
  rcases h.1.eq_zero_or_finite with hunpack | ⟨m, e, hm, hunpack, -⟩ <;> rw [hunpack] <;> rfl

-- The mantissa and the exponent of a positive double.
theorem Denotes.exists_eq_mul (h : Denotes x q) (hpos : 0 < q) :
    ∃ (m : ℕ) (e : ℤ), q = m * 2 ^ e ∧ m < 2 ^ 53 ∧ -1074 ≤ e ∧ e ≤ 971 ∧
      (2 ^ 52 ≤ m ∨ e = -1074) := by
  obtain ⟨hshaped, rfl⟩ := h
  rcases hshaped.eq_zero_or_finite with hzero | ⟨m, e, hm, hfinite, -⟩
  · rw [hzero, value_zero] at hpos
    exact absurd hpos (lt_irrefl 0)
  · refine ⟨m, e, ?_, bounds_of_unpack_eq_finite hfinite⟩
    rw [hfinite, value_finite]

-- The greatest exponent of finite doubles is 971.
theorem mul_lt_two_pow_1024 {m : ℕ} {e : ℤ} (hm : m < 2 ^ 53) (he : e ≤ 971) :
    (m : ℚ) * 2 ^ e < 2 ^ (1024 : ℤ) := by
  have hbits : (m : ℚ) < 2 ^ 53 := by exact_mod_cast hm
  calc (m : ℚ) * 2 ^ e < 2 ^ 53 * 2 ^ e := by gcongr
    _ = 2 ^ (53 + e) := by
      rw [zpow_add₀ (by norm_num)]
      norm_num
    _ ≤ 2 ^ (1024 : ℤ) := zpow_le_zpow_right₀ (by norm_num) (by omega)

theorem Denotes.lt_two_pow_1024 (h : Denotes x q) : q < 2 ^ (1024 : ℤ) := by
  rcases h.nonneg.eq_or_lt with rfl | hpos
  · positivity
  · obtain ⟨m, e, rfl, hm, -, he, -⟩ := h.exists_eq_mul hpos
    exact mul_lt_two_pow_1024 hm he

-- What is finite and above a number from zero on stands for a number, too.
theorem Denotes.exists_of_lt (hx : Denotes x p) (hlt : x < y) (hfinite : y.isFinite = true) :
    ∃ q, p < q ∧ Denotes y q := by
  have hunpacked : x.toModel.unpack.lt y.toModel.unpack = true := of_decide_eq_true hlt
  have hy : Shaped y.toModel.unpack := by
    change y.toModel.unpack.isFinite = true at hfinite
    cases hy : y.toModel.unpack with
    | notANumber | infinity s =>
      rw [hy] at hfinite
      cases hfinite
    | zero s =>
      rw [hy, hx.1.not_lt_zero] at hunpacked
      cases hunpacked
    | finite s m e hm =>
      cases s with
      | negative =>
        rw [hy, hx.1.not_lt_negative] at hunpacked
        cases hunpacked
      | positive =>
        obtain ⟨hbits, hlow, -, hfull⟩ := bounds_of_unpack_eq_finite hy
        exact ⟨hbits, hlow, hfull⟩
  exact ⟨_, (hx.lt_iff ⟨hy, rfl⟩).mp hlt, hy, rfl⟩

end Denotes

section Compares

-- The double compares as the number does to all doubles that stand for numbers.
-- That holds of the negative zero, too, which does not stand for a number itself.
structure Compares (x : Float) (q : ℚ) : Prop where
  nonneg : 0 ≤ q
  le_iff : ∀ {y : Float} {p : ℚ}, Denotes y p → (y ≤ x ↔ p ≤ q)
  lt_iff : ∀ {y : Float} {p : ℚ}, Denotes y p → (x < y ↔ q < p)

variable {x : Float} {q : ℚ}

theorem Denotes.compares (h : Denotes x q) : Compares x q :=
  ⟨h.nonneg, fun hy => hy.le_iff h, fun hy => h.lt_iff hy⟩

theorem compares_of_zero {s : Sign} (h : x.toModel.unpack = .zero s) : Compares x 0 := by
  refine ⟨le_rfl, fun {y p} hy => ?_, fun {y p} hy => ?_⟩
  · have hsame : y ≤ x ↔ y ≤ 0 := by
      change decide (y.toModel.unpack.le x.toModel.unpack = true) = true ↔ _
      rw [h, hy.1.le_zero]
      exact Iff.rfl
    rw [hsame, hy.le_iff denotes_zero]
  · have hsame : x < y ↔ 0 < y := by
      change decide (x.toModel.unpack.lt y.toModel.unpack = true) = true ↔ _
      rw [h, hy.1.zero_lt]
      exact Iff.rfl
    rw [hsame, denotes_zero.lt_iff hy]

-- A finite double that is not below zero stands for a number or is a zero.
theorem exists_compares (hfinite : x.isFinite = true) (hnonneg : 0 ≤ x) : ∃ q, Compares x q := by
  change x.toModel.unpack.isFinite = true at hfinite
  have hle : (0 : Float).toModel.unpack.le x.toModel.unpack = true := of_decide_eq_true hnonneg
  cases hx : x.toModel.unpack with
  | notANumber | infinity s =>
    rw [hx] at hfinite
    cases hfinite
  | zero s => exact ⟨0, compares_of_zero hx⟩
  | finite s m e hm =>
    cases s with
    | negative =>
      rw [hx] at hle
      cases hle
    | positive =>
      obtain ⟨hbits, hlow, -, hfull⟩ := bounds_of_unpack_eq_finite hx
      have hshaped : Shaped x.toModel.unpack := hx ▸ ⟨hbits, hlow, hfull⟩
      exact ⟨_, Denotes.compares ⟨hshaped, rfl⟩⟩

end Compares

end Coinage.Double
