import Coinage.Proofs.Double.Whole

namespace Coinage.Double

open Float.Model Float.Model.UnpackedFloat

theorem normalize_whole {n : Nat} (hlt : n < 2 ^ 53) (k : Nat) (e : Int) (he : e = -k) :
    UnpackedFloat.normalize Format.binary64 ((n * 2 ^ k : Nat) : Int) e .positive = whole n := by
  by_cases hn : n = 0
  · subst hn
    simp [UnpackedFloat.normalize, whole_zero, compare, compareOfLessAndEq]
  · have hpos : (0 : Int) < ((n * 2 ^ k : Nat) : Int) := by
      exact_mod_cast Nat.mul_pos (Nat.pos_of_ne_zero hn) (Nat.two_pow_pos k)
    have hgt : compare ((n * 2 ^ k : Nat) : Int) 0 = .gt := Int.compare_eq_gt.mpr hpos
    simp only [UnpackedFloat.normalize, hgt, Int.toNat_natCast]
    exact round_whole hn hlt k e he

-- Brought down to the exponent `-k`, a whole number is shifted by `k` places.
theorem significand_shiftLeft {n : Nat} (hn : n ≠ 0) (hlt : n < 2 ^ 53) (k : Nat) (e : Int)
    (he : e = -k) (hle : e ≤ n.log2 - 52) :
    significand n <<< ((n.log2 : Int) - 52 - e).toNat = n * 2 ^ k := by
  have hlog := (Nat.log2_lt hn).mpr hlt
  rw [Nat.shiftLeft_eq, significand, Nat.mul_assoc, ← Nat.pow_add]
  congr 2
  omega

-- The smaller of two exponents and the two numbers brought down to it.
theorem exists_aligned {a b : Nat} (ha : a ≠ 0) (hb : b ≠ 0) (hla : a < 2 ^ 53) (hlb : b < 2 ^ 53) :
    ∃ k : Nat, min ((a.log2 : Int) - 52) (b.log2 - 52) = -k ∧
      significand a <<< ((a.log2 : Int) - 52 - min ((a.log2 : Int) - 52) (b.log2 - 52)).toNat =
        a * 2 ^ k ∧
      significand b <<< ((b.log2 : Int) - 52 - min ((a.log2 : Int) - 52) (b.log2 - 52)).toNat =
        b * 2 ^ k := by
  have hloga := (Nat.log2_lt ha).mpr hla
  have hlogb := (Nat.log2_lt hb).mpr hlb
  refine ⟨52 - min a.log2 b.log2, by omega, ?_, ?_⟩
  · exact significand_shiftLeft ha hla _ _ (by omega) (by omega)
  · exact significand_shiftLeft hb hlb _ _ (by omega) (by omega)

theorem add_finite {a b : Nat} (ha : a ≠ 0) (hb : b ≠ 0) (hla : a < 2 ^ 53) (hlb : b < 2 ^ 53)
    (hab : a + b < 2 ^ 53) :
    UnpackedFloat.add Format.binary64 (whole a) (whole b) = whole (a + b) := by
  obtain ⟨k, hk, hma, hmb⟩ := exists_aligned ha hb hla hlb
  rw [whole_eq ha hla, whole_eq hb hlb]
  simp only [UnpackedFloat.add, decreaseExponent, Sign.apply, hma, hmb]
  rw [← Int.natCast_add, ← Nat.add_mul]
  exact normalize_whole hab k _ hk

theorem sub_finite {a b : Nat} (ha : a ≠ 0) (hb : b ≠ 0) (hla : a < 2 ^ 53) (hlb : b < 2 ^ 53)
    (hab : b ≤ a) :
    UnpackedFloat.sub Format.binary64 (whole a) (whole b) = whole (a - b) := by
  obtain ⟨k, hk, hma, hmb⟩ := exists_aligned ha hb hla hlb
  have hle : b * 2 ^ k ≤ a * 2 ^ k := Nat.mul_le_mul_right _ hab
  rw [whole_eq ha hla, whole_eq hb hlb]
  simp only [UnpackedFloat.sub, decreaseExponent, Sign.apply, hma, hmb]
  rw [← Int.natCast_sub hle, ← Nat.sub_mul]
  exact normalize_whole (Nat.lt_of_le_of_lt (Nat.sub_le a b) hla) k _ hk

theorem add_whole {a b : Nat} (h : a + b < 2 ^ 53) :
    UnpackedFloat.add Format.binary64 (whole a) (whole b) = whole (a + b) := by
  have ha : a < 2 ^ 53 := by omega
  have hb : b < 2 ^ 53 := by omega
  by_cases hza : a = 0
  · subst hza
    by_cases hzb : b = 0
    · subst hzb
      rfl
    · rw [whole_zero, whole_eq hzb hb, Nat.zero_add, whole_eq hzb hb]
      rfl
  · by_cases hzb : b = 0
    · subst hzb
      rw [whole_zero, Nat.add_zero, whole_eq hza ha]
      rfl
    · exact add_finite hza hzb ha hb h

theorem sub_whole {a b : Nat} (hle : b ≤ a) (h : a < 2 ^ 53) :
    UnpackedFloat.sub Format.binary64 (whole a) (whole b) = whole (a - b) := by
  by_cases hzb : b = 0
  · subst hzb
    by_cases hza : a = 0
    · subst hza
      rfl
    · rw [whole_zero, Nat.sub_zero, whole_eq hza h]
      rfl
  · exact sub_finite (by omega) hzb h (by omega) hle

theorem mul_one_whole {n : Nat} (h : n < 2 ^ 53) :
    UnpackedFloat.mul Format.binary64 (whole n) (whole 1) = whole n := by
  by_cases hn : n = 0
  · subst hn
    rfl
  · have hq := normal_significand hn h
    have hone : significand 1 = 2 ^ 52 := by rfl
    have hlog : Nat.log2 1 = 0 := by rfl
    have hlow := (Nat.log2_lt hn).mpr h
    have hround := roundWithAccuracy_exact hq 52 ((n.log2 : Int) - 52 + (0 - 52)) .positive (by omega)
    rw [whole_eq hn h, whole_eq Nat.one_ne_zero (by norm_num)]
    simp only [UnpackedFloat.mul, hone, hlog]
    refine hround.trans ?_
    congr 1
    omega

theorem compare_whole {a b : Nat} (hlt : a < b) (hb : b < 2 ^ 53) :
    (whole a).compare (whole b) = some .lt := by
  have hzb : b ≠ 0 := by omega
  rw [whole_eq hzb hb]
  by_cases hza : a = 0
  · subst hza
    rfl
  · have ha : a < 2 ^ 53 := by omega
    rw [whole_eq hza ha]
    have hle : a.log2 ≤ b.log2 := (Nat.le_log2 hzb).mpr ((Nat.log2_self_le hza).trans hlt.le)
    simp only [UnpackedFloat.compare]
    rcases hle.lt_or_eq with hlog | hlog
    · have he : compare ((a.log2 : Int) - 52) (b.log2 - 52) = .lt := Int.compare_eq_lt.mpr (by omega)
      rw [he]
      rfl
    · have he : compare ((a.log2 : Int) - 52) (b.log2 - 52) = .eq := Int.compare_eq_eq.mpr (by omega)
      have hm : significand a < significand b := by
        rw [significand, significand, hlog]
        exact Nat.mul_lt_mul_of_pos_right hlt (Nat.two_pow_pos _)
      rw [he, Nat.compare_eq_lt.mpr hm]
      rfl

theorem ofWhole_add {a b : Nat} (h : a + b < 2 ^ 53) : ofWhole a + ofWhole b = ofWhole (a + b) := by
  change Float.ofModel (Float.Model.pack (UnpackedFloat.add Format.binary64
    (Float.Model.pack (whole a)).unpack (Float.Model.pack (whole b)).unpack)) = _
  rw [unpack_pack_whole (by omega), unpack_pack_whole (by omega), add_whole h]
  rfl

theorem ofWhole_sub {a b : Nat} (hle : b ≤ a) (h : a < 2 ^ 53) :
    ofWhole a - ofWhole b = ofWhole (a - b) := by
  change Float.ofModel (Float.Model.pack (UnpackedFloat.sub Format.binary64
    (Float.Model.pack (whole a)).unpack (Float.Model.pack (whole b)).unpack)) = _
  rw [unpack_pack_whole h, unpack_pack_whole (by omega), sub_whole hle h]
  rfl

theorem ofWhole_lt {a b : Nat} (hlt : a < b) (hb : b < 2 ^ 53) : ofWhole a < ofWhole b := by
  have hlt' : (Float.Model.pack (whole a)).unpack.lt (Float.Model.pack (whole b)).unpack = true := by
    rw [unpack_pack_whole (by omega), unpack_pack_whole hb, UnpackedFloat.lt, compare_whole hlt hb]
    rfl
  exact decide_eq_true hlt'

theorem isFinite_ofWhole {n : Nat} (h : n < 2 ^ 53) : (ofWhole n).isFinite = true := by
  change (Float.Model.pack (whole n)).unpack.isFinite = true
  rw [unpack_pack_whole h, whole]
  split <;> rfl

theorem ofBits_one : Float.ofBits 0x3FF0000000000000 = ofWhole 1 := by
  decide +kernel

theorem toFloat_eq {word : UInt64} (h : word.toNat < 2 ^ 53) :
    word.toFloat = ofWhole word.toNat := by
  have hnormal := normalize_whole h 0 0 rfl
  rw [Nat.pow_zero, Nat.mul_one] at hnormal
  change Float.ofModel (Float.Model.pack (UnpackedFloat.normalize Format.binary64
    (word.toNat : Int) 0 .positive)) = _
  rw [hnormal]
  rfl

-- A whole number of 53 bits is a double.
theorem ofNat_eq {n : Nat} (h : n < 2 ^ 53) : Float.ofNat n = ofWhole n := by
  have hsize : n.toUInt64.toNat = n := by
    rw [Nat.toUInt64, UInt64.toNat_ofNat']
    exact Nat.mod_eq_of_lt (by omega)
  have hword : n.toUInt64.toFloat = ofWhole n := by
    rw [toFloat_eq (by omega), hsize]
  have hfast : Float.ofNat n = n.toUInt64.toFloat * Float.ofBits 0x3FF0000000000000 := by
    have hcase : n < 2 ^ 53 ∧ 0 ≤ 22 := ⟨h, Nat.zero_le _⟩
    unfold Float.ofNat
    change Float.ofScientific n false 0 = _
    unfold Float.ofScientific
    rw [dif_pos hcase]
    rfl
  rw [hfast, hword, ofBits_one]
  change Float.ofModel (Float.Model.pack (UnpackedFloat.mul Format.binary64
    (Float.Model.pack (whole n)).unpack (Float.Model.pack (whole 1)).unpack)) = _
  rw [unpack_pack_whole h, unpack_pack_whole (by norm_num), mul_one_whole h]
  rfl

end Coinage.Double
