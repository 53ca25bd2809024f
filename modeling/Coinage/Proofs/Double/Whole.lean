import Coinage.Proofs.Double.Rounding

namespace Coinage.Double

open Float.Model Float.Model.UnpackedFloat

theorem toNat_implicit_append (m : BitVec 52) : (1#1 ++ m).toNat = 2 ^ 52 + m.toNat := by
  rw [BitVec.toNat_append, ← Nat.shiftLeft_add_eq_or_of_lt m.isLt]
  simp [Nat.shiftLeft_eq]

-- The exponents between those of the subnormal numbers and of the infinities.
theorem exponent_bits (biased : Nat) (hpos : 0 < biased) (hlt : biased < 2047) :
    (BitVec.ofNat 11 biased).toNat = biased ∧ BitVec.ofNat 11 biased ≠ 0#11 ∧
      BitVec.ofNat 11 biased ≠ -1#11 := by
  have hbits : (BitVec.ofNat 11 biased).toNat = biased := by
    rw [BitVec.toNat_ofNat, Nat.mod_eq_of_lt (by omega)]
  refine ⟨hbits, ?_, ?_⟩
  · intro h
    have hzero := congrArg BitVec.toNat h
    rw [hbits] at hzero
    simp only [BitVec.toNat_ofNat] at hzero
    omega
  · intro h
    have hones := congrArg BitVec.toNat h
    rw [hbits] at hones
    simp only [BitVec.neg_one_eq_allOnes, BitVec.toNat_allOnes] at hones
    omega

-- A normal number whose exponent is in range survives packing.
theorem unpack_pack_normal {m : Nat} (hm : Normal m) (e : Int) (s : Sign) (hlow : -1074 ≤ e)
    (hhigh : e ≤ 971) :
    (Float.Model.pack (.finite s m e hm.pos)).unpack = .finite s m e hm.pos := by
  obtain ⟨biased, rfl⟩ : ∃ biased : Nat, e = (biased : Int) - 1075 :=
    ⟨(e + 1075).toNat, by omega⟩
  have hbiased : ((biased : Int) - 1075 + Format.binary64.exponentBias +
      Format.binary64.mantissaBitsWithoutImplicit).toNat = biased := by
    simp only [Format.exponentBias]
    norm_num
    omega
  obtain ⟨hexponent, hnonzero, hfinite⟩ := exponent_bits biased (by omega) (by omega)
  have hmantissa : (1#1 ++ BitVec.ofNat 52 m).toNat = m := by
    rw [toNat_implicit_append, BitVec.toNat_ofNat]
    obtain ⟨h1, h2⟩ := hm
    omega
  have hpack : UnpackedFloat.pack Format.binary64 (.finite s m ((biased : Int) - 1075) hm.pos) =
      packComponents Format.binary64 s (BitVec.ofNat 11 biased) (BitVec.ofNat 52 m) := by
    simp only [UnpackedFloat.pack, hbiased, hm.log2_eq]
    rw [if_neg (by norm_num; omega), if_pos (show 52 + 1 = Format.binary64.mantissaBits from rfl)]
  simp only [Float.Model.unpack, Float.Model.pack, hpack, UInt64.toBitVec_ofBitVec]
  simp only [UnpackedFloat.unpack, unpackMantissa_packComponents, unpackExponent_packComponents,
    unpackSign_packComponents, Sign.ofBitVec_toBitVec, hfinite, hnonzero, hexponent, hmantissa,
    if_false]
  congr 1

-- The whole number `n` as it is unpacked.
def whole (n : Nat) : UnpackedFloat :=
  if h : n ≠ 0 ∧ n < 2 ^ 53 then
    .finite .positive (significand n) (n.log2 - 52) (normal_significand h.1 h.2).pos
  else
    .zero .positive

theorem whole_zero : whole 0 = .zero .positive := rfl

theorem whole_eq {n : Nat} (hn : n ≠ 0) (hlt : n < 2 ^ 53) :
    whole n = .finite .positive (significand n) (n.log2 - 52) (normal_significand hn hlt).pos :=
  dif_pos ⟨hn, hlt⟩

theorem round_whole {n : Nat} (hn : n ≠ 0) (hlt : n < 2 ^ 53) (k : Nat) (e : Int) (he : e = -k) :
    UnpackedFloat.round Format.binary64 .positive (n * 2 ^ k) e = whole n := by
  subst he
  rw [round_exact hn hlt k _ .positive (by omega), whole_eq hn hlt]
  congr 1
  omega

theorem unpack_pack_whole {n : Nat} (hlt : n < 2 ^ 53) :
    (Float.Model.pack (whole n)).unpack = whole n := by
  by_cases hn : n = 0
  · subst hn
    rfl
  · have hlog := (Nat.log2_lt hn).mpr hlt
    rw [whole_eq hn hlt]
    exact unpack_pack_normal (normal_significand hn hlt) _ .positive (by omega) (by omega)

-- The double that stands for a whole number.
def ofWhole (n : Nat) : Float :=
  .ofModel (Float.Model.pack (whole n))

end Coinage.Double
