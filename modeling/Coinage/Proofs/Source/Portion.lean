import Coinage.Proofs.Double.Difference
import Coinage.Source

namespace Coinage.Source

open Double Float.Model Float.Model.UnpackedFloat

theorem denotes_unit : Denotes unit (1 / 2 ^ 52) := by
  have hunit : unit = Float.ofModel (Float.Model.pack
      (.finite .positive (2 ^ 52) (-104) (by norm_num))) := by
    decide +kernel
  have hvalue : value (.finite .positive (2 ^ 52) (-104) (by norm_num)) = 1 / 2 ^ 52 := by
    rw [value_finite]
    norm_num
  rw [hunit, ← hvalue]
  apply denotes_pack
  · exact ⟨by norm_num, by norm_num, Or.inl (by norm_num)⟩
  · apply lt_two_pow_1024
    rw [hvalue]
    norm_num

-- The top 52 bits of a word.
def fraction (word : UInt64) : ℕ :=
  (word >>> 12).toNat

theorem fraction_eq (word : UInt64) : fraction word = word.toNat / 2 ^ 12 := by
  rw [fraction, UInt64.toNat_shiftRight, show UInt64.toNat 12 % 64 = 12 from rfl,
    Nat.shiftRight_eq_div_pow]

theorem fraction_lt (word : UInt64) : fraction word < 2 ^ 52 := by
  have h := word.toNat_lt
  rw [fraction_eq]
  omega

theorem exists_fraction_eq {k : ℕ} (h : k < 2 ^ 52) : ∃ word, fraction word = k := by
  refine ⟨UInt64.ofNat (k * 2 ^ 12), ?_⟩
  rw [fraction_eq, UInt64.toNat_ofNat_of_lt' (by rw [UInt64.size]; omega)]
  omega

theorem denotes_fraction (word : UInt64) :
    Denotes ((word >>> 12).toFloat * unit) (fraction word / 2 ^ 52) := by
  have hbits : fraction word < 2 ^ 53 := (fraction_lt word).trans (by norm_num)
  have hword : Denotes (word >>> 12).toFloat (fraction word) := by
    rw [toFloat_eq hbits]
    exact denotes_ofWhole hbits
  have hexact : Representable (fraction word * (1 / 2 ^ 52)) := by
    refine ⟨fraction word, -52, hbits, by norm_num, ?_⟩
    norm_num
  have hlt : (fraction word : ℚ) * (1 / 2 ^ 52) < 2 ^ 53 := by
    have hcast : (fraction word : ℚ) < 2 ^ 53 := by exact_mod_cast hbits
    linarith
  obtain ⟨r, hr, hnear⟩ := hword.mul denotes_unit hexact le_rfl (lt_two_pow_1024 hlt)
  -- nothing is rounded off, since the fraction is a double
  have hlow := le_of_nearest (hnear _ hexact) le_rfl
  have hhigh := ge_of_nearest (hnear _ hexact) le_rfl
  rw [div_eq_mul_one_div, le_antisymm hlow hhigh]
  exact hr

section Total

variable {total : Float} {t : ℚ}

-- What a word picks is its fraction of the total, rounded.
theorem exists_portion (word : UInt64) (h : Denotes total t) :
    ∃ r, Denotes (portion word total) r ∧ ∀ a, Representable a →
      |r - fraction word / 2 ^ 52 * t| ≤ |a - fraction word / 2 ^ 52 * t| := by
  have hfraction : (fraction word : ℚ) < 2 ^ 52 := by exact_mod_cast fraction_lt word
  apply (denotes_fraction word).mul h h.representable ?_ h.lt_two_pow_1024
  apply mul_le_of_le_one_left h.nonneg
  rw [div_le_one (by norm_num)]
  exact hfraction.le

-- In the last places of the subnormal numbers 2 ^ -1023 is 2 ^ 51.
theorem two_zpow_eq_mul : (2 : ℚ) ^ (-1023 : ℤ) = 2 ^ 51 * 2 ^ (-1074 : ℤ) := by
  rw [show (-1023 : ℤ) = 51 + -1074 by norm_num, zpow_add₀ (by norm_num)]
  rfl

-- The mantissa of a double above 2 ^ -1023 exceeds 2 ^ 51, so the next lower double
-- is close to it.
theorem exists_below {place : Float} {q : ℚ} (h : Denotes place q)
    (hlarge : 2 ^ (-1023 : ℤ) < q) :
    ∃ b, Representable b ∧ b < q ∧ 2 ^ 51 * (q - b) < q := by
  have hleast : (0 : ℚ) < 2 ^ (-1023 : ℤ) := by positivity
  obtain ⟨m, e, rfl, hm, he, -, hfull⟩ := h.exists_eq_mul (hleast.trans hlarge)
  have hmantissa : 2 ^ 51 < m := by
    rcases hfull with hfull | rfl
    · omega
    · rw [two_zpow_eq_mul] at hlarge
      exact_mod_cast lt_of_mul_lt_mul_right hlarge (by positivity)
  have hplace : (0 : ℚ) < 2 ^ e := by positivity
  have hmiddle : (2 : ℚ) ^ 51 < m := by exact_mod_cast hmantissa
  have hpred : ((m - 1 : ℕ) : ℚ) * 2 ^ e = m * 2 ^ e - 2 ^ e := by
    rw [Nat.cast_sub (by omega), Nat.cast_one, sub_one_mul]
  refine ⟨(m - 1 : ℕ) * 2 ^ e, ⟨m - 1, e, by omega, he, rfl⟩, ?_, ?_⟩
  · rw [hpred]
    exact sub_lt_self _ hplace
  · rw [hpred, sub_sub_cancel]
    gcongr

section Place

variable {place : Float} {q r : ℚ}

theorem portion_nearest (word : UInt64) (h : Denotes total t)
    (hr : Denotes (portion word total) r) {a : ℚ} (ha : Representable a) :
    |r - fraction word / 2 ^ 52 * t| ≤ |a - fraction word / 2 ^ 52 * t| := by
  obtain ⟨s, hs, hnear⟩ := exists_portion word h
  obtain rfl : r = s := hr.2.symm.trans hs.2
  exact hnear a ha

-- A place that a fraction of the total reaches is reached when it is rounded.
theorem le_portion (word : UInt64) (h : Denotes total t) (hr : Denotes (portion word total) r)
    (hplace : Representable q) (hreached : q ≤ fraction word / 2 ^ 52 * t) : q ≤ r :=
  le_of_nearest (portion_nearest word h hr hplace) hreached

-- Successive fractions of a total are further apart than half of the way from a place
-- down to the next lower double. So a fraction is rounded to below every place that the
-- fraction after it does not exceed.
theorem portion_lt_place (word : UInt64) (h : Denotes total t)
    (hr : Denotes (portion word total) r) (hplace : Denotes place q)
    (hlarge : 2 ^ (-1023 : ℤ) < q) (hle : q ≤ t)
    (hnext : (fraction word + 1) / 2 ^ 52 * t ≤ q) : r < q := by
  obtain ⟨b, hb, hbelow, hclose⟩ := exists_below hplace hlarge
  apply lt_of_nearest (portion_nearest word h hr hb) hbelow
  rw [add_div, add_mul, one_div_mul_eq_div] at hnext
  linarith

end Place

-- The fraction after the last one would be the total.
theorem portion_lt (word : UInt64) (h : Denotes total t) (hlarge : 2 ^ (-1023 : ℤ) < t) :
    ∃ r, Denotes (portion word total) r ∧ r < t := by
  obtain ⟨r, hr, -⟩ := exists_portion word h
  refine ⟨r, hr, portion_lt_place word h hr h hlarge le_rfl ?_⟩
  apply mul_le_of_le_one_left h.nonneg
  rw [div_le_one (by norm_num)]
  exact_mod_cast fraction_lt word

-- 2 ^ -1023, the greatest total whose mantissa does not exceed 2 ^ 51.
def coarseTotal : Float :=
  Float.ofBits 0x0008000000000000

theorem unpack_coarseTotal :
    coarseTotal.toModel.unpack = .finite .positive (2 ^ 51) (-1074) (by norm_num) := by
  have hpack : coarseTotal = Float.ofModel (Float.Model.pack
      (.finite .positive (2 ^ 51) (-1074) (by norm_num))) := by
    decide +kernel
  rw [hpack]
  exact unpack_pack_subnormal (by norm_num) (by norm_num)

theorem denotes_coarseTotal : Denotes coarseTotal (2 ^ (-1023 : ℤ)) := by
  rw [Denotes, unpack_coarseTotal, value_finite, two_zpow_eq_mul]
  exact ⟨⟨by norm_num, by norm_num, Or.inr rfl⟩, by norm_num⟩

-- The word whose fraction is the greatest.
theorem fraction_last : fraction (-1) = 2 ^ 52 - 1 := by
  decide

-- Halfway between two doubles it is the even one that is picked.
theorem portion_coarseTotal : portion (-1) coarseTotal = coarseTotal := by
  decide +kernel

-- On a coarser scale rounding makes up for what the greatest fraction is below 1.
theorem denotes_portion_last (h : Denotes total t) (hsmall : t ≤ 2 ^ (-1023 : ℤ)) :
    Denotes (portion (-1) total) t := by
  rcases hsmall.eq_or_lt with rfl | hlt
  · obtain rfl := h.eq denotes_coarseTotal
    rw [portion_coarseTotal]
    exact denotes_coarseTotal
  obtain ⟨r, hr, hnear⟩ := exists_portion (-1) h
  have hnearest := hnear t h.representable
  obtain ⟨k, rfl⟩ := h.representable.exists_eq_mul
  obtain ⟨l, rfl⟩ := hr.representable.exists_eq_mul
  have hplace : (0 : ℚ) < 2 ^ (-1074 : ℤ) := by positivity
  have hmantissa : (k : ℚ) / 2 ^ 51 < 1 := by
    rw [two_zpow_eq_mul] at hlt
    rw [div_lt_one (by norm_num)]
    exact lt_of_mul_lt_mul_right hlt hplace.le
  have hfraction : (fraction (-1) : ℚ) / 2 ^ 52 = 1 - 1 / 2 ^ 52 := by
    rw [fraction_last]
    norm_num
  have hexact : (fraction (-1) : ℚ) / 2 ^ 52 * (k * 2 ^ (-1074 : ℤ)) =
      (k - k / 2 ^ 51 / 2) * 2 ^ (-1074 : ℤ) := by
    rw [hfraction, ← mul_assoc]
    congr 1
    ring
  rw [hexact] at hnearest
  obtain rfl : l = k := by
    apply eq_of_nearest_multiple hplace hnearest
    · exact sub_le_self _ (by positivity)
    · linarith
  exact hr

end Total

section Whole

variable {total : ℕ}

-- 2 ^ -1023 is below every whole number from one on.
theorem large_natCast {n : ℕ} (h : 1 ≤ n) : (2 : ℚ) ^ (-1023 : ℤ) < n :=
  (zpow_lt_one_of_neg₀ (by norm_num) (by norm_num)).trans_le (by exact_mod_cast h)

-- The fractions of a total are not further apart than 1/2, so two that follow each
-- other fall between a whole number below the total and the next one.
theorem exists_portion_between {low : ℕ} (hlow : low < total) (h : total ≤ 2 ^ 51) :
    ∃ word r, Denotes (portion word (Float.ofNat total)) r ∧ (low : ℚ) ≤ r ∧ r < low + 1 := by
  have hpos : 0 < total := Nat.zero_lt_of_lt hlow
  generalize hk : (low * 2 ^ 52 + (total - 1)) / total = k
  have hceil := Nat.div_add_mod (low * 2 ^ 52 + (total - 1)) total
  have hmod := Nat.mod_lt (low * 2 ^ 52 + (total - 1)) hpos
  rw [hk] at hceil
  have hkmin : low * 2 ^ 52 ≤ total * k := by omega
  have hkmax : total * (k + 1) ≤ (low + 1) * 2 ^ 52 := by
    rw [Nat.mul_add_one]
    omega
  have hkbits : k < 2 ^ 52 := by
    by_contra hge
    have hmul := Nat.mul_le_mul_left total (not_lt.mp hge)
    omega
  obtain ⟨word, rfl⟩ := exists_fraction_eq hkbits
  have htotal := denotes_ofNat (n := total) (by omega)
  have hnext : Denotes (Float.ofNat (low + 1)) (low + 1 : ℕ) := denotes_ofNat (by omega)
  obtain ⟨r, hr, -⟩ := exists_portion word htotal
  refine ⟨word, r, hr, ?_, ?_⟩
  · apply le_portion word htotal hr (representable_natCast (by omega))
    rw [div_mul_eq_mul_div, le_div_iff₀ (by norm_num), mul_comm (fraction word : ℚ)]
    exact_mod_cast hkmin
  · rw [← Nat.cast_add_one]
    apply portion_lt_place word htotal hr hnext (large_natCast (Nat.le_add_left 1 low))
    · exact_mod_cast hlow
    · rw [div_mul_eq_mul_div, div_le_iff₀ (by norm_num), mul_comm ((fraction word : ℚ) + 1)]
      exact_mod_cast hkmax

end Whole

end Coinage.Source
