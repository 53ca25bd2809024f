import Coinage.Proofs.Source.Portion

namespace Coinage.Source

open Double Finset

theorem card_toNat_lt {n : ℕ} (h : n ≤ 2 ^ 64) : #{word : UInt64 | word.toNat < n} = n := by
  have hbijection : #{word : UInt64 | word.toNat < n} = #(range n) := by
    apply card_nbij' UInt64.toNat UInt64.ofNat
    · intro word hword
      exact mem_range.mpr (mem_filter.mp hword).2
    · intro k hk
      have hlt := mem_range.mp hk
      refine mem_filter.mpr ⟨mem_univ _, ?_⟩
      rwa [UInt64.toNat_ofNat_of_lt' (hlt.trans_le h)]
    · intro word _
      exact UInt64.ofNat_toNat
    · intro k hk
      exact UInt64.toNat_ofNat_of_lt' ((mem_range.mp hk).trans_le h)
  rw [hbijection, card_range]

-- Each fraction is that of 2 ^ 12 words.
theorem card_fraction_lt {n : ℕ} (h : n ≤ 2 ^ 52) :
    #{word : UInt64 | fraction word < n} = 2 ^ 12 * n := by
  have hwords : ∀ word : UInt64, fraction word < n ↔ word.toNat < 2 ^ 12 * n := by
    intro word
    rw [fraction_eq, Nat.div_lt_iff_lt_mul (by norm_num), Nat.mul_comm]
  rw [filter_congr fun word _ => hwords word, card_toNat_lt]
  omega

-- The words that pick a number below a place.
def below (total place : Float) : Finset UInt64 :=
  {word | portion word total < place}

section Below

variable {total place : Float} {t q : ℚ} {word : UInt64}

theorem mem_below : word ∈ below total place ↔ portion word total < place := by
  rw [below, mem_filter]
  exact and_iff_right (mem_univ word)

-- A word picks a number below a place only if its fraction of the total is below it.
theorem fraction_lt_of_mem_below (h : Denotes total t) (hpos : 0 < t) (hplace : Denotes place q)
    (hword : word ∈ below total place) : (fraction word : ℚ) < 2 ^ 52 * (q / t) := by
  obtain ⟨r, hr, -⟩ := exists_portion word h
  rw [mem_below, hr.lt_iff hplace] at hword
  by_contra hge
  apply hword.not_ge
  apply le_portion word h hr hplace.representable
  rw [← div_le_iff₀ hpos, le_div_iff₀' (by norm_num)]
  exact not_lt.mp hge

-- It does so if the next fraction is not above the place.
theorem mem_below_of_fraction_lt (h : Denotes total t) (hpos : 0 < t) (hplace : Denotes place q)
    (hlarge : 2 ^ (-1023 : ℤ) < q) (hle : q ≤ t)
    (hword : (fraction word : ℚ) + 1 ≤ 2 ^ 52 * (q / t)) : word ∈ below total place := by
  obtain ⟨r, hr, -⟩ := exists_portion word h
  rw [mem_below, hr.lt_iff hplace]
  apply portion_lt_place word h hr hplace hlarge hle
  rwa [← le_div_iff₀ hpos, div_le_iff₀' (by norm_num)]

theorem ceil_le (hpos : 0 < t) (hle : q ≤ t) : ⌈2 ^ 52 * (q / t)⌉₊ ≤ 2 ^ 52 := by
  rw [Nat.ceil_le]
  push_cast
  exact mul_le_of_le_one_right (by norm_num) ((div_le_one hpos).mpr hle)

theorem card_below_le (h : Denotes total t) (hpos : 0 < t) (hplace : Denotes place q)
    (hle : q ≤ t) : #(below total place) ≤ 2 ^ 12 * ⌈2 ^ 52 * (q / t)⌉₊ := by
  rw [← card_fraction_lt (ceil_le hpos hle)]
  apply card_le_card
  intro word hword
  refine mem_filter.mpr ⟨mem_univ word, Nat.lt_ceil.mpr ?_⟩
  exact fraction_lt_of_mem_below h hpos hplace hword

theorem le_card_below (h : Denotes total t) (hpos : 0 < t) (hplace : Denotes place q)
    (hlarge : 2 ^ (-1023 : ℤ) < q) (hle : q ≤ t) :
    2 ^ 12 * ⌊2 ^ 52 * (q / t)⌋₊ ≤ #(below total place) := by
  rw [← card_fraction_lt ((Nat.floor_le_ceil _).trans (ceil_le hpos hle))]
  apply card_le_card
  intro word hword
  apply mem_below_of_fraction_lt h hpos hplace hlarge hle
  have hnext := Nat.succ_le_of_lt (mem_filter.mp hword).2
  rw [Nat.le_floor_iff' (Nat.succ_ne_zero _)] at hnext
  exact_mod_cast hnext

-- Rounding moves at most one fraction across a place, and none across zero.
theorem abs_card_below_sub_lt (h : Denotes total t) (hpos : 0 < t) (hplace : Denotes place q)
    (hlarge : q = 0 ∨ 2 ^ (-1023 : ℤ) < q) (hle : q ≤ t) :
    |(#(below total place) : ℚ) - 2 ^ 64 * (q / t)| < 2 ^ 12 := by
  have hhigh : (#(below total place) : ℚ) ≤ (2 ^ 12 * ⌈2 ^ 52 * (q / t)⌉₊ : ℕ) := by
    exact_mod_cast card_below_le h hpos hplace hle
  have hlow : ((2 ^ 12 * ⌊2 ^ 52 * (q / t)⌋₊ : ℕ) : ℚ) ≤ #(below total place) := by
    rcases hlarge with rfl | hlarge
    · rw [zero_div, mul_zero, Nat.floor_zero, mul_zero, Nat.cast_zero]
      exact Nat.cast_nonneg _
    · exact_mod_cast le_card_below h hpos hplace hlarge hle
  have hshare : 0 ≤ 2 ^ 52 * (q / t) :=
    mul_nonneg (by norm_num) (div_nonneg hplace.nonneg hpos.le)
  have hfloor := Nat.lt_floor_add_one (2 ^ 52 * (q / t))
  have hceil := Nat.ceil_lt_add_one hshare
  push_cast at hlow hhigh
  rw [abs_sub_lt_iff]
  constructor <;> linarith

end Below

end Coinage.Source
