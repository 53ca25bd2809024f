import Mathlib
import Coinage.Source.SplitMix

namespace Coinage.Source

-- The word that a 32-bit call takes from a script.
def half (word : UInt64) : UInt32 :=
  (word >>> 32).toUInt32

theorem exists_toNat_half_eq {w : ℕ} (h : w < 2 ^ 32) : ∃ word, (half word).toNat = w := by
  refine ⟨UInt64.ofNat (w * 2 ^ 32), ?_⟩
  rw [half, UInt64.toNat_toUInt32, UInt64.toNat_shiftRight,
    show UInt64.toNat 32 % 64 = 32 from rfl, Nat.shiftRight_eq_div_pow,
    UInt64.toNat_ofNat_of_lt' (by rw [UInt64.size]; omega)]
  omega

@[simp] theorem next32_scripted (word : UInt64) (words : List UInt64) (fallback : SplitMix) :
    next32 (⟨word :: words, fallback⟩ : Scripted) = (half word, ⟨words, fallback⟩) :=
  rfl

@[simp] theorem next64_scripted (word : UInt64) (words : List UInt64) (fallback : SplitMix) :
    next64 (⟨word :: words, fallback⟩ : Scripted) = (word, ⟨words, fallback⟩) :=
  rfl

theorem Width.le_size_ofCount {count : ℕ} (h : count ≤ 2 ^ 64) :
    count ≤ (Width.ofCount count).size := by
  unfold Width.ofCount
  split
  case isTrue hlt => exact hlt.le
  case isFalse => exact h

theorem next_lt {σ : Type} [Source σ] (source : σ) (width : Width) :
    (next source width).1 < width.size := by
  cases width with
  | word32 => exact (next32 source).1.toNat_lt
  | word64 => exact (next64 source).1.toNat_lt

-- Any word can be scripted.
theorem exists_next_scripted {width : Width} {w : ℕ} (h : w < width.size) :
    ∃ word, ∀ words fallback, next (⟨word :: words, fallback⟩ : Scripted) width =
      (w, ⟨words, fallback⟩) := by
  cases width with
  | word32 =>
    obtain ⟨word, hword⟩ := exists_toNat_half_eq h
    refine ⟨word, fun words fallback => ?_⟩
    rw [next, next32_scripted, Prod.map_apply, hword, id]
  | word64 =>
    refine ⟨.ofNat w, fun words fallback => ?_⟩
    rw [next, next64_scripted, Prod.map_apply, UInt64.toNat_ofNat_of_lt' h, id]

section Product

variable {size count word position : ℕ}

theorem high_lt (hword : word < size) (hpos : 0 < count) : word * count / size < count :=
  Nat.div_lt_of_lt_mul (Nat.mul_lt_mul_of_pos_right hword hpos)

-- A carry is only added where there is room for it: the high half of a product
-- is one less than the count only if its low half needs no correction.
theorem high_succ_lt (hword : word < size) (hlow : size - count < word * count % size) :
    word * count / size + 1 < count := by
  have hsplit := Nat.div_add_mod (word * count) size
  have hmod := Nat.mod_lt (word * count) (Nat.zero_lt_of_lt hword)
  have hproduct := Nat.mul_le_mul_right count (Nat.succ_le_of_lt hword)
  rw [Nat.succ_mul] at hproduct
  by_contra hge
  have hmul := Nat.mul_le_mul_left size (not_lt.mp hge)
  rw [Nat.mul_add, Nat.mul_one] at hmul
  omega

-- The least word that leads to a position leaves a low half below the count.
theorem exists_least_word (hposition : position < count) (h : count ≤ size) :
    ∃ word low, word < size ∧ low < count ∧ word * count = size * position + low := by
  have hmod := Nat.mod_lt (size * position + (count - 1)) (Nat.zero_lt_of_lt hposition)
  have hsplit := Nat.div_add_mod (size * position + (count - 1)) count
  generalize (size * position + (count - 1)) / count = word at hsplit
  generalize (size * position + (count - 1)) % count = rest at hmod hsplit
  refine ⟨word, count - 1 - rest, ?_, by omega, ?_⟩
  · by_contra hge
    have hmul := Nat.mul_le_mul_left count (not_lt.mp hge)
    have hroom := Nat.mul_le_mul_left size (Nat.succ_le_of_lt hposition)
    rw [Nat.mul_comm count size] at hmul
    rw [Nat.mul_succ] at hroom
    omega
  · rw [Nat.mul_comm]
    omega

end Product

theorem index_lt {σ : Type} [Source σ] {count : ℕ} (hpos : 0 < count) (source : σ) :
    (index count source).1 < count := by
  simp only [index]
  generalize Width.ofCount count = width
  have hword := next_lt source width
  split
  case isTrue hlow =>
    dsimp only
    split
    · exact high_succ_lt hword hlow
    · exact high_lt hword hpos
  case isFalse => exact high_lt hword hpos

-- Counting the calls changes nothing else.
theorem next_counted {σ : Type} [Source σ] (counted : Counted σ) (width : Width) :
    next counted.source width = ((next counted width).1, (next counted width).2.source) := by
  cases width <;> rfl

theorem index_counted {σ : Type} [Source σ] (count : ℕ) (counted : Counted σ) :
    index count counted.source = ((index count counted).1, (index count counted).2.source) := by
  simp only [index, next_counted]
  split
  · rfl
  · rfl

-- Every position is drawn, whatever comes after the words that lead to it.
theorem exists_words_index {count position : ℕ} (hposition : position < count)
    (hcount : count ≤ 2 ^ 64) :
    ∃ words, ∀ rest fallback, index count (⟨words ++ rest, fallback⟩ : Scripted) =
      (position, ⟨rest, fallback⟩) := by
  have h := Width.le_size_ofCount hcount
  simp only [index]
  generalize Width.ofCount count = width at h ⊢
  obtain ⟨w, low, hw, hlow, hproduct⟩ := exists_least_word hposition h
  have hsize : 0 < width.size := Nat.zero_lt_of_lt hw
  have hhigh : w * count / width.size = position := by
    rw [hproduct, Nat.mul_add_div hsize, Nat.div_eq_of_lt (hlow.trans_le h), Nat.add_zero]
  have hrest : w * count % width.size = low := by
    rw [hproduct, Nat.mul_add_mod, Nat.mod_eq_of_lt (hlow.trans_le h)]
  obtain ⟨word, hword⟩ := exists_next_scripted hw
  obtain ⟨zero, hzero⟩ := exists_next_scripted hsize
  by_cases hcorrected : width.size - count < low
  · refine ⟨[word, zero], fun rest fallback => ?_⟩
    have hfits : ¬width.size ≤ low + 0 * count / width.size := by
      rw [Nat.zero_mul, Nat.zero_div, Nat.add_zero, not_le]
      exact hlow.trans_le h
    simp only [List.cons_append, List.nil_append, hword, hzero, hhigh, hrest, if_pos hcorrected,
      if_neg hfits]
  · refine ⟨[word], fun rest fallback => ?_⟩
    simp only [List.cons_append, List.nil_append, hword, hhigh, hrest, if_neg hcorrected]

end Coinage.Source
