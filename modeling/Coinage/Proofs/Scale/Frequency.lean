import Coinage.Proofs.Scale.Whole
import Coinage.Proofs.Source.Frequency

namespace Coinage.Scale

open Double Finset

-- How many of all words pick a position.
def frequency (scale : Scale) (position : ℕ) : ℕ :=
  #{word : UInt64 | scale.pick word = some position}

-- No word is counted twice, and none is left out if each picks some position.
theorem sum_frequency {scale : Scale} (h : ∀ word, (scale.pick word).isSome) :
    ∑ position ∈ range scale.size, scale.frequency position = 2 ^ 64 := by
  have hmaps : Set.MapsTo scale.pick (univ : Finset UInt64)
      ((range scale.size).map .some : Finset (Option ℕ)) := by
    intro word _
    obtain ⟨position, hpick⟩ := Option.isSome_iff_exists.mp (h word)
    rw [hpick, mem_coe, mem_map]
    exact ⟨position, mem_range.mpr (lt_size_of_locate hpick), rfl⟩
  have hcount := card_eq_sum_card_fiberwise hmaps
  rw [card_univ, ← FinEnum.card_eq_fintypeCard, FinEnum.card_UInt64, sum_map] at hcount
  exact hcount.symm

namespace Sound

variable {scale : Scale} {position : ℕ} {low high : Float}

-- A position is picked by the words that stay below its end, but not below its start.
theorem frequency_add (h : scale.Sound) (hlow : (0 :: scale.marks.toList)[position]? = some low)
    (hhigh : scale.marks.toList[position]? = some high) :
    scale.frequency position + #(Source.below scale.total low) =
      #(Source.below scale.total high) := by
  obtain ⟨t, ht⟩ := h.exists_denotes_total
  obtain ⟨p, hp⟩ := h.exists_denotes (List.mem_of_getElem? hlow)
  obtain ⟨q, hq⟩ := h.denotes high (List.mem_of_getElem? hhigh)
  have hpq := (hp.lt_iff hq).mp (h.low_lt_high hlow hhigh)
  have hpicked : ({word | scale.pick word = some position} : Finset UInt64) =
      Source.below scale.total high \ Source.below scale.total low := by
    ext word
    obtain ⟨r, hr, -⟩ := Source.exists_portion word ht
    rw [mem_filter, mem_sdiff, Source.mem_below, Source.mem_below, pick,
      h.locate_eq_some_iff hr.compares, hr.lt_iff hp, not_lt, ← hp.le_iff hr]
    constructor
    · rintro ⟨-, start, stop, hstart, hstop, hle, hlt⟩
      obtain rfl := Option.some.inj (hlow.symm.trans hstart)
      obtain rfl := Option.some.inj (hhigh.symm.trans hstop)
      exact ⟨hlt, hle⟩
    · rintro ⟨hlt, hle⟩
      exact ⟨mem_univ word, low, high, hlow, hhigh, hle, hlt⟩
  have hsubset : Source.below scale.total low ⊆ Source.below scale.total high := by
    intro word hword
    obtain ⟨r, hr, -⟩ := Source.exists_portion word ht
    rw [Source.mem_below, hr.lt_iff hp] at hword
    rw [Source.mem_below, hr.lt_iff hq]
    exact hword.trans hpq
  rw [frequency, hpicked]
  exact card_sdiff_add_card_eq_card hsubset

-- As many words pick a position as its weight's share of the total says, unless
-- rounding moves a fraction across its start or its end.
theorem abs_frequency_sub_lt (h : scale.Sound)
    (hlow : (0 :: scale.marks.toList)[position]? = some low)
    (hhigh : scale.marks.toList[position]? = some high) {p q t : ℚ} (hp : Denotes low p)
    (hq : Denotes high q) (ht : Denotes scale.total t)
    (hp0 : p = 0 ∨ 2 ^ (-1023 : ℤ) < p) (hlarge : 2 ^ (-1023 : ℤ) < q) :
    |(scale.frequency position : ℚ) - 2 ^ 64 * ((q - p) / t)| < 2 ^ 13 := by
  have hpq := (hp.lt_iff hq).mp (h.low_lt_high hlow hhigh)
  have hqt := h.le_total ht (List.mem_cons_of_mem _ (List.mem_of_getElem? hhigh)) hq
  have hpos : 0 < t := hp.nonneg.trans_lt (hpq.trans_le hqt)
  have hcount : (scale.frequency position : ℚ) =
      #(Source.below scale.total high) - #(Source.below scale.total low) := by
    rw [← h.frequency_add hlow hhigh, Nat.cast_add, add_sub_cancel_right]
  have hstart := Source.abs_card_below_sub_lt ht hpos hp hp0 (hpq.le.trans hqt)
  have hend := Source.abs_card_below_sub_lt ht hpos hq (Or.inr hlarge) hqt
  rw [abs_sub_lt_iff] at hstart hend ⊢
  rw [hcount, sub_div, mul_sub]
  constructor <;> linarith

end Sound

section OfCounts

variable {counts : List ℕ} {position : ℕ}

-- The places of whole weights are either zero or far above 2 ^ -1023.
theorem large_sum_take (counts : List ℕ) (position : ℕ) :
    ((counts.take position).sum : ℚ) = 0 ∨ 2 ^ (-1023 : ℤ) < ((counts.take position).sum : ℚ) := by
  rcases Nat.eq_zero_or_pos (counts.take position).sum with hzero | hpos
  · exact Or.inl (by rw [hzero, Nat.cast_zero])
  · exact Or.inr (Source.large_natCast hpos)

theorem abs_frequency_ofCounts_sub_lt (h : Countable 0 counts)
    (hposition : position < counts.length) :
    |((ofCounts counts).frequency position : ℚ) - 2 ^ 64 * (counts[position] / counts.sum)| <
      2 ^ 13 := by
  have hstep : (counts.take (position + 1)).sum = (counts.take position).sum + counts[position] :=
    List.sum_take_succ counts position hposition
  have hpos : 1 ≤ (counts.take (position + 1)).sum := by
    have hcount := h.1 counts[position] (List.getElem_mem hposition)
    omega
  have hbound := (sound_ofCounts h).abs_frequency_sub_lt (getElem?_ofCounts hposition.le)
    (getElem?_ofCounts hposition) (denotes_sum_take h position) (denotes_sum_take h (position + 1))
    (denotes_total_ofCounts h) (large_sum_take counts position) (Source.large_natCast hpos)
  rwa [hstep, Nat.cast_add, add_sub_cancel_left] at hbound

theorem sum_frequency_ofCounts (h : Countable 0 counts) (hne : counts ≠ []) :
    ∑ position ∈ range counts.length, (ofCounts counts).frequency position = 2 ^ 64 := by
  rw [← size_ofCounts]
  exact sum_frequency (isSome_pick_ofCounts h hne)

end OfCounts

end Coinage.Scale
