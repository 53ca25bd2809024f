import Coinage.Proofs.Scale.Locate

namespace Coinage.Scale

open Double

-- A weight covers the numbers from where the one before it ends, or from zero, up
-- to where it ends itself. The end does not belong to it.
def Covers (scale : Scale) (position : ℕ) (value : Float) : Prop :=
  ∃ low high, (0 :: scale.marks.toList)[position]? = some low ∧
    scale.marks.toList[position]? = some high ∧ low ≤ value ∧ value < high

namespace Sound

variable {scale : Scale} {value : Float} {r : ℚ} {position : ℕ}

theorem le_of_not_lt (h : scale.Sound) (hr : Compares value r) {mark : Float}
    (hmark : mark ∈ scale.marks.toList) (hnot : ¬value < mark) : mark ≤ value := by
  obtain ⟨q, hq⟩ := h.denotes mark hmark
  exact (hr.le_iff hq).mpr (not_lt.mp (mt (hr.lt_iff hq).mpr hnot))

-- The marks before a position are not above where the position begins.
theorem mark_le_low (h : scale.Sound) (hr : Compares value r) {low : Float}
    (hlow : (0 :: scale.marks.toList)[position]? = some low) (hle : low ≤ value) {i : ℕ}
    (hi : i < position) (hsize : i < scale.marks.size) : ¬value < scale.marks[i] := by
  cases position with
  | zero => exact absurd hi (Nat.not_lt_zero i)
  | succ position =>
    rw [List.getElem?_cons_succ] at hlow
    obtain ⟨hposition, rfl⟩ := List.getElem?_eq_some_iff.mp hlow
    obtain ⟨p, hp⟩ := h.denotes scale.marks[i] (Array.getElem_mem_toList hsize)
    obtain ⟨q, hq⟩ := h.denotes scale.marks[position] (Array.getElem_mem_toList hposition)
    have hbefore := h.mark_le (Nat.lt_succ_iff.mp hi) hposition hp hq
    rw [hr.lt_iff hp, not_lt]
    exact hbefore.trans ((hr.le_iff hq).mp hle)

-- The search finds the weight that covers the number.
theorem locate_eq_some_iff (h : scale.Sound) (hr : Compares value r) :
    scale.locate value = some position ↔ scale.Covers position value := by
  rw [h.locate_eq hr, List.findIdx?_eq_some_iff_getElem]
  constructor
  · rintro ⟨hposition, habove, hbelow⟩
    have hlow : position < (0 :: scale.marks.toList).length := Nat.lt_succ_of_lt hposition
    refine ⟨_, _, List.getElem?_eq_getElem hlow, List.getElem?_eq_getElem hposition, ?_,
      of_decide_eq_true habove⟩
    cases position with
    | zero => exact (hr.le_iff denotes_zero).mpr hr.nonneg
    | succ position =>
      have hnot : ¬value < scale.marks.toList[position] := fun hlt =>
        hbelow position (Nat.lt_succ_self position) (decide_eq_true hlt)
      exact h.le_of_not_lt hr (List.getElem_mem _) hnot
  · rintro ⟨low, high, hlow, hhigh, hle, hlt⟩
    obtain ⟨hposition, rfl⟩ := List.getElem?_eq_some_iff.mp hhigh
    refine ⟨hposition, decide_eq_true hlt, fun i hi hfound => ?_⟩
    exact h.mark_le_low hr hlow hle hi (hi.trans hposition) (of_decide_eq_true hfound)

theorem locate_eq_none_iff (h : scale.Sound) (hr : Compares value r) :
    scale.locate value = none ↔ scale.total ≤ value := by
  obtain ⟨t, ht⟩ := h.exists_denotes_total
  rw [← Option.not_isSome_iff_eq_none, h.isSome_locate_iff hr, hr.lt_iff ht, hr.le_iff ht, not_lt]

-- No number is covered twice, and those below the total are.
theorem existsUnique_covers_iff (h : scale.Sound) (hr : Compares value r) :
    (∃! position, scale.Covers position value) ↔ value < scale.total := by
  rw [← h.isSome_locate_iff hr, Option.isSome_iff_exists]
  constructor
  · rintro ⟨position, hcovers, -⟩
    exact ⟨position, (h.locate_eq_some_iff hr).mpr hcovers⟩
  · rintro ⟨position, hlocate⟩
    refine ⟨position, (h.locate_eq_some_iff hr).mp hlocate, fun other hcovers => ?_⟩
    have hother := (h.locate_eq_some_iff hr).mpr hcovers
    exact Option.some.inj (hother.symm.trans hlocate)

theorem low_lt_high (h : scale.Sound) {low high : Float}
    (hlow : (0 :: scale.marks.toList)[position]? = some low)
    (hhigh : scale.marks.toList[position]? = some high) : low < high := by
  obtain ⟨hposition, rfl⟩ := List.getElem?_eq_some_iff.mp hlow
  obtain ⟨hnext, rfl⟩ := List.getElem?_eq_some_iff.mp hhigh
  exact List.pairwise_iff_getElem.mp h.increasing position (position + 1) hposition
    (Nat.succ_lt_succ hnext) (Nat.lt_succ_self position)

-- Every weight covers some number: the one where it begins.
theorem exists_covered (h : scale.Sound) (hposition : position < scale.size) :
    ∃ low, scale.Covers position low := by
  have hlow : position < (0 :: scale.marks.toList).length := Nat.lt_succ_of_lt hposition
  obtain ⟨p, hp⟩ := h.exists_denotes (List.getElem_mem hlow)
  refine ⟨_, _, _, List.getElem?_eq_getElem hlow, List.getElem?_eq_getElem hposition,
    (hp.le_iff hp).mpr le_rfl, ?_⟩
  exact h.low_lt_high (List.getElem?_eq_getElem hlow) (List.getElem?_eq_getElem hposition)

end Sound

end Coinage.Scale
