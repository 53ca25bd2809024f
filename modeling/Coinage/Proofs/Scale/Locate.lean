import Coinage.Proofs.Scale.Sound
import Coinage.Proofs.Source.Portion

namespace Coinage.Scale

open Double

-- Where the marks up to a value come first, the search finds their number.
theorem search_eq {marks : Array Float} {value : Float} {point : ℕ}
    (h : ∀ i (hi : i < marks.size), marks[i] ≤ value ↔ i < point) {low high : ℕ}
    (hhigh : high ≤ marks.size) (hlow : low ≤ point) (hpoint : point ≤ high) :
    search marks value low high hhigh = point := by
  fun_induction search marks value low high hhigh with
  | case1 low high hhigh hlt middle hmiddle hsize hle ih =>
    have hbelow := (h middle hsize).mp hle
    apply ih
    · omega
    · omega
  | case2 low high hhigh hlt middle hmiddle hsize hnot ih =>
    have habove := mt (h middle hsize).mpr hnot
    apply ih
    · omega
    · omega
  | case3 low high hhigh hnot =>
    omega

theorem locate_eq {scale : Scale} {value : Float} {point : ℕ}
    (h : ∀ i (hi : i < scale.marks.size), scale.marks[i] ≤ value ↔ i < point)
    (hpoint : point ≤ scale.size) :
    scale.locate value = if point < scale.size then some point else none := by
  simp only [locate, search_eq h (Nat.le_refl scale.size) (Nat.zero_le point) hpoint]

theorem lt_size_of_locate {scale : Scale} {value : Float} {position : ℕ}
    (h : scale.locate value = some position) : position < scale.size := by
  simp only [locate] at h
  split at h
  · cases h
    assumption
  · cases h

namespace Sound

variable {scale : Scale} {value : Float} {r : ℚ}

theorem mark_le (h : scale.Sound) {i j : ℕ} (hij : i ≤ j) (hj : j < scale.marks.size) {p q : ℚ}
    (hp : Denotes scale.marks[i] p) (hq : Denotes scale.marks[j] q) : p ≤ q := by
  rcases hij.eq_or_lt with rfl | hlt
  · exact (hp.2.symm.trans hq.2).le
  · have hpair := List.pairwise_iff_getElem.mp (List.pairwise_cons.mp h.increasing).2
    exact ((hp.lt_iff hq).mp (hpair i j (hlt.trans hj) hj hlt)).le

-- The search finds what going through the marks from the first one on finds.
theorem locate_eq (h : scale.Sound) (hr : Compares value r) :
    scale.locate value = scale.marks.toList.findIdx? (value < ·) := by
  generalize hpoint : scale.marks.toList.findIdx (value < ·) = point
  have hsplit : ∀ i (hi : i < scale.marks.size), scale.marks[i] ≤ value ↔ i < point := by
    intro i hi
    obtain ⟨q, hq⟩ := h.denotes scale.marks[i] (Array.getElem_mem_toList hi)
    rw [hr.le_iff hq, ← not_lt, ← hr.lt_iff hq]
    constructor
    · intro hnot
      by_contra hge
      have hfound : point < scale.marks.size := (not_lt.mp hge).trans_lt hi
      obtain ⟨p, hp⟩ := h.denotes scale.marks[point] (Array.getElem_mem_toList hfound)
      have habove : value < scale.marks[point] := by
        subst hpoint
        simpa using List.findIdx_getElem (w := hfound)
      have hle := h.mark_le (not_lt.mp hge) hi hp hq
      exact hnot ((hr.lt_iff hq).mpr (((hr.lt_iff hp).mp habove).trans_le hle))
    · intro hlt
      subst hpoint
      simpa using List.not_of_lt_findIdx hlt
  have hsize : point ≤ scale.size := hpoint ▸ List.findIdx_le_length
  rw [Scale.locate_eq hsplit hsize, List.findIdx?_eq_guard_findIdx_lt, hpoint]
  by_cases hfound : point < scale.size
  · rw [if_pos hfound, eq_comm, Option.guard_eq_some_iff]
    exact ⟨rfl, decide_eq_true hfound⟩
  · rw [if_neg hfound, eq_comm, Option.guard_eq_none_iff]
    exact decide_eq_false hfound

-- A number falls into one of the weights if it is below the total.
theorem isSome_locate_iff (h : scale.Sound) (hr : Compares value r) :
    (scale.locate value).isSome ↔ value < scale.total := by
  obtain ⟨t, ht⟩ := h.exists_denotes_total
  rw [h.locate_eq hr, List.findIdx?_isSome, List.any_eq_true]
  constructor
  · rintro ⟨mark, hmark, habove⟩
    obtain ⟨q, hq⟩ := h.denotes mark hmark
    have hlt := (hr.lt_iff hq).mp (of_decide_eq_true habove)
    exact (hr.lt_iff ht).mpr (hlt.trans_le (h.le_total ht (List.mem_cons_of_mem _ hmark) hq))
  · intro hlt
    refine ⟨scale.total, ?_, decide_eq_true hlt⟩
    refine (List.mem_cons.mp (List.mem_of_getLast? h.last)).resolve_left fun hzero => ?_
    rw [hzero, hr.lt_iff denotes_zero] at hlt
    exact absurd hr.nonneg (not_le.mpr hlt)

-- A total that is too coarse is itself picked by some word, and nothing ends
-- above it.
theorem forall_isSome_pick_iff (h : scale.Sound) :
    (∀ word, (scale.pick word).isSome) ↔ Source.coarseTotal < scale.total := by
  obtain ⟨t, ht⟩ := h.exists_denotes_total
  rw [Source.denotes_coarseTotal.lt_iff ht]
  constructor
  · intro hall
    by_contra hsmall
    have hlast := Source.denotes_portion_last ht (not_lt.mp hsmall)
    have hlt := (h.isSome_locate_iff hlast.compares).mp (hall (-1))
    exact lt_irrefl t ((hlast.lt_iff ht).mp hlt)
  · intro hlarge word
    obtain ⟨r, hr, hlt⟩ := Source.portion_lt word ht hlarge
    exact (h.isSome_locate_iff hr.compares).mpr ((hr.lt_iff ht).mpr hlt)

end Sound

end Coinage.Scale
