import Coinage.Proofs.Double.Difference
import Coinage.Scale

namespace Coinage.Scale

open Double

theorem fits_iff {total weight : Float} :
    fits total weight = true ↔
      0 < weight ∧ (total + weight).isFinite = true ∧ total < total + weight := by
  rw [fits, Bool.and_eq_true, Bool.and_eq_true, decide_eq_true_iff, decide_eq_true_iff, and_assoc]

-- A weight fits several times if it fits each of the running totals.
theorem fitsTimes_iff {weight : Float} {count : ℕ} {total : Float} :
    fitsTimes weight count total = true ↔
      ∀ i < count, fits ((· + weight)^[i] total) weight = true := by
  induction count generalizing total with
  | zero => simp [fitsTimes]
  | succ count ih =>
    rw [fitsTimes, Bool.and_eq_true, ih]
    constructor
    · rintro ⟨hfirst, hrest⟩ i hi
      cases i with
      | zero => exact hfirst
      | succ i => exact hrest i (Nat.lt_of_succ_lt_succ hi)
    · intro h
      exact ⟨h 0 (Nat.succ_pos count), fun i hi => h (i + 1) (Nat.succ_lt_succ hi)⟩

theorem fitsTimes_one (weight total : Float) : fitsTimes weight 1 total = fits total weight := by
  rw [fitsTimes, fitsTimes, Bool.and_true]

-- The marks stand for numbers, and they increase from zero on. The total is the
-- last of them.
structure Sound (scale : Scale) : Prop where
  denotes : ∀ mark ∈ scale.marks.toList, ∃ q, Denotes mark q
  increasing : (0 :: scale.marks.toList).Pairwise (· < ·)
  last : (0 :: scale.marks.toList).getLast? = some scale.total

theorem toList_marks_push (scale : Scale) (weight : Float) :
    (scale.push weight).marks.toList = scale.marks.toList ++ [(scale.push weight).total] :=
  Array.toList_push

@[simp] theorem length_differences (start : Float) (marks : List Float) :
    (differences start marks).length = marks.length := by
  induction marks generalizing start with
  | nil => rfl
  | cons mark marks ih => rw [differences, List.length_cons, ih, List.length_cons]

-- Successive marks stay apart when one is taken from the other.
theorem differences_pos {start : Float} {marks : List Float}
    (hdenotes : ∀ place ∈ start :: marks, ∃ q, Denotes place q)
    (hincreasing : (start :: marks).Pairwise (· < ·)) :
    ∀ difference ∈ differences start marks, 0 < difference := by
  induction marks generalizing start with
  | nil => exact List.forall_mem_nil _
  | cons mark marks ih =>
    obtain ⟨hstart, hmarks⟩ := List.forall_mem_cons.mp hdenotes
    obtain ⟨hfirst, hrest⟩ := List.pairwise_cons.mp hincreasing
    obtain ⟨p, hp⟩ := hstart
    obtain ⟨q, hq⟩ := hmarks mark List.mem_cons_self
    have hlt := (hp.lt_iff hq).mp (hfirst mark List.mem_cons_self)
    exact List.forall_mem_cons.mpr ⟨hq.sub_pos hp hlt, ih hmarks hrest⟩

namespace Sound

variable {scale : Scale}

theorem empty : empty.Sound :=
  ⟨List.forall_mem_nil _, List.pairwise_singleton _ _, rfl⟩

theorem exists_denotes (h : scale.Sound) {place : Float}
    (hplace : place ∈ 0 :: scale.marks.toList) : ∃ q, Denotes place q :=
  List.forall_mem_cons.mpr ⟨⟨0, denotes_zero⟩, h.denotes⟩ place hplace

theorem exists_denotes_total (h : scale.Sound) : ∃ t, Denotes scale.total t :=
  h.exists_denotes (List.mem_of_getLast? h.last)

theorem pos_of_mem (h : scale.Sound) {mark : Float} (hmark : mark ∈ scale.marks.toList) :
    0 < mark :=
  List.rel_of_pairwise_cons h.increasing hmark

-- The total is the greatest of the marks.
theorem le_total (h : scale.Sound) {t : ℚ} (ht : Denotes scale.total t) {place : Float}
    (hplace : place ∈ 0 :: scale.marks.toList) {q : ℚ} (hq : Denotes place q) : q ≤ t := by
  obtain ⟨before, hbefore⟩ := List.getLast?_eq_some_iff.mp h.last
  have hincreasing := h.increasing
  rw [hbefore] at hincreasing hplace
  rcases List.mem_append.mp hplace with hmem | hmem
  · obtain ⟨-, -, hlast⟩ := List.pairwise_append.mp hincreasing
    exact ((hq.lt_iff ht).mp (hlast place hmem _ (List.mem_singleton_self _))).le
  · obtain rfl := List.mem_singleton.mp hmem
    exact (hq.2.symm.trans ht.2).le

-- A weight that fits keeps the marks increasing.
theorem push (h : scale.Sound) {weight : Float} (hfits : fits scale.total weight = true) :
    (scale.push weight).Sound := by
  obtain ⟨-, hfinite, hlt⟩ := fits_iff.mp hfits
  obtain ⟨t, ht⟩ := h.exists_denotes_total
  obtain ⟨q, htq, hq⟩ := ht.exists_of_lt hlt hfinite
  constructor
  · rw [toList_marks_push]
    exact List.forall_mem_append.mpr ⟨h.denotes, List.forall_mem_singleton.mpr ⟨q, hq⟩⟩
  · rw [toList_marks_push, ← List.cons_append]
    refine List.pairwise_append.mpr ⟨h.increasing, List.pairwise_singleton _ _, ?_⟩
    intro place hplace mark hmark
    obtain rfl := List.mem_singleton.mp hmark
    obtain ⟨p, hp⟩ := h.exists_denotes hplace
    exact (hp.lt_iff hq).mpr ((h.le_total ht hplace hp).trans_lt htq)
  · rw [toList_marks_push, ← List.cons_append, List.getLast?_concat]

theorem foldlM_add (h : scale.Sound) {weights : List Float} {result : Scale}
    (hrun : weights.foldlM add scale = .ok result) : result.Sound := by
  induction weights generalizing scale with
  | nil =>
    cases hrun
    exact h
  | cons weight weights ih =>
    rw [List.foldlM_cons, add] at hrun
    split at hrun
    case isTrue hfits => exact ih (h.push hfits) hrun
    case isFalse => cases hrun

theorem isFinite_of_mem (h : scale.Sound) {mark : Float} (hmark : mark ∈ scale.marks.toList) :
    mark.isFinite = true := by
  obtain ⟨q, hq⟩ := h.denotes mark hmark
  exact hq.isFinite

theorem weight_pos (h : scale.Sound) {weight : Float} (hweight : weight ∈ scale.weights) :
    0 < weight :=
  differences_pos (fun _ => h.exists_denotes) h.increasing weight hweight

end Sound

end Coinage.Scale
