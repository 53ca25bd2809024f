import Coinage.Proofs.Double.Arithmetic
import Coinage.Scale

namespace Coinage.Scale

open Double

-- The running totals of whole weights that follow `total`.
def marksFrom (total : Nat) : List Nat → List Float
  | [] => []
  | count :: counts => Float.ofNat (total + count) :: marksFrom (total + count) counts

-- The scale of whole weights.
def ofCounts (counts : List Nat) : Scale :=
  ⟨(marksFrom 0 counts).toArray, Float.ofNat counts.sum⟩

-- Whole weights that are positive and so few that all totals are exact.
def Countable (total : Nat) (counts : List Nat) : Prop :=
  (∀ count ∈ counts, 1 ≤ count ∧ count ≤ 128) ∧ total + 128 * counts.length < 2 ^ 53

theorem Countable.head {total count : Nat} {counts : List Nat}
    (h : Countable total (count :: counts)) :
    1 ≤ count ∧ count ≤ 128 ∧ total + count < 2 ^ 53 := by
  obtain ⟨hcounts, hlength⟩ := h
  have hcount := hcounts count List.mem_cons_self
  simp only [List.length_cons] at hlength
  omega

theorem Countable.tail {total count : Nat} {counts : List Nat}
    (h : Countable total (count :: counts)) : Countable (total + count) counts := by
  have hhead := h.head
  obtain ⟨hcounts, hlength⟩ := h
  refine ⟨fun other ho => hcounts other (List.mem_cons_of_mem _ ho), ?_⟩
  simp only [List.length_cons] at hlength
  omega

theorem Countable.left {total : Nat} {first second : List Nat}
    (h : Countable total (first ++ second)) : Countable total first := by
  obtain ⟨hcounts, hlength⟩ := h
  refine ⟨fun count hc => hcounts count (List.mem_append_left _ hc), ?_⟩
  rw [List.length_append] at hlength
  omega

theorem fits_ofNat {total count : Nat} (hpos : 1 ≤ count) (h : total + count < 2 ^ 53) :
    fits (Float.ofNat total) (Float.ofNat count) = true := by
  have hzero : (0 : Float) = ofWhole 0 := ofNat_eq (by norm_num)
  rw [fits, ofNat_eq (by omega), ofNat_eq (by omega), ofWhole_add h, hzero]
  simp only [Bool.and_eq_true, decide_eq_true_eq]
  exact ⟨⟨ofWhole_lt hpos (by omega), isFinite_ofWhole h⟩, ofWhole_lt (by omega) h⟩

theorem ofNat_add {a b : Nat} (h : a + b < 2 ^ 53) :
    Float.ofNat a + Float.ofNat b = Float.ofNat (a + b) := by
  rw [ofNat_eq (by omega), ofNat_eq (by omega), ofNat_eq h, ofWhole_add h]

-- Whole weights are all accepted, and their totals are exact.
theorem foldlM_add_counts {counts : List Nat} {total : Nat} (h : Countable total counts)
    {scale : Scale} (ht : scale.total = Float.ofNat total) :
    (counts.map Float.ofNat).foldlM add scale =
      .ok ⟨scale.marks ++ (marksFrom total counts).toArray, Float.ofNat (total + counts.sum)⟩ := by
  induction counts generalizing total scale with
  | nil => simp [marksFrom, pure, Except.pure, ← ht]
  | cons count counts ih =>
    obtain ⟨hpos, -, hlt⟩ := h.head
    have hadd : scale.add (Float.ofNat count) = .ok (scale.push (Float.ofNat count)) := by
      rw [add, ht, if_pos (fits_ofNat hpos hlt)]
    have htotal : (scale.push (Float.ofNat count)).total = Float.ofNat (total + count) := by
      rw [total_push, ht, ofNat_add hlt]
    simp only [List.map_cons, List.foldlM_cons, hadd]
    change (counts.map Float.ofNat).foldlM add (scale.push (Float.ofNat count)) = _
    rw [ih h.tail htotal, push, ht, ofNat_add hlt, marksFrom, List.sum_cons, ← Nat.add_assoc]
    simp

theorem foldlM_add_empty {counts : List Nat} (h : Countable 0 counts) :
    (counts.map Float.ofNat).foldlM add empty = .ok (ofCounts counts) := by
  rw [foldlM_add_counts h rfl]
  simp [empty, ofCounts]

-- A whole weight lengthens a scale of whole weights.
theorem add_ofCounts {counts : List Nat} {count : Nat} (h : Countable 0 (counts ++ [count])) :
    (ofCounts counts).add (Float.ofNat count) = .ok (ofCounts (counts ++ [count])) := by
  have hall := foldlM_add_empty h
  rw [List.map_append, List.foldlM_append, foldlM_add_empty h.left] at hall
  change (ofCounts counts).add (Float.ofNat count) >>= pure = _ at hall
  rwa [bind_pure] at hall

theorem differences_marksFrom {counts : List Nat} {total : Nat} (h : Countable total counts) :
    differences (Float.ofNat total) (marksFrom total counts) = counts.map Float.ofNat := by
  induction counts generalizing total with
  | nil => rfl
  | cons count counts ih =>
    obtain ⟨-, -, hlt⟩ := h.head
    have hsub : Float.ofNat (total + count) - Float.ofNat total = Float.ofNat count := by
      rw [ofNat_eq hlt, ofNat_eq (by omega), ofWhole_sub (Nat.le_add_right _ _) hlt,
        Nat.add_sub_cancel_left, ofNat_eq (by omega)]
    rw [marksFrom, differences, hsub, ih h.tail, List.map_cons]

-- A scale gives back the whole weights it was made of.
theorem weights_ofCounts {counts : List Nat} (h : Countable 0 counts) :
    (ofCounts counts).weights = counts.map Float.ofNat :=
  differences_marksFrom h

end Coinage.Scale
