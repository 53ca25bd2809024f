import Coinage.Proofs.Scale.Counts
import Coinage.Proofs.Scale.Intervals

namespace Coinage.Scale

open Double

theorem Countable.sum_le {total : ℕ} {counts : List ℕ} (h : Countable total counts) :
    counts.sum ≤ counts.length * 128 :=
  List.sum_le_card_nsmul counts 128 fun count hc => (h.1 count hc).2

theorem Countable.length_le_sum {total : ℕ} {counts : List ℕ} (h : Countable total counts) :
    counts.length ≤ counts.sum :=
  List.length_le_sum_of_one_le counts fun count hc => (h.1 count hc).1

theorem Countable.sum_lt {total : ℕ} {counts : List ℕ} (h : Countable total counts) :
    counts.sum < 2 ^ 53 := by
  have hle := h.sum_le
  have hlt := h.2
  omega

theorem length_marksFrom (total : ℕ) (counts : List ℕ) :
    (marksFrom total counts).length = counts.length := by
  induction counts generalizing total with
  | nil => rfl
  | cons count counts ih => rw [marksFrom, List.length_cons, ih, List.length_cons]

-- A weight begins at the sum of the weights before it.
theorem getElem?_marksFrom {total position : ℕ} {counts : List ℕ}
    (hposition : position ≤ counts.length) :
    (Float.ofNat total :: marksFrom total counts)[position]? =
      some (Float.ofNat (total + (counts.take position).sum)) := by
  induction counts generalizing total position with
  | nil =>
    obtain rfl := Nat.le_zero.mp hposition
    rfl
  | cons count counts ih =>
    cases position with
    | zero => rfl
    | succ position =>
      rw [List.getElem?_cons_succ, marksFrom, ih (Nat.le_of_succ_le_succ hposition),
        List.take_succ_cons, List.sum_cons, Nat.add_assoc]

section OfCounts

variable {counts : List ℕ} {position : ℕ}

theorem size_ofCounts (counts : List ℕ) : (ofCounts counts).size = counts.length := by
  rw [size, ofCounts, List.size_toArray, length_marksFrom]

theorem sound_ofCounts (h : Countable 0 counts) : (ofCounts counts).Sound :=
  Sound.empty.foldlM_add (foldlM_add_empty h)

theorem getElem?_ofCounts (hposition : position ≤ counts.length) :
    (0 :: (ofCounts counts).marks.toList)[position]? =
      some (Float.ofNat (counts.take position).sum) := by
  rw [← Nat.zero_add (counts.take position).sum]
  exact getElem?_marksFrom hposition

theorem total_ofCounts (counts : List ℕ) :
    (ofCounts counts).total = Float.ofNat counts.sum := rfl

theorem denotes_sum_take (h : Countable 0 counts) (n : ℕ) :
    Denotes (Float.ofNat (counts.take n).sum) (counts.take n).sum := by
  have hle := (List.take_sublist n counts).sum_le_sum fun _ _ => Nat.zero_le _
  exact denotes_ofNat (hle.trans_lt h.sum_lt)

theorem denotes_total_ofCounts (h : Countable 0 counts) :
    Denotes (ofCounts counts).total counts.sum := by
  rw [total_ofCounts]
  exact denotes_ofNat h.sum_lt

theorem locate_ofCounts (h : Countable 0 counts) {value : Float} {r : ℚ} (hr : Denotes value r)
    (hposition : position < counts.length) (hlow : ((counts.take position).sum : ℚ) ≤ r)
    (hhigh : r < (counts.take (position + 1)).sum) :
    (ofCounts counts).locate value = some position := by
  rw [(sound_ofCounts h).locate_eq_some_iff hr.compares]
  refine ⟨_, _, getElem?_ofCounts hposition.le, getElem?_ofCounts hposition, ?_, ?_⟩
  · exact ((denotes_sum_take h position).le_iff hr).mpr hlow
  · exact (hr.lt_iff (denotes_sum_take h (position + 1))).mpr hhigh

-- Every word picks one of the weights.
theorem isSome_pick_ofCounts (h : Countable 0 counts) (hne : counts ≠ []) (word : UInt64) :
    ((ofCounts counts).pick word).isSome := by
  have hsum : 1 ≤ counts.sum := (List.length_pos_of_ne_nil hne).trans_le h.length_le_sum
  apply (sound_ofCounts h).forall_isSome_pick_iff.mpr
  rw [Source.denotes_coarseTotal.lt_iff (denotes_total_ofCounts h)]
  exact Source.large_natCast hsum

theorem exists_pick (h : Countable 0 counts) (hne : counts ≠ []) (word : UInt64) :
    ∃ position, position < counts.length ∧ (ofCounts counts).pick word = some position := by
  obtain ⟨position, hpick⟩ := Option.isSome_iff_exists.mp (isSome_pick_ofCounts h hne word)
  have hposition := lt_size_of_locate hpick
  rw [size_ofCounts] at hposition
  exact ⟨position, hposition, hpick⟩

-- Every weight is picked by some word.
theorem exists_word_pick (h : Countable 0 counts) (hlength : counts.length ≤ 2 ^ 44)
    (hposition : position < counts.length) :
    ∃ word, (ofCounts counts).pick word = some position := by
  have hstep : (counts.take position).sum + 1 ≤ (counts.take (position + 1)).sum := by
    have hcount := h.1 counts[position] (List.getElem_mem hposition)
    rw [List.sum_take_succ counts position hposition]
    omega
  have htotal := (List.take_sublist (position + 1) counts).sum_le_sum fun _ _ => Nat.zero_le _
  have hsum : counts.sum ≤ 2 ^ 51 := by
    have hle := h.sum_le
    omega
  have hlower : (counts.take position).sum < counts.sum := by omega
  obtain ⟨word, r, hr, hlow, hhigh⟩ := Source.exists_portion_between hlower hsum
  refine ⟨word, ?_⟩
  rw [pick, total_ofCounts]
  apply locate_ofCounts h hr hposition hlow
  apply hhigh.trans_le
  exact_mod_cast hstep

end OfCounts

end Coinage.Scale
