import Coinage.Proofs.Double.Sum
import Coinage.Proofs.Scale.Sound

namespace Coinage.Scale

open Double

-- A weight is put on a total without rounding.
def Exact (total weight : Float) : Prop :=
  ∃ t w, Denotes total t ∧ Denotes weight w ∧ Denotes (total + weight) (t + w)

-- What is read back for a weight that was put on a total: a double nearest to what
-- the total grew by. It is off by no more than twice the error of the sum, and if
-- the weight is not above the total, only an exact sum gives the weight itself.
def ReadsBack (total weight readback : Float) : Prop :=
  ∃ t w s r : ℚ, Denotes total t ∧ Denotes weight w ∧ Denotes (total + weight) s ∧
    Denotes readback r ∧
    (∀ a, Representable a → |r - (s - t)| ≤ |a - (s - t)|) ∧
    |r - w| ≤ 2 * |s - (t + w)| ∧
    (s = t + w → readback = weight) ∧
    (w ≤ t → readback = weight → s = t + w)

section Fits

variable {total weight : Float} {t : ℚ}

-- A weight that fits stands for a number, and so does the sum.
theorem exists_denotes_of_fits (ht : Denotes total t) (hfits : fits total weight = true) :
    ∃ w s, 0 < w ∧ t < s ∧ Denotes weight w ∧ Denotes (total + weight) s ∧
      ∀ a, Representable a → |s - (t + w)| ≤ |a - (t + w)| := by
  obtain ⟨hpos, hfinite, hlt⟩ := fits_iff.mp hfits
  obtain ⟨w, hwpos, hw⟩ := ht.exists_addend hpos hfinite
  obtain ⟨s, hs, hnear⟩ := ht.add hw hfinite
  exact ⟨w, s, hwpos, (ht.lt_iff hs).mp hlt, hw, hs, hnear⟩

theorem readsBack_of_fits (ht : Denotes total t) (hfits : fits total weight = true) :
    ReadsBack total weight (total + weight - total) := by
  obtain ⟨w, s, hpos, hlt, hw, hs, hsum⟩ := exists_denotes_of_fits ht hfits
  obtain ⟨r, hr, hdifference⟩ := hs.sub ht hlt
  refine ⟨t, w, s, r, ht, hw, hs, hr, hdifference, ?_, ?_, ?_⟩
  · -- the weight is a double, so it is no nearer to the difference
    calc |r - w| ≤ |r - (s - t)| + |s - t - w| := abs_sub_le _ _ _
      _ ≤ |w - (s - t)| + |s - t - w| :=
        add_le_add (hdifference w hw.representable) le_rfl
      _ = 2 * |s - (t + w)| := by
        rw [abs_sub_comm w, sub_sub, two_mul]
  · rintro rfl
    have hgrowth : t + w - t = w := add_sub_cancel_left t w
    have hexact := hdifference w hw.representable
    rw [hgrowth, sub_self, abs_zero, abs_nonpos_iff, sub_eq_zero] at hexact
    subst hexact
    exact hr.eq hw
  · intro hle hsame
    -- the sum is at most twice the total, and what it grew by is a double
    have htwice : s ≤ 2 * t :=
      ge_of_nearest (hsum _ ht.representable.two_mul) (by linarith)
    have hgrowth := hdifference _ (hs.representable.sub ht.representable hlt.le htwice)
    rw [sub_self, abs_zero, abs_nonpos_iff, sub_eq_zero] at hgrowth
    rw [hsame] at hr
    have hweight : r = w := hr.2.symm.trans hw.2
    linarith

end Fits

-- Weights that fit one after the other on top of a total.
def FitFrom (total : Float) : List Float → Prop
  | [] => True
  | weight :: weights => fits total weight = true ∧ FitFrom (total + weight) weights

theorem fitFrom_append {total : Float} {first second : List Float} :
    FitFrom total (first ++ second) ↔
      FitFrom total first ∧ FitFrom (first.foldl (· + ·) total) second := by
  induction first generalizing total with
  | nil => simp [FitFrom]
  | cons weight first ih => rw [List.cons_append, FitFrom, FitFrom, ih, and_assoc, List.foldl_cons]

theorem fitFrom_replicate {total weight : Float} {count : ℕ} :
    FitFrom total (List.replicate count weight) ↔ fitsTimes weight count total = true := by
  induction count generalizing total with
  | zero => exact iff_of_true trivial rfl
  | succ count ih => rw [List.replicate_succ, FitFrom, ih, fitsTimes, Bool.and_eq_true]

-- The weight at a position is read back on top of those before it.
theorem FitFrom.readsBack {total : Float} {weights : List Float} (h : FitFrom total weights)
    {t : ℚ} (ht : Denotes total t) {position : ℕ} {weight : Float}
    (hweight : weights[position]? = some weight) :
    ReadsBack ((weights.take position).foldl (· + ·) total) weight
      ((weights.take position).foldl (· + ·) total + weight -
        (weights.take position).foldl (· + ·) total) := by
  induction weights generalizing total t position with
  | nil => cases hweight
  | cons first weights ih =>
    obtain ⟨hfits, hrest⟩ := h
    cases position with
    | zero =>
      obtain rfl : first = weight := Option.some.inj hweight
      exact readsBack_of_fits ht hfits
    | succ position =>
      obtain ⟨-, s, -, -, -, hs, -⟩ := exists_denotes_of_fits ht hfits
      exact ih hrest hs hweight

-- A weight ends at its mark and begins where the one before it ends.
theorem getElem?_differences {start low high : Float} {marks : List Float} {position : ℕ}
    (hlow : (start :: marks)[position]? = some low) (hhigh : marks[position]? = some high) :
    (differences start marks)[position]? = some (high - low) := by
  induction marks generalizing start position with
  | nil => cases hhigh
  | cons mark marks ih =>
    cases position with
    | zero =>
      cases hlow
      cases hhigh
      rfl
    | succ position => exact ih hlow hhigh

end Coinage.Scale
