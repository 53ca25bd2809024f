import Coinage.Proofs.Journal
import Coinage.Proofs.Urn.Deposits

namespace Coinage.Urn

variable {α : Type}

section Steps

variable {weight : Float} {urn : Urn α}

theorem run_put_of_fits (h : Scale.fits urn.total weight = true) (item : α) :
    (put weight item).run urn = (.ok (), urn.push weight item) := by
  rw [run_put, if_pos h]

theorem run_put_of_not_fits (h : ¬Scale.fits urn.total weight = true) (item : α) :
    (put weight item).run urn = (.error (.invalidWeight weight), urn) := by
  rw [run_put, if_neg h]

theorem forM_put_cons (weight : Float) (item : α) (items : List α) :
    (item :: items).forM (put weight) = (put weight item >>= fun _ => items.forM (put weight)) :=
  rfl

-- The total that is simulated for a list of items is that of the urn they are put into.
theorem run_forM_put_of_fits {items : List α}
    (h : Scale.fitsTimes weight items.length urn.total = true) :
    (items.forM (put weight)).run urn = (.ok (), items.foldl (·.push weight ·) urn) := by
  induction items generalizing urn with
  | nil => rfl
  | cons item items ih =>
    rw [List.length_cons, Scale.fitsTimes, Bool.and_eq_true] at h
    obtain ⟨hfirst, hrest⟩ := h
    rw [← urn.total_push weight item] at hrest
    rw [forM_put_cons, run_bind_of_ok (run_put_of_fits hfirst item), ih hrest]
    rfl

-- Else some item is refused, and those before it stay in the urn.
theorem exists_refused_of_not_fits {items : List α}
    (h : ¬Scale.fitsTimes weight items.length urn.total = true) :
    ∃ first item rest next, items = first ++ item :: rest ∧
      (first.forM (put weight)).run urn = (.ok (), next) ∧
      (put weight item).run next = (.error (.invalidWeight weight), next) ∧
      (items.forM (put weight)).run urn = (.error (.invalidWeight weight), next) := by
  induction items generalizing urn with
  | nil => exact absurd rfl h
  | cons item items ih =>
    by_cases hfirst : Scale.fits urn.total weight = true
    · have hrest : ¬Scale.fitsTimes weight items.length (urn.push weight item).total = true := by
        rwa [List.length_cons, Scale.fitsTimes, hfirst, Bool.true_and,
          ← urn.total_push weight item] at h
      obtain ⟨first, refused, rest, next, rfl, hput, hrefused, hrun⟩ := ih hrest
      have hstep := run_put_of_fits hfirst item
      refine ⟨item :: first, refused, rest, next, rfl, ?_, hrefused, ?_⟩
      · rw [forM_put_cons, run_bind_of_ok hstep, hput]
      · rw [forM_put_cons, run_bind_of_ok hstep, hrun]
    · have hrefused := run_put_of_not_fits hfirst item
      refine ⟨[], item, items, urn, rfl, rfl, hrefused, ?_⟩
      rw [forM_put_cons, run_bind_of_error hrefused]

end Steps

-- Putting in all items at once does what putting in one after the other does, as
-- long as none is refused. Else nothing at all is put in, though there may be items
-- before the one that is refused, and these are left behind if they are put in one
-- after the other.
theorem putAll_iff_forM_put (weight : Float) (items : List α) (urn : Urn α) :
    (((putAll weight items).run urn).1 = .ok () ↔
        ((items.forM (put weight)).run urn).1 = .ok ()) ∧
      (((items.forM (put weight)).run urn).1 = .ok () →
        (putAll weight items).run urn = (items.forM (put weight)).run urn) ∧
      (((items.forM (put weight)).run urn).1 ≠ .ok () →
        (putAll weight items).run urn = (.error (.invalidWeight weight), urn) ∧
          ∃ first item rest next, items = first ++ item :: rest ∧
            (first.forM (put weight)).run urn = (.ok (), next) ∧
            (put weight item).run next = (.error (.invalidWeight weight), next) ∧
            (items.forM (put weight)).run urn = (.error (.invalidWeight weight), next)) := by
  by_cases hfits : Scale.fitsTimes weight items.length urn.total = true
  · have heach := run_forM_put_of_fits hfits
    rw [run_putAll, if_pos hfits, heach]
    exact ⟨Iff.rfl, fun _ => rfl, fun hrefused => absurd rfl hrefused⟩
  · obtain ⟨first, item, rest, next, hitems, hput, hrefused, heach⟩ :=
      exists_refused_of_not_fits hfits
    rw [run_putAll, if_neg hfits, heach]
    exact ⟨iff_of_false nofun nofun, nofun,
      fun _ => ⟨rfl, first, item, rest, next, hitems, hput, hrefused, rfl⟩⟩

end Coinage.Urn
