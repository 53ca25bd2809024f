import Coinage.Proofs.Scale.Intervals
import Coinage.Proofs.Urn.Draws

namespace Coinage.Urn

variable {α : Type}

-- The binary search gives the item that going through the entries from the first one
-- on gives, whatever was put into the urn. It is that of the one entry whose interval
-- holds the number, and there is none from the total on. An entry has the numbers
-- from where the entry before it ends to where it ends itself, the latter left out.
theorem locate_is_scan (deposits : List (Deposit α)) {value : Float}
    (hfinite : value.isFinite = true) (hnonneg : 0 ≤ value) :
    ((Ledger.run deposits).urn.scale.locate value).bind ((Ledger.run deposits).urn.items[·]?) =
        (Ledger.run deposits).urn.itemAbove value ∧
      (∀ position, (Ledger.run deposits).urn.scale.locate value = some position ↔
        (Ledger.run deposits).urn.scale.Covers position value) ∧
      (((Ledger.run deposits).urn.scale.locate value).bind
          ((Ledger.run deposits).urn.items[·]?) = none ↔
        (Ledger.run deposits).urn.total ≤ value) ∧
      ((∃! position, (Ledger.run deposits).urn.scale.Covers position value) ↔
        value < (Ledger.run deposits).urn.total) ∧
      ∀ position < (Ledger.run deposits).urn.size,
        ∃ low, (Ledger.run deposits).urn.scale.Covers position low := by
  have hsound := (Ledger.balanced_run deposits).sound
  obtain ⟨r, hr⟩ := Double.exists_compares hfinite hnonneg
  refine ⟨bind_locate hsound hr, fun position => hsound.locate_eq_some_iff hr, ?_,
    hsound.existsUnique_covers_iff hr, fun position hposition => hsound.exists_covered ?_⟩
  · rw [← Option.not_isSome_iff_eq_none, isSome_bind_locate, Option.not_isSome_iff_eq_none]
    exact hsound.locate_eq_none_iff hr
  · exact hposition.trans_eq (Ledger.run deposits).urn.size_items

-- The same item twice, and a number where one entry ends and the next one begins.
def recurring : List (Deposit Text) :=
  [.putAll 1 ["a".toList, "b".toList, "a".toList], .put 0.5 "b".toList]

theorem locate_recurring :
    ((Ledger.run recurring).urn.scale.locate 2).bind ((Ledger.run recurring).urn.items[·]?) =
      some "a".toList :=
  (locate_is_scan recurring (by decide +kernel) (by decide +kernel)).1.trans (by decide +kernel)

end Coinage.Urn
