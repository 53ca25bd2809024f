import Coinage.Proofs.Scale.Locate
import Coinage.Proofs.Urn.Deposits
import Coinage.Source.SplitMix

namespace Coinage.Urn

variable {α : Type}

-- The first item whose mark is above a number.
def itemAbove (urn : Urn α) (value : Float) : Option α :=
  ((urn.items.toList.zip urn.scale.marks.toList).find? (value < ·.2)).map Prod.fst

theorem map_fst_find?_zip {β : Type} (found : β → Bool) {items : List α} {marks : List β}
    (h : items.length = marks.length) :
    ((items.zip marks).find? fun entry => found entry.2).map Prod.fst =
      (marks.findIdx? found).bind (items[·]?) := by
  induction items generalizing marks with
  | nil =>
    obtain rfl := List.eq_nil_of_length_eq_zero h.symm
    rfl
  | cons item items ih =>
    cases marks with
    | nil => cases h
    | cons mark marks =>
      rw [List.zip_cons_cons, List.find?_cons, List.findIdx?_cons]
      cases found mark with
      | true => rfl
      | false =>
        rw [if_neg Bool.false_ne_true, Option.bind_map]
        exact ih (Nat.succ.inj h)

theorem bind_locate {urn : Urn α} (h : urn.scale.Sound) {value : Float} {r : ℚ}
    (hr : Double.Compares value r) :
    (urn.scale.locate value).bind (urn.items[·]?) = urn.itemAbove value := by
  have hlength : urn.items.toList.length = urn.scale.marks.toList.length := urn.size_items
  rw [h.locate_eq hr, itemAbove, map_fst_find?_zip (value < ·) hlength]
  simp only [Array.getElem?_toList]

theorem bind_pick {urn : Urn α} (h : urn.scale.Sound) (word : UInt64) :
    (urn.scale.pick word).bind (urn.items[·]?) =
      urn.itemAbove (Source.portion word urn.total) := by
  obtain ⟨t, ht⟩ := h.exists_denotes_total
  obtain ⟨r, hr, -⟩ := Source.exists_portion word ht
  exact bind_locate h hr.compares

theorem isEmpty_iff (urn : Urn α) : urn.isEmpty = true ↔ urn.scale.size = 0 := by
  rw [isEmpty, Array.isEmpty_iff_size_eq_zero, urn.size_items]

-- What a draw does: nothing is asked of the source if there is no item.
theorem draw_eq {urn : Urn α} (h : urn.scale.Sound) {σ : Type} [Source σ] (source : σ) :
    urn.draw source =
      if urn.isEmpty then
        (none, source)
      else
        (urn.itemAbove (Source.portion (Source.next64 source).1 urn.total),
          (Source.next64 source).2) := by
  rw [draw, Scale.draw]
  by_cases hempty : urn.scale.size = 0
  · rw [if_pos hempty, if_pos (urn.isEmpty_iff.mpr hempty)]
    rfl
  · rw [if_neg hempty, if_neg (mt urn.isEmpty_iff.mp hempty), ← bind_pick h]

-- A position that is found has an item.
theorem isSome_bind_locate (urn : Urn α) (value : Float) :
    ((urn.scale.locate value).bind (urn.items[·]?)).isSome = (urn.scale.locate value).isSome := by
  cases hlocate : urn.scale.locate value with
  | none => rfl
  | some position =>
    have hposition : position < urn.items.size := by
      rw [urn.size_items]
      exact Scale.lt_size_of_locate hlocate
    rw [Option.bind_some, Array.getElem?_eq_getElem hposition]
    rfl

theorem isSome_bind_pick (urn : Urn α) (word : UInt64) :
    ((urn.scale.pick word).bind (urn.items[·]?)).isSome = (urn.scale.pick word).isSome :=
  urn.isSome_bind_locate _

theorem isSome_draw_iff (urn : Urn α) {σ : Type} [Source σ] (source : σ) :
    (urn.draw source).1.isSome ↔ (urn.scale.pick (Source.next64 source).1).isSome := by
  rw [← isSome_bind_pick, draw, Scale.draw]
  by_cases hempty : urn.scale.size = 0
  · have hnone : urn.scale.pick (Source.next64 source).1 = none := by
      refine Option.eq_none_iff_forall_ne_some.mpr fun position hpick => ?_
      have hlt := Scale.lt_size_of_locate hpick
      omega
    rw [if_pos hempty, hnone]
  · rw [if_neg hempty]

-- A draw gives the first item whose mark is above the number that was drawn. Every
-- draw gives one as long as the total exceeds 2 ^ -1023, and only then: the last
-- place of a smaller total is so coarse that the total itself can be drawn.
theorem draws_unless_coarse (deposits : List (Deposit α)) :
    (∀ {σ : Type} [Source σ] (source : σ),
      (Ledger.run deposits).urn.draw source =
        if (Ledger.run deposits).urn.isEmpty then
          (none, source)
        else
          ((Ledger.run deposits).urn.itemAbove
              (Source.portion (Source.next64 source).1 (Ledger.run deposits).urn.total),
            (Source.next64 source).2)) ∧
      ((∀ {σ : Type} [Source σ] (source : σ),
          ((Ledger.run deposits).urn.draw source).1.isSome) ↔
        Source.coarseTotal < (Ledger.run deposits).urn.total) := by
  have hsound := (Ledger.balanced_run deposits).sound
  refine ⟨fun source => draw_eq hsound source, ?_⟩
  rw [show (Ledger.run deposits).urn.total = (Ledger.run deposits).urn.scale.total from rfl,
    ← hsound.forall_isSome_pick_iff]
  constructor
  · intro hall word
    have hdraw := hall (⟨[word], ⟨0⟩⟩ : Scripted)
    rwa [isSome_draw_iff] at hdraw
  · intro hall σ _ source
    rw [isSome_draw_iff]
    exact hall _

-- One item whose weight is the least double above zero.
def least : List (Deposit Text) :=
  [.put (Float.ofBits 1) "a".toList]

theorem draw_least :
    (Ledger.run least).urn.isEmpty = false ∧
      ((Ledger.run least).urn.draw (⟨[-1], ⟨0⟩⟩ : Scripted)).1 = none := by
  decide +kernel

end Coinage.Urn
