import Coinage.Proofs.Scale.Readback
import Coinage.Proofs.Urn.Deposits

namespace Coinage.Urn

variable {α : Type}

namespace Ledger

def weights (ledger : Ledger α) : List Float :=
  ledger.entries.map Prod.snd

-- The total that the entry at a position was put on.
def totalBefore (ledger : Ledger α) (position : ℕ) : Float :=
  (ledger.weights.take position).foldl (· + ·) 0

theorem getElem?_weights {ledger : Ledger α} {position : ℕ} {item : α} {weight : Float}
    (hentry : ledger.entries[position]? = some (item, weight)) :
    ledger.weights[position]? = some weight := by
  rw [weights, List.getElem?_map, hentry]
  rfl

-- Whatever is offered, the entries of a ledger are weights that fit.
theorem fitFrom_step {ledger : Ledger α} (hbalanced : ledger.Balanced)
    (h : Scale.FitFrom 0 ledger.weights) (deposit : Deposit α) :
    Scale.FitFrom 0 (ledger.step deposit).weights := by
  rw [Ledger.step, deposit.run_call]
  by_cases hfits : Scale.fitsTimes deposit.weight deposit.items.length ledger.urn.total = true
  · rw [if_pos hfits]
    have hadded : (deposit.items.map (·, deposit.weight)).map Prod.snd =
        List.replicate deposit.items.length deposit.weight := by
      rw [List.map_map]
      exact List.map_const' ..
    rw [weights, List.map_append, hadded, Scale.fitFrom_append, Scale.fitFrom_replicate,
      ← hbalanced.total_eq]
    exact ⟨h, hfits⟩
  · rw [if_neg hfits]
    exact h

theorem fitFrom_foldl {ledger : Ledger α} (hbalanced : ledger.Balanced)
    (h : Scale.FitFrom 0 ledger.weights) (deposits : List (Deposit α)) :
    Scale.FitFrom 0 (deposits.foldl Ledger.step ledger).weights := by
  induction deposits generalizing ledger with
  | nil => exact h
  | cons deposit deposits ih => exact ih (hbalanced.step deposit) (fitFrom_step hbalanced h deposit)

theorem fitFrom_run (deposits : List (Deposit α)) : Scale.FitFrom 0 (run deposits).weights :=
  fitFrom_foldl balanced_start trivial deposits

namespace Balanced

variable {ledger : Ledger α}

theorem length_toList (h : ledger.Balanced) : ledger.urn.toList.length = ledger.entries.length := by
  have hfirst := congrArg List.length h.map_fst_toList
  rwa [List.length_map, List.length_map] at hfirst

theorem getElem?_marks (h : ledger.Balanced) {position : ℕ}
    (hposition : position ≤ ledger.entries.length) :
    (0 :: ledger.urn.scale.marks.toList)[position]? = some (ledger.totalBefore position) := by
  have hlength : position ≤ ledger.weights.length := by rwa [weights, List.length_map]
  rw [h.marks, List.getElem?_scanl]
  exact if_pos hlength

theorem totalBefore_succ {position : ℕ} {item : α} {weight : Float}
    (hentry : ledger.entries[position]? = some (item, weight)) :
    ledger.totalBefore (position + 1) = ledger.totalBefore position + weight := by
  rw [totalBefore, List.take_add_one, getElem?_weights hentry, List.foldl_append]
  rfl

-- The weight of an entry is read off the marks on both sides of it.
theorem getElem?_toList (h : ledger.Balanced) {position : ℕ} {item : α} {weight : Float}
    (hentry : ledger.entries[position]? = some (item, weight)) :
    ledger.urn.toList[position]? =
      some (item, ledger.totalBefore position + weight - ledger.totalBefore position) := by
  obtain ⟨hposition, -⟩ := List.getElem?_eq_some_iff.mp hentry
  have hlow := h.getElem?_marks hposition.le
  have hhigh := h.getElem?_marks (Nat.succ_le_of_lt hposition)
  rw [List.getElem?_cons_succ, totalBefore_succ hentry] at hhigh
  rw [toList, List.getElem?_zip_eq_some, h.items, List.getElem?_map, hentry]
  exact ⟨rfl, Scale.getElem?_differences hlow hhigh⟩

end Balanced

end Ledger

-- An urn shows what it lists.
theorem display_eq (text : α → Text) (urn : Urn α) :
    urn.display text = '[' :: ['/'].intercalate (urn.toList.map fun entry =>
      text entry.1 ++ '*' :: Decimal.text entry.2) ++ [']'] := by
  rw [display, Scale.display, toList, List.zipWith_map_left, List.map_zip_eq_zipWith]
  rfl

-- An urn lists its items in the order in which they were put in. Each comes with
-- what the total grew by, rounded: with its very weight, where the sum was exact.
-- If no sum was rounded, what is listed and displayed is what was put in.
theorem toList_run (deposits : List (Deposit α)) :
    (Ledger.run deposits).urn.toList.map Prod.fst = (Ledger.run deposits).entries.map Prod.fst ∧
      (∀ position item weight,
        (Ledger.run deposits).entries[position]? = some (item, weight) →
          ∃ readback, (Ledger.run deposits).urn.toList[position]? = some (item, readback) ∧
            Scale.ReadsBack ((Ledger.run deposits).totalBefore position) weight readback) ∧
      ((∀ position item weight,
          (Ledger.run deposits).entries[position]? = some (item, weight) →
            Scale.Exact ((Ledger.run deposits).totalBefore position) weight) →
        (Ledger.run deposits).urn.toList = (Ledger.run deposits).entries ∧
          ∀ text : α → Text, (Ledger.run deposits).urn.display text =
            '[' :: ['/'].intercalate ((Ledger.run deposits).entries.map fun entry =>
              text entry.1 ++ '*' :: Decimal.text entry.2) ++ [']']) := by
  have h := Ledger.balanced_run deposits
  have hreadback : ∀ position item weight,
      (Ledger.run deposits).entries[position]? = some (item, weight) →
        ∃ readback, (Ledger.run deposits).urn.toList[position]? = some (item, readback) ∧
          Scale.ReadsBack ((Ledger.run deposits).totalBefore position) weight readback := by
    intro position item weight hentry
    exact ⟨_, h.getElem?_toList hentry,
      (Ledger.fitFrom_run deposits).readsBack Double.denotes_zero (Ledger.getElem?_weights hentry)⟩
  refine ⟨h.map_fst_toList, hreadback, fun hexact => ?_⟩
  have hlist : (Ledger.run deposits).urn.toList = (Ledger.run deposits).entries := by
    refine List.ext_getElem? fun position => ?_
    cases hentry : (Ledger.run deposits).entries[position]? with
    | none =>
      rw [List.getElem?_eq_none_iff] at hentry ⊢
      rwa [h.length_toList]
    | some entry =>
      obtain ⟨readback, hlisted, t, w, s, r, ht, hw, hs, -, -, -, hsame, -⟩ :=
        hreadback position entry.1 entry.2 hentry
      obtain ⟨t', w', ht', hw', hs'⟩ := hexact position entry.1 entry.2 hentry
      obtain rfl : t = t' := ht.2.symm.trans ht'.2
      obtain rfl : w = w' := hw.2.symm.trans hw'.2
      rw [hlisted, hsame (hs.2.symm.trans hs'.2)]
  refine ⟨hlist, fun text => ?_⟩
  rw [display_eq, hlist]

-- The doubles next to 0.1 and 0.2. Their sum lies between two doubles.
def tenths : List (Deposit Text) :=
  [.put (Float.ofBits 0x3FB999999999999A) "a".toList,
    .put (Float.ofBits 0x3FC999999999999A) "b".toList]

theorem toList_tenths :
    (Ledger.run tenths).entries =
        [("a".toList, Float.ofBits 0x3FB999999999999A),
          ("b".toList, Float.ofBits 0x3FC999999999999A)] ∧
      (Ledger.run tenths).urn.toList ≠ (Ledger.run tenths).entries ∧
      (Ledger.run tenths).urn.display id = "[a*0.1/b*0.20000000000000004]".toList := by
  decide +kernel

end Coinage.Urn
