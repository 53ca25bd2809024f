import Coinage.Proofs.Scale.Sound
import Coinage.Urn

namespace Coinage.Urn

variable {α : Type}

theorem total_push (urn : Urn α) (weight : Float) (item : α) :
    (urn.push weight item).total = urn.total + weight :=
  Scale.total_push urn.scale weight

-- A check comes before everything that changes the urn.
theorem run_checked (check : Urn α → Bool) (fault : Fault)
    (action : ExceptT Fault (StateM (Urn α)) Unit) (urn : Urn α) :
    (do
      unless check (← get) do
        throw fault
      action : ExceptT Fault (StateM (Urn α)) Unit).run urn =
      if check urn then action.run urn else (.error fault, urn) := by
  change (if check urn = true then _ else _ : ExceptT Fault (StateM (Urn α)) Unit).run urn = _
  split <;> rfl

theorem run_put (weight : Float) (item : α) (urn : Urn α) :
    (put weight item).run urn =
      if Scale.fits urn.total weight then
        (.ok (), urn.push weight item)
      else
        (.error (.invalidWeight weight), urn) :=
  run_checked (fun urn => Scale.fits urn.total weight) _ _ urn

theorem run_forM_push (weight : Float) (items : List α) (urn : Urn α) :
    (items.forM fun item => (modify (·.push weight item) : ExceptT Fault (StateM (Urn α)) Unit)).run
        urn = (.ok (), items.foldl (·.push weight ·) urn) := by
  induction items generalizing urn with
  | nil => rfl
  | cons item items ih => exact ih (urn.push weight item)

theorem run_putAll (weight : Float) (items : List α) (urn : Urn α) :
    (putAll weight items).run urn =
      if Scale.fitsTimes weight items.length urn.total then
        (.ok (), items.foldl (·.push weight ·) urn)
      else
        (.error (.invalidWeight weight), urn) := by
  rw [← run_forM_push]
  exact run_checked (fun urn => Scale.fitsTimes weight items.length urn.total) _ _ urn

theorem add_eq (weight : Float) (item : α) (urn : Urn α) :
    urn.add weight item =
      if Scale.fits urn.total weight then
        .ok (urn.push weight item)
      else
        .error (.invalidWeight weight) := by
  have hscale : urn.scale.add weight = if Scale.fits urn.total weight then
    .ok (urn.scale.push weight) else .error (.invalidWeight weight) := rfl
  unfold add
  by_cases hfits : Scale.fits urn.total weight = true
  · rw [if_pos hfits] at hscale ⊢
    split
    case h_1 fault hfault =>
      rw [hscale] at hfault
      cases hfault
    case h_2 scale hok =>
      rw [hscale] at hok
      cases hok
      rfl
  · rw [if_neg hfits] at hscale ⊢
    split
    case h_1 fault hfault =>
      rw [hscale] at hfault
      cases hfault
      rfl
    case h_2 scale hok =>
      rw [hscale] at hok
      cases hok

-- The urn that is left behind by `put` is the one that `add` gives.
theorem run_put_eq_add (weight : Float) (item : α) (urn : Urn α) :
    (put weight item).run urn =
      match urn.add weight item with
      | .ok next => (.ok (), next)
      | .error fault => (.error fault, urn) := by
  rw [run_put, add_eq]
  split <;> rfl

-- A call that puts items into an urn.
inductive Deposit (α : Type) where
  | put (weight : Float) (item : α)
  | putAll (weight : Float) (items : List α)

namespace Deposit

def weight : Deposit α → Float
  | put weight _ => weight
  | putAll weight _ => weight

def items : Deposit α → List α
  | put _ item => [item]
  | putAll _ items => items

def call : Deposit α → ExceptT Fault (StateM (Urn α)) Unit
  | put weight item => Urn.put weight item
  | putAll weight items => Urn.putAll weight items

-- One item is put in as a list of one item is.
theorem run_call (deposit : Deposit α) (urn : Urn α) :
    deposit.call.run urn =
      if Scale.fitsTimes deposit.weight deposit.items.length urn.total then
        (.ok (), deposit.items.foldl (·.push deposit.weight ·) urn)
      else
        (.error (.invalidWeight deposit.weight), urn) := by
  cases deposit with
  | put weight item =>
    change (Urn.put weight item).run urn =
      if Scale.fitsTimes weight 1 urn.total then _ else _
    rw [run_put, Scale.fitsTimes_one]
    rfl
  | putAll weight items => exact run_putAll weight items urn

end Deposit

-- An urn, and what was put into it since it was empty: each item with its weight,
-- in the order of the calls that succeeded.
structure Ledger (α : Type) where
  urn : Urn α
  entries : List (α × Float)

namespace Ledger

def start : Ledger α :=
  ⟨.empty, []⟩

def step (ledger : Ledger α) (deposit : Deposit α) : Ledger α :=
  match deposit.call.run ledger.urn with
  | (.ok (), urn) => ⟨urn, ledger.entries ++ deposit.items.map (·, deposit.weight)⟩
  | (.error _, urn) => ⟨urn, ledger.entries⟩

def run (deposits : List (Deposit α)) : Ledger α :=
  deposits.foldl step start

-- The marks are the running totals of the weights, and they increase.
structure Balanced (ledger : Ledger α) : Prop where
  sound : ledger.urn.scale.Sound
  marks : 0 :: ledger.urn.scale.marks.toList = (ledger.entries.map Prod.snd).scanl (· + ·) 0
  items : ledger.urn.items.toList = ledger.entries.map Prod.fst

theorem balanced_start : (start : Ledger α).Balanced :=
  ⟨.empty, rfl, rfl⟩

namespace Balanced

variable {ledger : Ledger α}

theorem total_eq (h : ledger.Balanced) :
    ledger.urn.total = (ledger.entries.map Prod.snd).foldl (· + ·) 0 := by
  have hlast := h.sound.last
  rw [h.marks, List.getLast?_scanl, Option.some.injEq] at hlast
  exact hlast.symm

-- An item whose weight fits is one more entry.
theorem push (h : ledger.Balanced) {weight : Float}
    (hfits : Scale.fits ledger.urn.total weight = true) (item : α) :
    Balanced ⟨ledger.urn.push weight item, ledger.entries ++ [(item, weight)]⟩ where
  sound := h.sound.push hfits
  marks := by
    have hmarks : (ledger.urn.push weight item).scale.marks.toList =
        ledger.urn.scale.marks.toList ++ [ledger.urn.total + weight] :=
      Scale.toList_marks_push _ _
    rw [hmarks, ← List.cons_append, h.marks, List.map_append, List.scanl_append, ← h.total_eq]
    rfl
  items := by
    rw [Urn.push, Array.toList_push, h.items, List.map_append]
    rfl

theorem pushAll {weight : Float} {items : List α} (h : ledger.Balanced)
    (hfits : Scale.fitsTimes weight items.length ledger.urn.total = true) :
    Balanced ⟨items.foldl (·.push weight ·) ledger.urn,
      ledger.entries ++ items.map (·, weight)⟩ := by
  induction items generalizing ledger with
  | nil => simpa using h
  | cons item items ih =>
    rw [List.length_cons, Scale.fitsTimes, Bool.and_eq_true] at hfits
    obtain ⟨hfirst, hrest⟩ := hfits
    rw [← ledger.urn.total_push weight item] at hrest
    simpa using ih (h.push hfirst item) hrest

-- A call keeps a ledger balanced, whether it succeeds or not.
theorem step (h : ledger.Balanced) (deposit : Deposit α) : (ledger.step deposit).Balanced := by
  rw [Ledger.step, deposit.run_call]
  by_cases hfits : Scale.fitsTimes deposit.weight deposit.items.length ledger.urn.total = true
  · rw [if_pos hfits]
    exact h.pushAll hfits
  · rw [if_neg hfits]
    exact h

theorem foldl (h : ledger.Balanced) (deposits : List (Deposit α)) :
    (deposits.foldl Ledger.step ledger).Balanced := by
  induction deposits generalizing ledger with
  | nil => exact h
  | cons deposit deposits ih => exact ih (h.step deposit)

theorem map_fst_toList (h : ledger.Balanced) :
    ledger.urn.toList.map Prod.fst = ledger.entries.map Prod.fst := by
  have hlength : ledger.urn.items.toList.length ≤ ledger.urn.scale.weights.length := by
    rw [Scale.weights, Scale.length_differences]
    exact ledger.urn.size_items.le
  rw [toList, List.map_fst_zip hlength, h.items]

theorem weight_pos (h : ledger.Balanced) {entry : α × Float} (hentry : entry ∈ ledger.urn.toList) :
    0 < entry.2 :=
  h.sound.weight_pos (List.of_mem_zip hentry).2

end Balanced

theorem balanced_run (deposits : List (Deposit α)) : (run deposits).Balanced :=
  balanced_start.foldl deposits

end Ledger

-- Whatever weights are offered, the marks of an urn are finite, positive and
-- increasing, and the last one is the total. They are the running totals of the
-- weights that were accepted, and the items are those that came with them. A call
-- succeeds if its weight fits each running total. Else it names the weight and
-- leaves the urn as it was.
theorem run_invariant (deposits : List (Deposit α)) :
    (∀ mark ∈ (Ledger.run deposits).urn.scale.marks.toList, mark.isFinite = true ∧ 0 < mark) ∧
      (Ledger.run deposits).urn.scale.marks.toList.Pairwise (· < ·) ∧
      (0 :: (Ledger.run deposits).urn.scale.marks.toList).getLast? =
        some (Ledger.run deposits).urn.total ∧
      0 :: (Ledger.run deposits).urn.scale.marks.toList =
        ((Ledger.run deposits).entries.map Prod.snd).scanl (· + ·) 0 ∧
      (Ledger.run deposits).urn.items.toList = (Ledger.run deposits).entries.map Prod.fst ∧
      (Ledger.run deposits).urn.toList.map Prod.fst = (Ledger.run deposits).entries.map Prod.fst ∧
      (∀ entry ∈ (Ledger.run deposits).urn.toList, 0 < entry.2) ∧
      ∀ deposit : Deposit α,
        ((deposit.call.run (Ledger.run deposits).urn).1 = .ok () ↔
          ∀ i < deposit.items.length,
            Scale.fits ((· + deposit.weight)^[i] (Ledger.run deposits).urn.total)
              deposit.weight = true) ∧
          ∀ fault urn, deposit.call.run (Ledger.run deposits).urn = (.error fault, urn) →
            fault = .invalidWeight deposit.weight ∧ urn = (Ledger.run deposits).urn := by
  have h := Ledger.balanced_run deposits
  refine ⟨fun mark hmark => ⟨h.sound.isFinite_of_mem hmark, h.sound.pos_of_mem hmark⟩,
    (List.pairwise_cons.mp h.sound.increasing).2, h.sound.last, h.marks, h.items,
    h.map_fst_toList, fun entry hentry => h.weight_pos hentry, fun deposit => ⟨?_, ?_⟩⟩
  · rw [deposit.run_call, ← Scale.fitsTimes_iff]
    split
    case isTrue hfits => exact iff_of_true rfl hfits
    case isFalse hfits => exact iff_of_false nofun hfits
  · intro fault urn hrun
    rw [deposit.run_call] at hrun
    split at hrun
    · cases hrun
    · cases hrun
      exact ⟨rfl, rfl⟩

end Coinage.Urn
