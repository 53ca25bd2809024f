import Coinage.Proofs.Recipe.Flatten

namespace Coinage

-- A small whole number is written without a point.
theorem Decimal.text_ofNat {n : ℕ} (h : n ≤ 128) : Decimal.text (Float.ofNat n) = Text.ofNat n := by
  have hall : ∀ n : Fin 129, Decimal.text (Float.ofNat n) = Text.ofNat n := by decide +kernel
  exact hall ⟨n, by omega⟩

theorem Text.isDigit_of_mem_ofNat {n : ℕ} {c : Char} (h : c ∈ Text.ofNat n) : c.isDigit :=
  Nat.isDigit_of_mem_toDigits (by decide) (Nat.le_refl 10) h

namespace Recipe

-- The alternatives of a choice, each with its weight if it has one.
def offers : Recipe → List (Recipe × Option Text)
  | uniform choices => choices.map fun choice => (choice, none)
  | weighted scale choices =>
    choices.zip (scale.weights.map fun weight => some (Decimal.text weight))
  | _ => []

def offerText (offer : Recipe × Option Text) : Text :=
  offer.1.display ++ suffixText offer.2

theorem display_of_offers {recipe : Recipe} (h : recipe.offers ≠ []) :
    recipe.display = '[' :: ['/'].intercalate (recipe.offers.map offerText) ++ [']'] := by
  cases recipe with
  | literal text | sequence parts => exact absurd rfl h
  | uniform choices =>
    have hplain : offerText ∘ (fun choice => (choice, none)) = display :=
      funext fun choice => List.append_nil _
    rw [display, displays_eq_map, offers, List.map_map, hplain]
  | weighted scale choices =>
    rw [display, Scale.display, displays_eq_map, offers, List.map_zip_eq_zipWith,
      List.zipWith_map_left, List.zipWith_map_right]
    rfl

theorem fst_mem_of_mem_uniform {choices : List Recipe} :
    ∀ offer ∈ (uniform choices).offers, offer.1 ∈ choices := by
  intro offer ho
  obtain ⟨choice, hc, rfl⟩ := List.mem_map.mp ho
  exact hc

theorem fst_mem_of_mem_weighted {scale : Scale} {choices : List Recipe} :
    ∀ offer ∈ (weighted scale choices).offers, offer.1 ∈ choices :=
  fun _ ho => (List.of_mem_zip ho).1

theorem everywhere_of_mem_offers {condition : Recipe → Prop} {recipe : Recipe}
    (h : recipe.Everywhere condition) : ∀ offer ∈ recipe.offers, offer.1.Everywhere condition := by
  intro offer ho
  cases recipe with
  | literal text | sequence parts => exact absurd ho List.not_mem_nil
  | uniform choices => exact everywhere_of_mem h.2 _ (fst_mem_of_mem_uniform offer ho)
  | weighted scale choices => exact everywhere_of_mem h.2 _ (fst_mem_of_mem_weighted offer ho)

section Proper

variable {limit : ℕ} {counts : List ℕ}

theorem offers_ofCounts (h : Scale.Countable 0 counts) (choices : List Recipe) :
    (weighted (Scale.ofCounts counts) choices).offers =
      choices.zip (counts.map fun count => some (Text.ofNat count)) := by
  rw [offers, Scale.weights_ofCounts h, List.map_map]
  refine congrArg choices.zip (List.map_congr_left fun count hc => ?_)
  exact congrArg some (Decimal.text_ofNat (h.1 count hc).2)

theorem map_fst_offers_ofCounts (h : Scale.Countable 0 counts) {choices : List Recipe}
    (hlength : counts.length = choices.length) :
    (weighted (Scale.ofCounts counts) choices).offers.map Prod.fst = choices := by
  rw [offers_ofCounts h]
  exact List.map_fst_zip (by simp [hlength])

theorem map_snd_offers_ofCounts (h : Scale.Countable 0 counts) {choices : List Recipe}
    (hlength : counts.length = choices.length) :
    (weighted (Scale.ofCounts counts) choices).offers.map Prod.snd =
      counts.map fun count => some (Text.ofNat count) := by
  rw [offers_ofCounts h]
  exact List.map_snd_zip (by simp [hlength])

-- What is no sequence is a text or has alternatives.
theorem Proper.literal_or_offers {recipe : Recipe} (h : recipe.Proper limit)
    (hatom : recipe.parts = [recipe]) : (∃ text, recipe = literal text) ∨ recipe.offers ≠ [] := by
  cases recipe with
  | literal text => exact .inl ⟨text, rfl⟩
  | sequence parts => exact absurd hatom (h.parts_ne_singleton _)
  | uniform choices =>
    refine .inr (List.ne_nil_of_length_pos ?_)
    rw [offers, List.length_map]
    exact Nat.zero_lt_of_lt h.1
  | weighted scale choices =>
    obtain ⟨counts, rfl, hlength, htwo, -, hcounts⟩ := h
    refine .inr (List.ne_nil_of_length_pos ?_)
    rw [← List.length_map Prod.fst, map_fst_offers_ofCounts hcounts hlength]
    omega

theorem Proper.isDigit_of_mem_offers {recipe : Recipe} (h : recipe.Proper limit) :
    ∀ offer ∈ recipe.offers, ∀ digits, offer.2 = some digits → ∀ c ∈ digits, c.isDigit := by
  intro offer ho digits hdigits
  cases recipe with
  | literal text | sequence parts => exact absurd ho List.not_mem_nil
  | uniform choices =>
    obtain ⟨choice, -, rfl⟩ := List.mem_map.mp ho
    cases hdigits
  | weighted scale choices =>
    obtain ⟨counts, rfl, hlength, -, -, hcounts⟩ := h
    have hmem := List.mem_map_of_mem (f := Prod.snd) ho
    rw [map_snd_offers_ofCounts hcounts hlength, hdigits] at hmem
    obtain ⟨count, -, hcount⟩ := List.mem_map.mp hmem
    cases hcount
    exact fun c => Text.isDigit_of_mem_ofNat

-- The numbers that suffixes write.
def suffixCounts (suffixes : List (Option Text)) : List ℕ :=
  suffixes.filterMap (Option.map fun digits => Nat.ofDigitChars 10 digits 0)

theorem suffixCounts_ofNat (counts : List ℕ) :
    suffixCounts (counts.map fun count => some (Text.ofNat count)) = counts := by
  have hvalue : (Option.map fun digits => Nat.ofDigitChars 10 digits 0) ∘
      (fun count => some (Text.ofNat count)) = some :=
    funext fun _ => congrArg some Nat.ofDigitChars_ten_toDigits
  rw [suffixCounts, List.filterMap_map, hvalue, List.filterMap_some]

-- The choice that alternatives with or without weights make.
def ofOffers (offers : List (Recipe × Option Text)) : Recipe :=
  match suffixCounts (offers.map Prod.snd) with
  | [] => uniform (offers.map Prod.fst)
  | counts => weighted (Scale.ofCounts counts) (offers.map Prod.fst)

-- A choice is known by its alternatives.
theorem ofOffers_offers {recipe : Recipe} (h : recipe.Proper limit) (hne : recipe.offers ≠ []) :
    ofOffers recipe.offers = recipe := by
  cases recipe with
  | literal text | sequence parts => exact absurd rfl hne
  | uniform choices =>
    have hnone : suffixCounts ((uniform choices).offers.map Prod.snd) = [] := by
      simp [offers, suffixCounts]
    have hfst : (uniform choices).offers.map Prod.fst = choices := by
      simp [offers, Function.comp_def]
    rw [ofOffers, hnone, hfst]
  | weighted scale choices =>
    obtain ⟨counts, rfl, hlength, htwo, -, hcounts⟩ := h
    rw [ofOffers, map_snd_offers_ofCounts hcounts hlength, suffixCounts_ofNat,
      map_fst_offers_ofCounts hcounts hlength]
    cases counts with
    | nil => simp at htwo
    | cons count counts => rfl

end Proper

end Recipe

end Coinage
