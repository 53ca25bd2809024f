import Coinage.Proofs.Cursor.Parts
import Coinage.Proofs.Scale.Whole

namespace Coinage

namespace Urn

variable {α : Type}

-- The urn of items with whole weights.
def ofCounts (entries : List (Nat × α)) : Urn α where
  scale := .ofCounts (entries.map Prod.fst)
  items := (entries.map Prod.snd).toArray
  size_items := by simp [Scale.size_ofCounts]

theorem add_ofCounts (entries : List (Nat × α)) (entry : Nat × α)
    (h : Scale.Countable 0 ((entries ++ [entry]).map Prod.fst)) :
    (ofCounts entries).add (Float.ofNat entry.1) entry.2 = .ok (ofCounts (entries ++ [entry])) := by
  rw [List.map_append] at h
  have hscale : (ofCounts entries).scale.add (Float.ofNat entry.1) = .ok _ := Scale.add_ofCounts h
  unfold add
  split
  · rename_i hfault
    rw [hscale] at hfault
    cases hfault
  · rename_i hok
    rw [hscale] at hok
    cases hok
    simp [ofCounts]

end Urn

namespace Recipe

-- A choice that is left: between two alternatives at least, or between one and
-- the empty text.
def among (optional : Bool) (suffixes : List (Option Text)) (recipes : List Recipe) : Recipe :=
  let choices := recipes ++ if optional then [.literal []] else []
  if suffixes.any Option.isSome then
    .weighted (Scale.ofCounts (counts optional suffixes)) choices
  else
    .uniform choices

theorem ofUrn_ofCounts (entries : List (Nat × Recipe)) :
    ofUrn (.ofCounts entries) =
      .weighted (Scale.ofCounts (entries.map Prod.fst)) (entries.map Prod.snd) := rfl

-- The alternatives with their weights, and the empty one of an optional group.
def entries (optional : Bool) (suffixes : List (Option Text)) (recipes : List Recipe) :
    List (Nat × Recipe) :=
  (suffixes.map suffixValue).zip recipes ++
    if optional then [(Pattern.unstatedWeight, .literal [])] else []

theorem map_fst_entries (optional : Bool) {suffixes : List (Option Text)} {recipes : List Recipe}
    (h : recipes.length = suffixes.length) :
    (entries optional suffixes recipes).map Prod.fst = counts optional suffixes := by
  have hzip : ((suffixes.map suffixValue).zip recipes).map Prod.fst = suffixes.map suffixValue :=
    List.map_fst_zip (by simp [h])
  cases optional <;> simp [entries, counts, hzip, Pattern.unstatedWeight]

theorem map_snd_entries (optional : Bool) {suffixes : List (Option Text)} {recipes : List Recipe}
    (h : recipes.length = suffixes.length) :
    (entries optional suffixes recipes).map Prod.snd =
      recipes ++ if optional then [.literal []] else [] := by
  have hzip : ((suffixes.map suffixValue).zip recipes).map Prod.snd = recipes :=
    List.map_snd_zip (by simp [h])
  cases optional <;> simp [entries, hzip]

theorem among_of_weighted (optional : Bool) {suffixes : List (Option Text)}
    (hweighted : suffixes.any Option.isSome = true) {recipes : List Recipe}
    (h : recipes.length = suffixes.length) :
    among optional suffixes recipes = .ofUrn (.ofCounts (entries optional suffixes recipes)) := by
  rw [ofUrn_ofCounts, map_fst_entries optional h, map_snd_entries optional h, among,
    if_pos hweighted]

end Recipe

namespace Closers

section Choose

variable {closers : Closers} {context : Context} {interior : Bool → Cursor → Logged Trap Recipe}
  {room : Nat} {fragments : List Fragment} {pattern : Pattern}

theorem any_weight (h : Splits closers room fragments pattern) :
    fragments.any (·.weight.isSome) = pattern.suffixes.any Option.isSome := by
  induction h with
  | nil => rfl
  | cons hbody hweight hrest ih =>
    rw [List.any_cons, ih, hweight, Option.isSome_map, Pattern.suffixes, List.any_cons]

theorem length_fragments (h : Splits closers room fragments pattern) :
    fragments.length = pattern.suffixes.length := by
  induction h with
  | nil => rfl
  | cons hbody hweight hrest ih => rw [List.length_cons, ih, Pattern.suffixes, List.length_cons]

theorem length_of_result_recipes (h : Splits closers room fragments pattern) :
    ∀ recipes, (pattern.recipes context).result = .ok recipes →
      recipes.length = pattern.suffixes.length := by
  induction h with
  | nil =>
    intro recipes hrecipes
    cases hrecipes
    rfl
  | cons hbody hweight hrest ih =>
    intro recipes hrecipes
    rw [Pattern.result_recipes_cons] at hrecipes
    obtain ⟨parts, -, hmore⟩ := except_bind_eq_ok.mp hrecipes
    obtain ⟨others, hothers, rfl⟩ := except_map_eq_ok.mp hmore
    rw [List.length_cons, ih others hothers]
    rfl

theorem mapM_compileBody (hinterior : CompilesAsRead closers context room interior)
    (h : Splits closers (room + 1) fragments pattern) :
    (fragments.mapM fun fragment => closers.compileBody context interior fragment.body) =
      (pattern.recipes context).mapError .fault := by
  induction h with
  | nil => rfl
  | cons hbody hweight hrest ih =>
    rw [List.mapM_cons, ih, compileBody_eq hinterior hbody, Pattern.recipes]
    simp

theorem getD_weight {fragment : Fragment} {suffix : Option Text}
    (h : fragment.weight = suffix.map fun digits => Pattern.weight (some digits)) :
    fragment.weight.getD Pattern.unstatedWeight = suffixValue suffix := by
  rw [h, ← Pattern.weight_eq_suffixValue]
  cases suffix <;> rfl

-- The alternatives are compiled and weighed in turn, and no weight is refused.
theorem weigh_eq (hinterior : CompilesAsRead closers context room interior)
    (h : Splits closers (room + 1) fragments pattern) : ∀ entries : List (Nat × Recipe),
    Scale.Countable 0 (entries.map Prod.fst ++ pattern.suffixes.map suffixValue) →
    closers.weigh context interior fragments (.ofCounts entries) =
      (fun recipes => Urn.ofCounts (entries ++ (pattern.suffixes.map suffixValue).zip recipes)) <$>
        (pattern.recipes context).mapError .fault := by
  induction h with
  | nil =>
    intro entries hcountable
    rw [weigh, Pattern.recipes]
    simp
  | @cons fragment body suffix fragments rest hbody hweight hrest ih =>
    intro entries hcountable
    rw [weigh, compileBody_eq hinterior hbody, Pattern.recipes, getD_weight hweight]
    simp only [Logged.mapError_bind, Logged.mapError_map, map_bind, bind_map_left]
    apply bind_congr
    intro parts
    let entry := (suffixValue suffix, Recipe.ofParts parts)
    have hmore : Scale.Countable 0
        ((entries ++ [entry]).map Prod.fst ++ rest.suffixes.map suffixValue) := by
      simpa [Pattern.suffixes, entry] using hcountable
    have hadd := Urn.add_ofCounts entries entry hmore.left
    have hrecipes := ih (entries ++ [entry]) hmore
    show Logged.ofResult (((Urn.ofCounts entries).add (Float.ofNat entry.1) entry.2).mapError
      .fault) >>= closers.weigh context interior fragments = _
    rw [hadd, except_mapError_ok, Logged.ofResult_ok, pure_bind, hrecipes]
    simp [Pattern.suffixes, entry]

theorem weigh_empty (hinterior : CompilesAsRead closers context room interior)
    (h : Splits closers (room + 1) fragments pattern)
    (hlength : pattern.suffixes.length < sizeLimit) :
    closers.weigh context interior fragments .empty =
      (fun recipes => Urn.ofCounts ((pattern.suffixes.map suffixValue).zip recipes)) <$>
        (pattern.recipes context).mapError .fault := by
  have hcountable := Recipe.countable_counts false hlength
  exact weigh_eq hinterior h [] hcountable.left

theorem chooseAmong_eq (hinterior : CompilesAsRead closers context room interior)
    (h : Splits closers (room + 1) fragments pattern)
    (hlength : pattern.suffixes.length < sizeLimit) (optional : Bool) :
    closers.chooseAmong context interior optional fragments =
      Recipe.among optional pattern.suffixes <$> (pattern.recipes context).mapError .fault := by
  rw [chooseAmong, any_weight h]
  by_cases hweighted : pattern.suffixes.any Option.isSome = true
  · rw [if_pos hweighted, weigh_empty hinterior h hlength, bind_map_left, ← bind_pure_comp]
    apply Logged.bind_congr_of_ok
    intro recipes hrecipes
    have hsame :=
      length_of_result_recipes h recipes ((Logged.result_mapError_eq_ok_iff _).mp hrecipes)
    rw [Recipe.among_of_weighted optional hweighted hsame]
    cases optional with
    | false => simp [Recipe.entries]
    | true =>
      have hcountable := Recipe.countable_counts true hlength
      rw [← Recipe.map_fst_entries true hsame] at hcountable
      have hadd := Urn.add_ofCounts ((pattern.suffixes.map suffixValue).zip recipes)
        (Pattern.unstatedWeight, .literal []) hcountable
      show Logged.ofResult (((Urn.ofCounts ((pattern.suffixes.map suffixValue).zip recipes)).add
        (Float.ofNat Pattern.unstatedWeight) (.literal [])).mapError Trap.fault) >>=
          (fun urn => pure (Recipe.ofUrn urn)) = _
      rw [hadd]
      rfl
  · have hamong : Recipe.among optional pattern.suffixes = fun recipes =>
        .uniform (recipes ++ if optional then [.literal []] else []) := by
      funext recipes
      exact if_neg hweighted
    rw [if_neg hweighted, mapM_compileBody hinterior h, hamong, bind_pure_comp]

-- What is noted about a split are the alternatives as they are read.
theorem note_split (h : Splits closers room fragments pattern) (optional : Bool) :
    (Logged.note (.split fragments.length optional (fragments.any (·.weight.isSome))) :
      Logged Trap Unit) = (pattern.noteSplit optional).mapError .fault := by
  rw [length_fragments h, any_weight h]
  rfl

-- Whatever choice is left, it is the one between the alternatives as they are
-- read.
theorem choose_eq (hinterior : CompilesAsRead closers context room interior)
    (h : Splits closers (room + 1) fragments pattern)
    (hlength : pattern.suffixes.length < sizeLimit) (optional : Bool) :
    closers.choose context interior optional fragments =
      Recipe.choice optional pattern.suffixes <$> (pattern.recipes context).mapError .fault := by
  have hamong := chooseAmong_eq hinterior h hlength optional
  cases h with
  | nil => rfl
  | @cons first body suffix others rest hbody hweight hrest =>
    cases hrest with
    | nil =>
      cases optional with
      | false =>
        rw [choose, compileBody_eq hinterior hbody, Pattern.recipes]
        simp [Pattern.recipes, Recipe.choice]
      | true =>
        change closers.choose context interior true [first] = _ at hamong
        rw [hamong]
        simp [Pattern.recipes, Recipe.choice, Recipe.among]
    | @cons second nextBody _ others rest =>
      have hchoose : closers.choose context interior optional (first :: second :: others) =
          closers.chooseAmong context interior optional (first :: second :: others) := by
        cases optional <;> rfl
      rw [hchoose, hamong]
      simp [Pattern.recipes, Recipe.choice, Recipe.among]

end Choose

end Closers

end Coinage
