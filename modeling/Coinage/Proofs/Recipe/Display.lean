import Coinage.Proofs.Recipe.Offers

namespace Coinage.Recipe

-- What comes after an alternative and its weight.
def Closes (text : Text) : Prop :=
  text.head? = some '/' ∨ text.head? = some ']'

theorem closes_row (rest : Text) (texts : List Text) :
    Closes (Text.row ['/'] (']' :: rest) texts) := by
  cases texts with
  | nil => exact .inr rfl
  | cons text texts => exact .inl rfl

theorem not_slash_begins (rest : Text) : ¬['/'] <+: ']' :: rest :=
  fun ⟨_, h⟩ => absurd (List.cons.inj h).1 (by decide)

theorem Closes.takeWhile_isDigit {text : Text} (h : Closes text) :
    text.takeWhile Char.isDigit = [] := by
  cases text with
  | nil => rfl
  | cons c rest =>
    rcases h with hslash | hend
    · cases hslash
      rfl
    · cases hend
      rfl

theorem Closes.head?_ne_star {text : Text} (h : Closes text) : text.head? ≠ some '*' := by
  rcases h with hslash | hend
  · rw [hslash]
    decide
  · rw [hend]
    decide

theorem Closes.not_joint_begins {text : Text} (h : Closes text) (suffix : Option Text) :
    ¬joint <+: suffixText suffix ++ text := by
  rintro ⟨rest, hrest⟩
  have hhead := congrArg List.head? hrest
  cases suffix with
  | none =>
    rcases h with hslash | hend
    · rw [suffixText, List.nil_append, hslash] at hhead
      cases hhead
    · rw [suffixText, List.nil_append, hend] at hhead
      cases hhead
  | some digits => cases hhead

theorem eq_of_suffixText_eq {suffix other : Option Text} {rest rest' : Text}
    (hdigits : ∀ digits, suffix = some digits → ∀ c ∈ digits, c.isDigit)
    (hdigits' : ∀ digits, other = some digits → ∀ c ∈ digits, c.isDigit)
    (hrest : Closes rest) (hrest' : Closes rest')
    (h : suffixText suffix ++ rest = suffixText other ++ rest') :
    suffix = other ∧ rest = rest' := by
  cases suffix with
  | none =>
    cases other with
    | none => exact ⟨rfl, h⟩
    | some digits => exact absurd (congrArg List.head? h) hrest.head?_ne_star
  | some digits =>
    cases other with
    | none => exact absurd (congrArg List.head? h).symm hrest'.head?_ne_star
    | some digits' =>
      obtain ⟨rfl, hsame⟩ := Text.eq_of_append_eq (hdigits digits rfl) (hdigits' digits' rfl)
        hrest.takeWhile_isDigit hrest'.takeWhile_isDigit (List.cons.inj h).2
      exact ⟨rfl, hsame⟩

section Reading

variable {limit : ℕ}

-- The display tells a recipe from all others that are no sequence, whatever follows.
def Separates (limit : ℕ) (recipe : Recipe) : Prop :=
  ∀ other : Recipe, other.Everywhere (Normal limit) → other.parts = [other] →
    ∀ rest rest', recipe.display ++ rest = other.display ++ rest' → recipe = other ∧ rest = rest'

-- A sequence ends where no further part follows.
theorem eq_of_display_eq {first second : Recipe} (hfirst : first.Everywhere (Normal limit))
    (hsecond : second.Everywhere (Normal limit)) (hparts : ∀ part ∈ first.parts, part.Separates limit)
    {rest rest' : Text} (hrest : ¬joint <+: rest) (hrest' : ¬joint <+: rest')
    (h : first.display ++ rest = second.display ++ rest') : first = second ∧ rest = rest' := by
  have hrow : Text.row joint rest (first.parts.map display) =
      Text.row joint rest' (second.parts.map display) := by
    rw [← append_display _ _ hfirst.self.1.length_parts_pos,
      ← append_display _ _ hsecond.self.1.length_parts_pos, List.append_assoc, List.append_assoc, h]
  have hitem : ∀ part ∈ first.parts, ∀ part' ∈ second.parts, ∀ rest rest', True → True →
      part.display ++ rest = part'.display ++ rest' → part = part' ∧ rest = rest' := by
    intro part hp part' hp' rest rest' _ _
    exact hparts part hp part' (everywhere_of_mem hsecond.parts part' hp')
      (hsecond.self.parts_of_mem_parts part' hp') rest rest'
  obtain ⟨hsame, hclosing⟩ := Text.eq_of_row_eq (fun _ => True) (fun _ => trivial)
    (fun _ => trivial) hrest hrest' hitem hrow
  exact ⟨hfirst.self.1.eq_of_parts_eq hsecond.self.1 hsame, hclosing⟩

theorem separates_literal {text : Text} (h : '"' ∉ text) : (literal text).Separates limit := by
  intro other hother hatom rest rest' heq
  rcases hother.self.1.literal_or_offers hatom with ⟨text', rfl⟩ | hoffers
  · have hquote : ∀ text : Text, '"' ∉ text → ∀ c ∈ text, (c != '"') = true := by
      intro text hq c hc
      exact bne_iff_ne.mpr fun heq => hq (heq ▸ hc)
    simp only [display, List.cons_append, List.append_assoc] at heq
    obtain ⟨rfl, hclose⟩ := Text.eq_of_append_eq (hquote text h) (hquote text' hother.self.1) rfl rfl
      (List.cons.inj heq).2
    exact ⟨rfl, (List.cons.inj hclose).2⟩
  · rw [display_of_offers hoffers] at heq
    exact absurd (List.cons.inj heq).1 (by decide)

-- An alternative is read in one way only, with its weight.
theorem eq_of_offerText_eq {first second : Recipe} (hfirst : first.Everywhere (Normal limit))
    (hsecond : second.Everywhere (Normal limit))
    (hoffers : ∀ offer ∈ first.offers, ∀ part ∈ offer.1.parts, part.Separates limit) :
    ∀ offer ∈ first.offers, ∀ offer' ∈ second.offers, ∀ rest rest', Closes rest → Closes rest' →
      offerText offer ++ rest = offerText offer' ++ rest' → offer = offer' ∧ rest = rest' := by
  intro offer ho offer' ho' rest rest' hrest hrest' h
  rw [offerText, offerText, List.append_assoc, List.append_assoc] at h
  obtain ⟨hfst, hsuffix⟩ := eq_of_display_eq (everywhere_of_mem_offers hfirst offer ho)
    (everywhere_of_mem_offers hsecond offer' ho') (hoffers offer ho)
    (hrest.not_joint_begins _) (hrest'.not_joint_begins _) h
  obtain ⟨hsnd, hsame⟩ := eq_of_suffixText_eq (hfirst.self.1.isDigit_of_mem_offers offer ho)
    (hsecond.self.1.isDigit_of_mem_offers offer' ho') hrest hrest' hsuffix
  exact ⟨Prod.ext hfst hsnd, hsame⟩

theorem row_offers {recipe : Recipe} (h : recipe.offers ≠ []) (rest : Text) :
    Text.row ['/'] (']' :: rest) (recipe.offers.map offerText) =
      '/' :: (recipe.display.tail ++ rest) := by
  rw [← Text.append_intercalate _ _ (by simpa using h), display_of_offers h]
  simp

theorem separates_choice {recipe : Recipe} (hrecipe : recipe.Everywhere (Normal limit))
    (hatom : recipe.parts = [recipe]) (hchoice : ∀ text, recipe ≠ literal text)
    (hoffers : ∀ offer ∈ recipe.offers, ∀ part ∈ offer.1.parts, part.Separates limit) :
    recipe.Separates limit := by
  have hne : recipe.offers ≠ [] :=
    (hrecipe.self.1.literal_or_offers hatom).resolve_left fun ⟨text, ht⟩ => hchoice text ht
  intro other hother hatom' rest rest' heq
  rcases hother.self.1.literal_or_offers hatom' with ⟨text', rfl⟩ | hne'
  · rw [display_of_offers hne] at heq
    exact absurd (List.cons.inj heq).1 (by decide)
  · have hinside : recipe.display.tail ++ rest = other.display.tail ++ rest' := by
      rw [display_of_offers hne, display_of_offers hne'] at heq ⊢
      exact (List.cons.inj heq).2
    have hrow := (row_offers hne rest).trans
      ((congrArg ('/' :: ·) hinside).trans (row_offers hne' rest').symm)
    obtain ⟨hsame, hclosing⟩ := Text.eq_of_row_eq Closes (closes_row rest) (closes_row rest')
      (not_slash_begins rest) (not_slash_begins rest')
      (eq_of_offerText_eq hrecipe hother hoffers) hrow
    rw [← ofOffers_offers hrecipe.self.1 hne, hsame, ofOffers_offers hother.self.1 hne']
    exact ⟨rfl, (List.cons.inj hclosing).2⟩

mutual

-- The end of a sequence depends on what follows, so the parts of a sequence are
-- told apart here, and the sequence only where it stands.
theorem separates_parts : (recipe : Recipe) → recipe.Everywhere (Normal limit) →
    ∀ part ∈ recipe.parts, part.Separates limit
  | literal text, h => List.forall_mem_singleton.mpr (separates_literal h.1)
  | sequence parts, h => by
    intro part hp
    refine separates_parts_of_mem parts h.2 part hp part ?_
    rw [h.1.2 part hp]
    exact List.mem_cons_self
  | uniform choices, h => by
    refine List.forall_mem_singleton.mpr (separates_choice h rfl nofun fun offer ho => ?_)
    exact separates_parts_of_mem choices h.2 offer.1 (fst_mem_of_mem_uniform offer ho)
  | weighted scale choices, h => by
    refine List.forall_mem_singleton.mpr (separates_choice h rfl nofun fun offer ho => ?_)
    exact separates_parts_of_mem choices h.2 offer.1 (fst_mem_of_mem_weighted offer ho)

theorem separates_parts_of_mem : (recipes : List Recipe) → EverywhereIn (Normal limit) recipes →
    ∀ recipe ∈ recipes, ∀ part ∈ recipe.parts, part.Separates limit
  | [], _ => List.forall_mem_nil _
  | recipe :: recipes, h =>
    List.forall_mem_cons.mpr ⟨separates_parts recipe h.1, separates_parts_of_mem recipes h.2⟩

end

-- Recipes that are displayed alike are equal apart from nested sequences.
theorem flatten_eq_of_display_eq {first second : Recipe} (hfirst : first.Everywhere (Proper limit))
    (hsecond : second.Everywhere (Proper limit)) (h : first.display = second.display) :
    first.flatten = second.flatten := by
  have hnormal := everywhere_flatten first hfirst
  have hend : ¬joint <+: [] := by decide
  rw [← display_flatten first hfirst, ← display_flatten second hsecond] at h
  exact (eq_of_display_eq hnormal (everywhere_flatten second hsecond)
    (separates_parts _ hnormal) hend hend (congrArg (· ++ []) h)).1

-- What is displayed is what is drawn from.
theorem samples_eq_of_display_eq {first second : Recipe}
    (hfirst : first.Everywhere (Proper limit)) (hsecond : second.Everywhere (Proper limit))
    (h : first.display = second.display) {σ : Type} [Source σ] (source : σ) (count : ℕ) :
    first.samples count source = second.samples count source := by
  rw [← samples_flatten first, flatten_eq_of_display_eq hfirst hsecond h, samples_flatten second]

end Reading

end Coinage.Recipe
