import Coinage.Proofs.Recipe.Outcome

namespace Coinage

-- A computation that needs some letters: it succeeds only where all of them are known,
-- blames no letter but one of them, and notes nothing but splits.
structure Context.Scoped {α : Type} (context : Context) (letters : List Shortcut)
    (journaled : Journaled α) : Prop where
  known : ∀ value, journaled.result = .ok value →
    ∀ letter ∈ letters, (context.recipes.get? letter).isSome
  missing : ∀ letter origin, journaled.result = .error (.unresolvedShortcut letter origin) →
    origin = context.origin ∧ letter ∈ letters ∧ context.recipes.get? letter = none
  splits : ∀ event ∈ journaled.events, ∃ alternatives optional weighted,
    event = .split alternatives optional weighted

namespace Context.Scoped

variable {α β : Type} {context : Context} {letters rest : List Shortcut}

theorem pure (value : α) : context.Scoped [] (Pure.pure value : Journaled α) where
  known _ _ := List.forall_mem_nil _
  missing := nofun
  splits := List.forall_mem_nil _

theorem map {journaled : Journaled α} (h : context.Scoped letters journaled) (change : α → β) :
    context.Scoped letters (change <$> journaled) where
  known value hvalue := by
    obtain ⟨middle, hmiddle, -⟩ := except_map_eq_ok.mp hvalue
    exact h.known middle hmiddle
  missing letter origin herror := by
    refine h.missing letter origin ?_
    rw [Logged.result_map] at herror
    cases hresult : journaled.result with
    | ok value =>
      rw [hresult] at herror
      cases herror
    | error fault =>
      rw [hresult] at herror
      cases herror
      rfl
  splits := h.splits

-- The second computation blames a letter only after the first one knew all of its own.
theorem bind {first : Journaled α} {next : α → Journaled β} (hfirst : context.Scoped letters first)
    (hnext : ∀ value, context.Scoped rest (next value)) :
    context.Scoped (letters ++ rest) (first >>= next) := by
  cases hresult : first.result with
  | error fault =>
    have hbind : (first >>= next).result = .error fault := by
      rw [Logged.result_bind, hresult]
      rfl
    refine ⟨fun value hvalue => ?_, fun letter origin herror => ?_, ?_⟩
    · rw [hbind] at hvalue
      cases hvalue
    · rw [hbind] at herror
      obtain ⟨horigin, hmem, hnone⟩ :=
        hfirst.missing letter origin (hresult.trans (congrArg _ (Except.error.inj herror)))
      exact ⟨horigin, List.mem_append_left rest hmem, hnone⟩
    · rw [Logged.events_bind_of_error hresult]
      exact hfirst.splits
  | ok value =>
    have hbind : (first >>= next).result = (next value).result := by
      rw [Logged.result_bind, hresult]
      rfl
    refine ⟨fun last hlast => ?_, fun letter origin herror => ?_, ?_⟩
    · rw [hbind] at hlast
      exact List.forall_mem_append.mpr
        ⟨hfirst.known value hresult, (hnext value).known last hlast⟩
    · rw [hbind] at herror
      obtain ⟨horigin, hmem, hnone⟩ := (hnext value).missing letter origin herror
      exact ⟨horigin, List.mem_append_right letters hmem, hnone⟩
    · rw [Logged.events_bind_of_ok hresult]
      exact List.forall_mem_append.mpr ⟨hfirst.splits, (hnext value).splits⟩

theorem find (context : Context) (shortcut : Shortcut) :
    context.Scoped [shortcut] (.ofResult (context.find shortcut)) := by
  unfold Context.find
  cases hget : context.recipes.get? shortcut with
  | some recipe =>
    refine ⟨fun _ _ => List.forall_mem_singleton.mpr ?_, nofun, List.forall_mem_nil _⟩
    rw [hget]
    rfl
  | none =>
    refine ⟨nofun, fun letter origin herror => ?_, List.forall_mem_nil _⟩
    cases herror
    exact ⟨rfl, List.mem_singleton_self _, hget⟩

theorem noteSplit (optional : Bool) (pattern : Pattern) :
    context.Scoped [] (pattern.noteSplit optional) where
  known _ _ := List.forall_mem_nil _
  missing := nofun
  splits := List.forall_mem_singleton.mpr ⟨_, _, _, rfl⟩

end Context.Scoped

theorem Scale.foldlM_add_ne_unresolved {weights : List Float} {scale : Scale} {letter : Shortcut}
    {origin : Origin} : weights.foldlM add scale ≠ .error (.unresolvedShortcut letter origin) := by
  induction weights generalizing scale with
  | nil =>
    intro h
    cases h
  | cons weight weights ih =>
    rw [List.foldlM_cons, add]
    split
    · exact ih
    · intro h
      cases h

section Compile

variable {context : Context}

-- A choice is refused for its weights only.
theorem Context.Scoped.ofAlternatives (optional : Bool) (suffixes : List (Option Text))
    (recipes : List Recipe) :
    context.Scoped [] (.ofResult (Recipe.ofAlternatives optional suffixes recipes)) where
  known _ _ := List.forall_mem_nil _
  missing letter origin h := by
    have hresult : Recipe.ofAlternatives optional suffixes recipes =
        .error (.unresolvedShortcut letter origin) := h
    unfold Recipe.ofAlternatives at hresult
    split at hresult
    · cases hresult
    · cases hresult
    · simp only at hresult
      split at hresult
      · cases hweights : (Recipe.weights optional suffixes).foldlM Scale.add Scale.empty with
        | ok scale =>
          rw [hweights] at hresult
          cases hresult
        | error fault =>
          rw [hweights] at hresult
          cases hresult
          exact absurd hweights Scale.foldlM_add_ne_unresolved
      · cases hresult
  splits := List.forall_mem_nil _

mutual

theorem Pattern.scoped_recipes : (pattern : Pattern) →
    context.Scoped pattern.letters (pattern.recipes context)
  | .nil => .pure []
  | .cons body suffix rest => by
    rw [Pattern.letters_cons]
    exact (Body.scoped_parts body).bind fun _ => (Pattern.scoped_recipes rest).map _

theorem Body.scoped_parts : (body : Body) → context.Scoped body.letters (body.parts context)
  | .nil => .pure []
  | .plain run rest => (Body.scoped_parts rest).map _
  | .quoted text rest => (Body.scoped_parts rest).map _
  | .letter shortcut rest => by
    rw [Body.letters_letter]
    exact (Context.Scoped.find context shortcut).bind fun _ => (Body.scoped_parts rest).map _
  | .group bracket interior rest => by
    rw [Body.letters_group]
    exact (Context.Scoped.noteSplit bracket.optional interior).bind fun _ =>
      (Pattern.scoped_recipes interior).bind fun recipes =>
        (Context.Scoped.ofAlternatives bracket.optional interior.suffixes recipes).bind fun _ =>
          (Body.scoped_parts rest).map _

end

-- Whatever its length, a text needs the letters that stand outside its quotations.
theorem Recipe.scoped_compile (context : Context) (text : Text) :
    context.Scoped text.letters (Recipe.compile context text) := by
  unfold Recipe.compile
  cases hread : Pattern.read text with
  | error malformation => exact ⟨nofun, nofun, List.forall_mem_nil _⟩
  | ok pattern =>
    rw [← Pattern.letters_of_read hread, ← List.append_nil pattern.letters]
    exact (Context.Scoped.noteSplit false pattern).bind fun _ =>
      (Pattern.scoped_recipes pattern).bind fun recipes =>
        Context.Scoped.ofAlternatives false pattern.suffixes recipes

end Compile

end Coinage
