import Coinage.Proofs.Lexicon.Outcome
import Coinage.Proofs.Recipe.Scope

namespace Coinage

theorem Recipe.subpattern_notMem_events {context : Context} {main text : Text} {primitive : Bool}
    {shortcut : Shortcut} {recipe : Recipe} :
    .subpattern primitive shortcut text recipe ∉ (Recipe.compile context main).events := by
  intro h
  obtain ⟨alternatives, optional, weighted, hsplit⟩ := (scoped_compile context main).splits _ h
  cases hsplit

namespace Lexicon

section CompileAll

variable {primitive : Bool} {recipes : ShortcutMap Recipe} {entries : List (Shortcut × Text)}

-- A subpattern is noted once it has been compiled.
theorem compiled_of_mem_events {known : ShortcutMap Recipe} {kind : Bool} {shortcut : Shortcut}
    {text : Text} {recipe : Recipe}
    (h : .subpattern kind shortcut text recipe ∈
      (compileAll primitive recipes entries known).events) :
    kind = primitive ∧ (shortcut, text) ∈ entries ∧
      (Recipe.compile ⟨recipes, .subpattern shortcut⟩ text).result = .ok recipe := by
  induction entries generalizing known with
  | nil => cases h
  | cons entry entries ih =>
    rw [compileAll, Logged.mem_events_bind] at h
    obtain hcompile | ⟨part, hpart, h⟩ := h
    · exact absurd hcompile Recipe.subpattern_notMem_events
    obtain hnote | ⟨-, -, h⟩ := Logged.mem_events_bind.mp h
    · cases List.mem_singleton.mp hnote
      exact ⟨rfl, List.mem_cons_self, hpart⟩
    · obtain ⟨hkind, hentry, hcompiled⟩ := ih h
      exact ⟨hkind, List.mem_cons_of_mem _ hentry, hcompiled⟩

theorem exists_mem_events_of_mem {known learned : ShortcutMap Recipe}
    (h : (compileAll primitive recipes entries known).result = .ok learned)
    {entry : Shortcut × Text} (he : entry ∈ entries) :
    ∃ recipe, .subpattern primitive entry.1 entry.2 recipe ∈
      (compileAll primitive recipes entries known).events := by
  induction entries generalizing known with
  | nil => cases he
  | cons head entries ih =>
    obtain ⟨recipe, hrecipe, hrest⟩ := compileAll_cons_eq_ok h
    rw [compileAll, Logged.events_bind_of_ok hrecipe, Logged.events_bind_of_ok rfl]
    rcases List.mem_cons.mp he with rfl | he
    · exact ⟨recipe, by simp⟩
    · obtain ⟨part, hpart⟩ := ih hrest he
      exact ⟨part, by simp [hpart]⟩

end CompileAll

variable {lexicon : Lexicon} {main text : Text} {shortcut letter : Shortcut} {recipe : Recipe}

-- Primitive subpatterns need no letters, so only a complex one can be blamed.
theorem complex_of_unresolved (h : (lexicon.compile main).result =
      .error (.unresolvedShortcut letter (.subpattern shortcut))) :
    ∃ text, lexicon.complexes.get? shortcut = some text ∧ letter ∈ text.letters ∧
      lexicon.primitives.get? letter = none := by
  rw [result_compile] at h
  cases hprimitives : (compileAll true .empty lexicon.primitives.entries .empty).result with
  | error fault =>
    rw [hprimitives] at h
    cases h
    obtain ⟨⟨other, text⟩, he, hfault⟩ := exists_error_of_compileAll hprimitives
    obtain ⟨-, hmem, -⟩ := (Recipe.scoped_compile _ text).missing _ _ hfault
    rw [letters_of_primitive (ShortcutMap.mem_entries.mp he)] at hmem
    cases hmem
  | ok primitives =>
    rw [hprimitives, Except.bind] at h
    cases hcomplexes :
        (compileAll false primitives lexicon.complexes.entries primitives).result with
    | error fault =>
      rw [hcomplexes] at h
      cases h
      obtain ⟨⟨other, text⟩, he, hfault⟩ := exists_error_of_compileAll hcomplexes
      obtain ⟨horigin, hmem, hnone⟩ := (Recipe.scoped_compile _ text).missing _ _ hfault
      cases horigin
      have hsame := (round_of_compileAll hprimitives).isSome_get? letter
      rw [hnone, ShortcutMap.empty, Option.isSome_none, Bool.or_false] at hsame
      exact ⟨text, ShortcutMap.mem_entries.mp he, hmem, Option.isNone_iff_eq_none.mp
        (Option.isSome_eq_false_iff.mp hsame.symm)⟩
    | ok recipes =>
      rw [hcomplexes, Except.bind] at h
      obtain ⟨horigin, -, -⟩ := (Recipe.scoped_compile _ main).missing _ _ h
      cases horigin

-- What a complex subpattern refers to has been compiled before it.
theorem resolved_of_mem_events
    (h : .subpattern false shortcut text recipe ∈ (lexicon.compile main).events) :
    lexicon.complexes.get? shortcut = some text ∧
      ∀ letter ∈ text.letters, ∃ definition part,
        lexicon.primitives.get? letter = some definition ∧
          .subpattern true letter definition part ∈ (lexicon.compile main).events := by
  rw [compile] at h ⊢
  obtain hfirst | ⟨primitives, hprimitives, h⟩ := Logged.mem_events_bind.mp h
  · cases (compiled_of_mem_events hfirst).1
  obtain hsecond | ⟨recipes, -, h⟩ := Logged.mem_events_bind.mp h
  · obtain ⟨-, hentry, hcompiled⟩ := compiled_of_mem_events hsecond
    refine ⟨ShortcutMap.mem_entries.mp hentry, fun letter hletter => ?_⟩
    have hknown := (Recipe.scoped_compile _ text).known _ hcompiled letter hletter
    rw [(round_of_compileAll hprimitives).isSome_get?, ShortcutMap.empty, Option.isSome_none,
      Bool.or_false] at hknown
    obtain ⟨definition, hdefinition⟩ := Option.isSome_iff_exists.mp hknown
    obtain ⟨part, hpart⟩ :=
      exists_mem_events_of_mem hprimitives (ShortcutMap.mem_entries.mpr hdefinition)
    exact ⟨definition, part, hdefinition, Logged.mem_events_bind.mpr (.inl hpart)⟩
  · obtain hmain | ⟨part, -, h⟩ := Logged.mem_events_bind.mp h
    · exact absurd hmain Recipe.subpattern_notMem_events
    obtain hnote | ⟨_, -, h⟩ := Logged.mem_events_bind.mp h
    · cases List.mem_singleton.mp hnote
    · cases h

theorem mem_events_of_complex (h : (lexicon.compile main).result = .ok recipe)
    (ht : lexicon.complexes.get? shortcut = some text) :
    ∃ part, .subpattern false shortcut text part ∈ (lexicon.compile main).events := by
  rw [result_compile] at h
  obtain ⟨primitives, hprimitives, h⟩ := except_bind_eq_ok.mp h
  obtain ⟨recipes, hrecipes, -⟩ := except_bind_eq_ok.mp h
  obtain ⟨part, hpart⟩ := exists_mem_events_of_mem hrecipes (ShortcutMap.mem_entries.mpr ht)
  refine ⟨part, ?_⟩
  rw [compile, Logged.mem_events_bind]
  exact .inr ⟨primitives, hprimitives, Logged.mem_events_bind.mpr (.inl hpart)⟩

end Lexicon

end Coinage
