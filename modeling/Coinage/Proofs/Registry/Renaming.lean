import Coinage.Proofs.Lexicon.Renaming
import Coinage.Proofs.Registry.History

namespace Coinage

variable (permutation : Equiv.Perm Shortcut)

-- A registry that holds the texts of another one under other letters, which stand in
-- the texts too.
def Draft.Renamed (draft renamed : Draft) : Prop :=
  ∀ shortcut, lastText renamed.attempts (permutation shortcut).toChar =
    (lastText draft.attempts shortcut.toChar).map (Text.rename permutation)

variable {permutation}

theorem Draft.Renamed.lexicon_eq {draft renamed : Draft} (h : draft.Renamed permutation renamed) :
    renamed.lexicon = draft.lexicon.rename permutation := by
  ext1
  ext1
  funext shortcut
  have hlast := h (permutation.symm shortcut)
  rwa [Equiv.apply_symm_apply] at hlast

-- Letters are names only, and the order that they bring about does not matter. A
-- pattern compiles under new letters if it does under old ones, and into the same.
theorem Workshop.compile_other_letters (permutation : Equiv.Perm Shortcut)
    (calls others : List Call) (draft renamed : Draft) (hdraft : draft ∈ (run calls).drafts)
    (hrenamed : renamed ∈ (run others).drafts) (h : draft.Renamed permutation renamed)
    (main : Text) (recipe : Recipe) :
    (renamed.registry.compile (main.rename permutation)).result = .ok recipe ↔
      (draft.registry.compile main).result = .ok recipe := by
  rw [(faithful_run others renamed hrenamed).compile_eq,
    (faithful_run calls draft hdraft).compile_eq, h.lexicon_eq]
  exact Lexicon.compile_rename_iff permutation

def firstLetters : List Call :=
  [.define 'A' "a/b".toList, .define 'C' "c".toList, .define 'B' "(A\"A\")C".toList]

-- The same with A and C exchanged, and defined in another order.
def secondLetters : List Call :=
  [.define 'B' "(C\"A\")A".toList, .define 'C' "a/b".toList, .define 'A' "c".toList]

def lettersRecipe : Recipe :=
  .uniform [.sequence [.sequence [.uniform [.sequence
    [.uniform [.literal ['a'], .literal ['b']], .literal ['A']], .literal []], .literal ['c']],
    .uniform [.literal ['a'], .literal ['b']]], .literal ['C']]

theorem Workshop.compile_other_letters_exchanged :
    (run firstLetters).current.Renamed (Equiv.swap ⟨0⟩ ⟨2⟩) (run secondLetters).current ∧
      ((run firstLetters).current.registry.compile "BA/\"C\"".toList).result = .ok lettersRecipe ∧
      ((run secondLetters).current.registry.compile "BC/\"C\"".toList).result =
        .ok lettersRecipe := by
  have hrenamed : (run firstLetters).current.Renamed (Equiv.swap ⟨0⟩ ⟨2⟩)
      (run secondLetters).current := by
    rintro ⟨index⟩
    revert index
    decide
  have hfirst : ((run firstLetters).current.registry.compile "BA/\"C\"".toList).result =
      .ok lettersRecipe := rfl
  have hmain : Text.rename (Equiv.swap ⟨0⟩ ⟨2⟩) "BA/\"C\"".toList = "BC/\"C\"".toList := by decide
  have hsecond := (compile_other_letters (Equiv.swap ⟨0⟩ ⟨2⟩) firstLetters secondLetters _ _
    List.mem_cons_self List.mem_cons_self hrenamed "BA/\"C\"".toList lettersRecipe).mpr hfirst
  rw [hmain] at hsecond
  exact ⟨hrenamed, hfirst, hsecond⟩

end Coinage
