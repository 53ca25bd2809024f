import Coinage.Proofs.Lexicon.Transcript

namespace Coinage.Lexicon

-- Which of two texts is compiled first: a primitive subpattern before a complex
-- one, two of a kind in the order of their letters, and all before the main pattern.
inductive Precedes (lexicon : Lexicon) : Origin → Origin → Prop
  | letter {first second : Shortcut} (hkind : lexicon.isComplex first = lexicon.isComplex second)
      (hlt : first.toChar < second.toChar) :
      Precedes lexicon (.subpattern first) (.subpattern second)
  | kind {first second : Shortcut} (hfirst : lexicon.isComplex first = false)
      (hsecond : lexicon.isComplex second = true) :
      Precedes lexicon (.subpattern first) (.subpattern second)
  | main (shortcut : Shortcut) : Precedes lexicon (.subpattern shortcut) .main

variable {lexicon : Lexicon}

theorem Precedes.asymm {first second : Origin} (h : lexicon.Precedes first second) :
    ¬lexicon.Precedes second first := by
  cases h with
  | letter hkind hlt =>
    intro hback
    cases hback with
    | letter _ hgt => exact Char.lt_asymm hlt hgt
    | kind hsecond hfirst =>
      rw [hfirst, hsecond] at hkind
      cases hkind
  | kind hfirst hsecond =>
    intro hback
    cases hback with
    | letter hkind _ =>
      rw [hfirst, hsecond] at hkind
      cases hkind
    | kind hprimitive _ =>
      rw [hsecond] at hprimitive
      cases hprimitive
  | main shortcut => nofun

-- The texts of one kind, one letter after the other.
theorem pairwise_map_entries {texts : ShortcutMap Text} {complex : Bool}
    (h : ∀ shortcut text, texts.get? shortcut = some text →
      lexicon.isComplex shortcut = complex) :
    (texts.entries.map fun entry => (Origin.subpattern entry.1, entry.2)).Pairwise
      fun first second => lexicon.Precedes first.1 second.1 := by
  apply List.pairwise_map.mpr
  apply texts.ascending_entries.imp_of_mem
  intro first second hfirst hsecond hlt
  have hkind := h _ _ (ShortcutMap.mem_entries.mp hfirst)
  exact .letter (hkind.trans (h _ _ (ShortcutMap.mem_entries.mp hsecond)).symm) hlt

theorem pairwise_tasks (lexicon : Lexicon) (main : Text) :
    (lexicon.tasks main).Pairwise fun first second => lexicon.Precedes first.1 second.1 := by
  rw [tasks, List.pairwise_append, List.pairwise_append]
  refine ⟨pairwise_map_entries fun _ _ => isComplex_of_primitive,
    ⟨pairwise_map_entries fun _ _ => isComplex_of_complex, List.pairwise_singleton _ _, ?_⟩, ?_⟩
  · rintro ⟨origin, text⟩ hcomplex last hlast
    obtain ⟨shortcut, rfl, -⟩ := mem_map_entries.mp hcomplex
    obtain rfl := List.mem_singleton.mp hlast
    exact .main shortcut
  · rintro ⟨origin, text⟩ hprimitive ⟨other, otherText⟩ hother
    obtain ⟨shortcut, rfl, htext⟩ := mem_map_entries.mp hprimitive
    rcases List.mem_append.mp hother with hcomplex | hlast
    · obtain ⟨otherShortcut, rfl, hothers⟩ := mem_map_entries.mp hcomplex
      exact .kind (isComplex_of_primitive htext) (isComplex_of_complex hothers)
    · cases List.mem_singleton.mp hlast
      exact .main shortcut

-- Why a text is refused at its place.
def taskOffence (lexicon : Lexicon) (task : Origin × Text) : Option Fault :=
  offence (lexicon.scope task.1) task.1 task.2

theorem findSome?_map_entries {texts : ShortcutMap Text} {scope : Shortcut → Bool}
    (h : ∀ shortcut text, texts.get? shortcut = some text →
      lexicon.scope (.subpattern shortcut) = scope) :
    (texts.entries.map fun entry => (.subpattern entry.1, entry.2)).findSome?
        lexicon.taskOffence =
      texts.entries.findSome? fun entry => offence scope (.subpattern entry.1) entry.2 := by
  have hsame : texts.entries.map (fun entry =>
      lexicon.taskOffence (.subpattern entry.1, entry.2)) =
      texts.entries.map fun entry => offence scope (.subpattern entry.1) entry.2 := by
    apply List.map_congr_left
    intro entry hentry
    rw [taskOffence, h entry.1 entry.2 (ShortcutMap.mem_entries.mp hentry)]
  have hfound := congrArg (List.findSome? id) hsame
  rw [List.findSome?_map, List.findSome?_map] at hfound
  rw [List.findSome?_map]
  exact hfound

theorem firstOffence_eq_findSome? (lexicon : Lexicon) (main : Text) :
    lexicon.firstOffence main = (lexicon.tasks main).findSome? lexicon.taskOffence := by
  rw [tasks, List.findSome?_append, List.findSome?_append, List.findSome?_singleton,
    findSome?_map_entries fun _ _ => scope_of_primitive,
    findSome?_map_entries fun _ _ => scope_of_complex]
  rfl

-- The first offence is that of a text in front of which, in the order of the
-- compilation, no text is refused.
theorem firstOffence_eq_some_iff {main : Text} {fault : Fault} :
    lexicon.firstOffence main = some fault ↔
      ∃ task ∈ lexicon.tasks main, lexicon.taskOffence task = some fault ∧
        ∀ other ∈ lexicon.tasks main, lexicon.Precedes other.1 task.1 →
          lexicon.taskOffence other = none := by
  have horder := lexicon.pairwise_tasks main
  rw [firstOffence_eq_findSome?]
  constructor
  · intro hfirst
    obtain ⟨before, task, after, hsplit, hfault, hnone⟩ := List.findSome?_eq_some_iff.mp hfirst
    rw [hsplit] at horder ⊢
    obtain ⟨-, hbehind, -⟩ := List.pairwise_append.mp horder
    refine ⟨task, List.mem_append_cons_self, hfault, ?_⟩
    intro other hother hprecedes
    rcases List.mem_append.mp hother with hbefore | hlater
    · exact hnone other hbefore
    rcases List.mem_cons.mp hlater with rfl | hafter
    · exact absurd hprecedes hprecedes.asymm
    · exact absurd hprecedes (List.rel_of_pairwise_cons hbehind hafter).asymm
  · rintro ⟨task, htask, hfault, hnone⟩
    obtain ⟨before, after, hsplit⟩ := List.append_of_mem htask
    rw [hsplit] at horder hnone ⊢
    obtain ⟨-, -, hbefore⟩ := List.pairwise_append.mp horder
    refine List.findSome?_eq_some_iff.mpr ⟨before, task, after, rfl, hfault, ?_⟩
    intro other hother
    exact hnone other (List.mem_append_left _ hother)
      (hbefore other hother task List.mem_cons_self)

end Coinage.Lexicon
