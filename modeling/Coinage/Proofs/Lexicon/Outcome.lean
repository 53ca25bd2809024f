import Coinage.Proofs.Lexicon.Rounds
import Coinage.Proofs.Recipe.Outcome

namespace Coinage

namespace Lexicon

theorem fault?_compileAll (primitive : Bool) (recipes : ShortcutMap Recipe)
    (scope : Shortcut → Bool)
    (hscope : ∀ shortcut, scope shortcut = (recipes.get? shortcut).isSome)
    {entries : List (Shortcut × Text)} (hsize : ∀ entry ∈ entries, entry.2.utf8Length < sizeLimit)
    (known : ShortcutMap Recipe) :
    (compileAll primitive recipes entries known).fault? =
      entries.findSome? fun entry => offence scope (.subpattern entry.1) entry.2 := by
  induction entries generalizing known with
  | nil => rfl
  | cons entry rest ih =>
    obtain ⟨shortcut, text⟩ := entry
    have hhead := Recipe.fault?_compile ⟨recipes, .subpattern shortcut⟩ hscope
      (hsize _ List.mem_cons_self)
    have htail := ih fun other ho => hsize other (List.mem_cons_of_mem _ ho)
    rw [Logged.fault?, result_compileAll_cons, List.findSome?_cons, ← hhead]
    cases hr : (Recipe.compile ⟨recipes, .subpattern shortcut⟩ text).result with
    | error fault => simp [Logged.fault?, hr, Except.bind]
    | ok recipe =>
      have hrest := htail (known.insert shortcut recipe)
      rw [Logged.fault?] at hrest
      simp [Logged.fault?, hr, Except.bind, hrest]

variable (lexicon : Lexicon)

def isPrimitiveShortcut (shortcut : Shortcut) : Bool :=
  (lexicon.primitives.get? shortcut).isSome

def isRegistered (shortcut : Shortcut) : Bool :=
  (lexicon.texts.get? shortcut).isSome

-- The first reason to refuse a main pattern: primitive subpatterns come first,
-- then complex ones, each in the order of the letters.
def firstOffence (main : Text) : Option Fault :=
  (lexicon.primitives.entries.findSome? fun entry =>
    offence (fun _ => false) (.subpattern entry.1) entry.2).or
  ((lexicon.complexes.entries.findSome? fun entry =>
    offence lexicon.isPrimitiveShortcut (.subpattern entry.1) entry.2).or
  (offence lexicon.isRegistered .main main))

variable {lexicon}

-- A registered text is of exactly one kind.
theorem isRegistered_eq (lexicon : Lexicon) (shortcut : Shortcut) :
    lexicon.isRegistered shortcut =
      ((lexicon.complexes.get? shortcut).isSome || lexicon.isPrimitiveShortcut shortcut) := by
  rw [isRegistered, isPrimitiveShortcut, primitives, complexes, ShortcutMap.get?_filter,
    ShortcutMap.get?_filter]
  cases lexicon.texts.get? shortcut with
  | none => rfl
  | some text => cases hp : isPrimitive text <;> simp [Option.filter, hp]

-- All texts are short.
def Bounded (lexicon : Lexicon) : Prop :=
  ∀ shortcut text, lexicon.texts.get? shortcut = some text → text.utf8Length < sizeLimit

theorem Bounded.primitives (h : lexicon.Bounded) :
    ∀ entry ∈ lexicon.primitives.entries, entry.2.utf8Length < sizeLimit := by
  intro entry he
  exact h entry.1 entry.2 (get?_primitives_eq_some_iff.mp (ShortcutMap.mem_entries.mp he)).1

theorem Bounded.complexes (h : lexicon.Bounded) :
    ∀ entry ∈ lexicon.complexes.entries, entry.2.utf8Length < sizeLimit := by
  intro entry he
  exact h entry.1 entry.2 (get?_complexes_eq_some_iff.mp (ShortcutMap.mem_entries.mp he)).1

-- The first offence is what a compilation reports.
theorem fault?_compile (hsize : lexicon.Bounded) {main : Text}
    (hmain : main.utf8Length < sizeLimit) :
    (lexicon.compile main).fault? = lexicon.firstOffence main := by
  have hprimitives := fault?_compileAll true .empty (fun _ => false) (fun _ => rfl)
    hsize.primitives .empty
  unfold Logged.fault? at hprimitives ⊢
  rw [result_compile, firstOffence, ← hprimitives]
  cases hp : (compileAll true .empty lexicon.primitives.entries .empty).result with
  | error fault => rfl
  | ok primitives =>
    have hknown : ∀ shortcut,
        lexicon.isPrimitiveShortcut shortcut = (primitives.get? shortcut).isSome := by
      intro shortcut
      rw [(round_of_compileAll hp).isSome_get?, isPrimitiveShortcut]
      exact (Bool.or_false _).symm
    have hcomplexes := fault?_compileAll false primitives _ hknown hsize.complexes primitives
    unfold Logged.fault? at hcomplexes
    rw [← hcomplexes]
    cases hc : (compileAll false primitives lexicon.complexes.entries primitives).result with
    | error fault => simp [Except.bind, hc]
    | ok recipes =>
      have hregistered : ∀ shortcut,
          lexicon.isRegistered shortcut = (recipes.get? shortcut).isSome := by
        intro shortcut
        rw [isRegistered_eq, (round_of_compileAll hc).isSome_get?, hknown]
      have hlast := Recipe.fault?_compile ⟨recipes, .main⟩ hregistered hmain
      rw [Logged.fault?] at hlast
      simp [Except.bind, hc, hlast]

-- What is needed for a compilation to succeed.
structure Resolvable (lexicon : Lexicon) (main : Text) : Prop where
  texts : ∀ shortcut text, lexicon.texts.get? shortcut = some text → text.WellFormed
  mainText : main.WellFormed
  complexLetters : ∀ shortcut text, lexicon.complexes.get? shortcut = some text →
    ∀ letter ∈ text.letters, lexicon.isPrimitiveShortcut letter = true
  mainLetters : ∀ letter ∈ main.letters, lexicon.isRegistered letter = true

theorem letters_of_primitive {shortcut : Shortcut} {text : Text}
    (h : lexicon.primitives.get? shortcut = some text) : text.letters = [] :=
  (Text.mentionsShortcut_eq_false_iff text).mp (get?_primitives_eq_some_iff.mp h).2

theorem firstOffence_eq_none_iff (main : Text) :
    lexicon.firstOffence main = none ↔ lexicon.Resolvable main := by
  unfold firstOffence
  rw [Option.or_eq_none_iff, Option.or_eq_none_iff, List.findSome?_eq_none_iff,
    List.findSome?_eq_none_iff, offence_eq_none_iff]
  constructor
  · rintro ⟨hprimitives, hcomplexes, hmain, hletters⟩
    refine ⟨?_, hmain, ?_, hletters⟩
    · intro shortcut text ht
      by_cases hm : text.mentionsShortcut = true
      · have he := ShortcutMap.mem_entries.mpr (get?_complexes_eq_some_iff.mpr ⟨ht, hm⟩)
        exact (offence_eq_none_iff.mp (hcomplexes _ he)).1
      · have he := ShortcutMap.mem_entries.mpr
          (get?_primitives_eq_some_iff.mpr ⟨ht, Bool.eq_false_of_not_eq_true hm⟩)
        exact (offence_eq_none_iff.mp (hprimitives _ he)).1
    · intro shortcut text ht
      exact (offence_eq_none_iff.mp (hcomplexes _ (ShortcutMap.mem_entries.mpr ht))).2
  · intro h
    refine ⟨?_, ?_, h.mainText, h.mainLetters⟩
    · intro entry he
      have hp := ShortcutMap.mem_entries.mp he
      rw [offence_eq_none_iff, letters_of_primitive hp]
      exact ⟨h.texts _ _ (get?_primitives_eq_some_iff.mp hp).1, List.forall_mem_nil _⟩
    · intro entry he
      have hc := ShortcutMap.mem_entries.mp he
      rw [offence_eq_none_iff]
      exact ⟨h.texts _ _ (get?_complexes_eq_some_iff.mp hc).1, h.complexLetters _ _ hc⟩

theorem get?_complexes_of_mem {shortcut letter : Shortcut} {text : Text}
    (ht : lexicon.texts.get? shortcut = some text) (hl : letter ∈ text.letters) :
    lexicon.complexes.get? shortcut = some text := by
  refine get?_complexes_eq_some_iff.mpr ⟨ht, ?_⟩
  by_contra hm
  rw [(Text.mentionsShortcut_eq_false_iff text).mp (Bool.eq_false_of_not_eq_true hm)] at hl
  exact absurd hl List.not_mem_nil

theorem get?_complexes_of_isPrimitiveShortcut {shortcut : Shortcut}
    (h : lexicon.isPrimitiveShortcut shortcut = true) :
    lexicon.complexes.get? shortcut = none := by
  obtain ⟨text, ht⟩ := Option.isSome_iff_exists.mp h
  exact get?_complexes_of_primitive ht

-- Complex subpatterns are mentioned in the main pattern only.
theorem Resolvable.get?_complexes_eq_none {main : Text} (h : lexicon.Resolvable main)
    {shortcut letter : Shortcut} {text : Text} (ht : lexicon.texts.get? shortcut = some text)
    (hl : letter ∈ text.letters) : lexicon.complexes.get? letter = none := by
  have hcomplex := get?_complexes_of_mem ht hl
  exact get?_complexes_of_isPrimitiveShortcut (h.complexLetters shortcut text hcomplex letter hl)

-- No text refers to itself.
theorem Resolvable.ne_of_mem_letters {main : Text} (h : lexicon.Resolvable main)
    {shortcut letter : Shortcut} {text : Text} (ht : lexicon.texts.get? shortcut = some text)
    (hl : letter ∈ text.letters) : letter ≠ shortcut := by
  rintro rfl
  have hnone := h.get?_complexes_eq_none ht hl
  rw [get?_complexes_of_mem ht hl] at hnone
  cases hnone

-- Compilation succeeds exactly if all texts are matched and all letters are
-- found, and otherwise reports the first offence.
theorem compile_outcome (lexicon : Lexicon) (main : Text) (hsize : lexicon.Bounded)
    (hmain : main.utf8Length < sizeLimit) :
    ((∃ recipe, (lexicon.compile main).result = .ok recipe) ↔ lexicon.Resolvable main) ∧
      (∀ fault, (lexicon.compile main).result = .error fault ↔
        lexicon.firstOffence main = some fault) ∧
      (∀ shortcut text letter, lexicon.texts.get? shortcut = some text → letter ∈ text.letters →
        letter = shortcut ∨ (lexicon.complexes.get? letter).isSome →
        ∀ recipe, (lexicon.compile main).result ≠ .ok recipe) := by
  have hfault := fault?_compile hsize hmain
  have hok : (∃ recipe, (lexicon.compile main).result = .ok recipe) ↔ lexicon.Resolvable main := by
    rw [← Logged.fault?_eq_none_iff, hfault, firstOffence_eq_none_iff]
  refine ⟨hok, ?_, ?_⟩
  · intro fault
    rw [← Logged.fault?_eq_some_iff, hfault]
  · intro shortcut text letter ht hl hkind recipe hr
    have hresolvable := hok.mp ⟨recipe, hr⟩
    rcases hkind with heq | hsome
    · exact hresolvable.ne_of_mem_letters ht hl heq
    · rw [hresolvable.get?_complexes_eq_none ht hl] at hsome
      cases hsome

-- One complex subpattern refers to another.
def relayLexicon : Lexicon where
  texts.get? shortcut :=
    match shortcut.toChar with
    | 'A' => some "ab".toList
    | 'B' => some "x/[C]".toList
    | 'C' => some "(A)*5".toList
    | _ => none

theorem compile_outcome_relay :
    (relayLexicon.compile "B".toList).result =
      .error (.unresolvedShortcut ⟨2⟩ (.subpattern ⟨1⟩)) := by
  have hsize : relayLexicon.Bounded := by
    intro shortcut text ht
    simp only [relayLexicon] at ht
    split at ht <;> cases ht <;> decide
  have hmain : Text.utf8Length "B".toList < sizeLimit := by decide
  exact ((compile_outcome relayLexicon _ hsize hmain).2.1 _).mpr rfl

end Lexicon

end Coinage
