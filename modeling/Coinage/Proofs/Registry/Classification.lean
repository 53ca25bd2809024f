import Coinage.Proofs.Cursor.Compile
import Coinage.Proofs.Lexicon.Classification
import Coinage.Proofs.Registry.History

namespace Coinage

namespace Closers

variable {text : Text} {closers : Closers}

theorem exists_compile_eq_resolve (hsize : text.utf8Length < sizeLimit)
    (hbuild : build text = .ok closers) (context : Context) :
    ∃ recipe, (closers.compile context text).result =
      (context.resolve text.letters recipe).mapError .fault := by
  obtain ⟨level, hread, rfl⟩ := exists_level_of_build hbuild
  have hpattern : Pattern.read text = .ok level.pattern :=
    Pattern.read_eq_ok_iff.mpr ⟨level, hread, rfl⟩
  refine ⟨level.pattern.tree context.known, ?_⟩
  rw [compile_eq hsize hbuild, Logged.result_mapError,
    Recipe.result_compile_of_ok hpattern hsize]

theorem compile_empty_of_nil (hsize : text.utf8Length < sizeLimit)
    (hbuild : build text = .ok closers) (origin : Origin) (hletters : text.letters = []) :
    ∃ recipe, (closers.compile ⟨.empty, origin⟩ text).result = .ok recipe := by
  obtain ⟨recipe, hcompile⟩ := exists_compile_eq_resolve hsize hbuild ⟨.empty, origin⟩
  rw [hletters] at hcompile
  exact ⟨recipe, hcompile⟩

-- Where nothing is known, the first letter is one too many.
theorem compile_empty_of_cons (hsize : text.utf8Length < sizeLimit)
    (hbuild : build text = .ok closers) (origin : Origin) {letter : Shortcut}
    {rest : List Shortcut} (hletters : text.letters = letter :: rest) :
    (closers.compile ⟨.empty, origin⟩ text).result =
      .error (.fault (.unresolvedShortcut letter origin)) := by
  obtain ⟨recipe, hcompile⟩ := exists_compile_eq_resolve hsize hbuild ⟨.empty, origin⟩
  rw [hletters] at hcompile
  exact hcompile

end Closers

theorem Text.letters_ne_nil_of_mentionsShortcut {text : Text} (h : text.mentionsShortcut = true) :
    text.letters ≠ [] := by
  intro hnil
  rw [(Text.mentionsShortcut_eq_false_iff text).mpr hnil] at h
  cases h

-- What a compilation reports keeps to the kinds of the subpatterns. No primitive one is
-- blamed for a letter, and each complex one that is compiled refers to primitive ones
-- that were compiled before.
structure Registry.ReportsByKind (registry : Registry) (main : Text) : Prop where
  blamed : ∀ letter shortcut,
    (registry.compile main).result = .error (.unresolvedShortcut letter (.subpattern shortcut)) →
      shortcut.toChar ∉ registry.primitive.keys ∧
        ∃ text, registry.complex.get? shortcut.toChar = some text ∧ letter ∈ text.letters ∧
          letter.toChar ∉ registry.primitive.keys
  resolved : ∀ shortcut text recipe,
    .subpattern false shortcut text recipe ∈ (registry.compile main).events →
      registry.complex.get? shortcut.toChar = some text ∧ text.letters ≠ [] ∧
        ∀ letter ∈ text.letters, ∃ definition part,
          registry.primitive.get? letter.toChar = some definition ∧
            .subpattern true letter definition part ∈ (registry.compile main).events
  noted : ∀ recipe, (registry.compile main).result = .ok recipe →
    ∀ shortcut text, registry.complex.get? shortcut.toChar = some text →
      ∃ part, .subpattern false shortcut text part ∈ (registry.compile main).events

theorem Draft.Faithful.reportsByKind {draft : Draft} (h : draft.Faithful) (main : Text) :
    draft.registry.ReportsByKind main := by
  have hprimitive : ∀ shortcut : Shortcut, draft.registry.primitive.get? shortcut.toChar =
      draft.lexicon.primitives.get? shortcut := fun shortcut => h.primitive shortcut.toChar
  have hcomplex : ∀ shortcut : Shortcut, draft.registry.complex.get? shortcut.toChar =
      draft.lexicon.complexes.get? shortcut := fun shortcut => h.complex shortcut.toChar
  constructor
  · intro letter shortcut herror
    rw [h.compile_eq] at herror
    obtain ⟨text, htext, hletter, hnone⟩ := Lexicon.complex_of_unresolved herror
    rw [← hcomplex] at htext
    rw [← hprimitive] at hnone
    refine ⟨fun hkey => ?_, text, htext, hletter, fun hkey => ?_⟩
    · exact h.notMem_keys_complex hkey (Table.mem_keys.mpr ⟨text, htext⟩)
    · obtain ⟨definition, hdefinition⟩ := Table.mem_keys.mp hkey
      rw [hnone] at hdefinition
      cases hdefinition
  · intro shortcut text recipe hevent
    simp only [h.compile_eq, hprimitive, hcomplex] at hevent ⊢
    obtain ⟨htext, hresolved⟩ := Lexicon.resolved_of_mem_events hevent
    have hmentions := (Lexicon.get?_complexes_eq_some_iff.mp htext).2
    exact ⟨htext, Text.letters_ne_nil_of_mentionsShortcut hmentions, hresolved⟩
  · intro recipe hresult shortcut text htext
    rw [h.compile_eq] at hresult ⊢
    rw [hcomplex] at htext
    exact Lexicon.mem_events_of_complex hresult htext

namespace Workshop

-- A text is primitive if and only if it compiles where no letter is known, and a
-- registry can rely on that.
theorem compile_by_kind {text : Text} {closers : Closers} (hsize : text.utf8Length < sizeLimit)
    (hbuild : Closers.build text = .ok closers) (origin : Origin) :
    (text.mentionsShortcut = false ↔
        ∃ recipe, (closers.compile ⟨.empty, origin⟩ text).result = .ok recipe) ∧
      (text.mentionsShortcut = true →
        ∃ letter, text.letters.head? = some letter ∧
          (closers.compile ⟨.empty, origin⟩ text).result =
            .error (.fault (.unresolvedShortcut letter origin))) ∧
      ∀ calls, ∀ draft ∈ (run calls).drafts, ∀ main, draft.registry.ReportsByKind main := by
  refine ⟨?_, ?_, fun calls draft hdraft => (faithful_run calls draft hdraft).reportsByKind⟩
  · rw [Text.mentionsShortcut_eq_false_iff]
    refine ⟨Closers.compile_empty_of_nil hsize hbuild origin, fun ⟨recipe, hrecipe⟩ => ?_⟩
    cases hletters : text.letters with
    | nil => rfl
    | cons letter rest =>
      rw [Closers.compile_empty_of_cons hsize hbuild origin hletters] at hrecipe
      cases hrecipe
  · intro hmentions
    cases hletters : text.letters with
    | nil => exact absurd hletters (Text.letters_ne_nil_of_mentionsShortcut hmentions)
    | cons letter rest =>
      exact ⟨letter, rfl, Closers.compile_empty_of_cons hsize hbuild origin hletters⟩

-- The last definition refers to a complex one.
def blamedCalls : List Call :=
  [.define 'A' "x".toList, .define 'B' "(A)".toList, .define 'C' "BA".toList]

-- Brackets and a letter in a quotation, and a capital that is no letter.
theorem compile_by_kind_quoted :
    Text.utf8Length "\"[A]\"(É/x*2)".toList < sizeLimit ∧
      Closers.build "\"[A]\"(É/x*2)".toList = .ok [(5, 12)] ∧
      (∃ recipe, (Closers.compile [(5, 12)] ⟨.empty, .main⟩ "\"[A]\"(É/x*2)".toList).result =
        .ok recipe) ∧
      ((run blamedCalls).current.registry.compile "B".toList).result =
        .error (.unresolvedShortcut ⟨1⟩ (.subpattern ⟨2⟩)) ∧
      'C' ∉ (run blamedCalls).current.registry.primitive.keys := by
  have hsize : Text.utf8Length "\"[A]\"(É/x*2)".toList < sizeLimit := by decide
  have hbuild : Closers.build "\"[A]\"(É/x*2)".toList = .ok [(5, 12)] := by
    rw [Closers.build_eq]
    rfl
  have hblamed : ((run blamedCalls).current.registry.compile "B".toList).result =
      .error (.unresolvedShortcut ⟨1⟩ (.subpattern ⟨2⟩)) := rfl
  obtain ⟨hiff, -, hreports⟩ := compile_by_kind hsize hbuild .main
  obtain ⟨hkey, -⟩ := (hreports blamedCalls _ List.mem_cons_self "B".toList).blamed _ _ hblamed
  exact ⟨hsize, hbuild, hiff.mp (by decide), hblamed, hkey⟩

end Workshop

end Coinage
