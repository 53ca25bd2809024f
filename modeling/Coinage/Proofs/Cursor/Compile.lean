import Coinage.Proofs.Cursor.Choose
import Coinage.Proofs.Recipe.Splits

namespace Coinage

open Bracketed Cursor

namespace Closers

-- With more room than the groups nest deep, every part is compiled as what it is
-- read as.
theorem compilesAsRead_alternation (closers : Closers) (context : Context) (room : Nat) :
    CompilesAsRead closers context room (closers.alternation context room) := by
  induction room with
  | zero =>
    intro optional before after level hsound
    exact absurd hsound.depth_lt (Nat.not_lt_zero _)
  | succ room ih =>
    intro optional before after level hsound
    obtain ⟨fragments, hsplit, hsplits⟩ := exists_split before after hsound
    have hlength : level.pattern.suffixes.length < sizeLimit := by
      have hrender := level.length_suffixes_pattern_le
      have hbytes := Text.length_le_utf8Length level.render
      have hlimit := hsound.length_lt
      omega
    rw [alternation, hsplit, Logged.ofResult_ok, pure_bind, note_split hsplits,
      choose_eq ih hsplits hlength, Pattern.alternation_eq optional hlength]
    simp

theorem sound_closers {level : Bracketed} (hl : level.Legible) (hdepth : level.depth ≤ depthLimit)
    (hsize : level.render.utf8Length < sizeLimit) :
    Sound (level.closers 0) (depthLimit + 1) 0 level where
  legible := hl
  listed := listed_closers level 0
  depth_lt := Nat.lt_succ_of_le hdepth
  length_lt := hsize

-- The recipe, the failure and the notes are those of the text as it is read.
theorem compile_eq {text : Text} {closers : Closers} (hsize : text.utf8Length < sizeLimit)
    (h : build text = .ok closers) (context : Context) :
    closers.compile context text = (Recipe.compile context text).mapError .fault := by
  obtain ⟨level, hread, rfl⟩ := exists_level_of_build h
  have hpattern : Pattern.read text = .ok level.pattern :=
    Pattern.read_eq_ok_iff.mpr ⟨level, hread, rfl⟩
  obtain ⟨hl, hdepth, rfl⟩ := Bracketed.read_eq_ok_iff.mp hread
  have halternation := compilesAsRead_alternation (level.closers 0) context (depthLimit + 1) false
    [] [] level (sound_closers hl hdepth hsize)
  rw [compile, whole_eq, Logged.ofResult_ok, pure_bind, halternation, Recipe.compile, hpattern,
    ← Pattern.compile_eq_alternation]

-- The two compilers agree, also on the texts that are refused.
theorem build_bind_compile {text : Text} (hsize : text.utf8Length < sizeLimit) (context : Context) :
    (.ofResult (build text) >>= fun closers => closers.compile context text) =
      (Recipe.compile context text).mapError .fault := by
  cases hbuild : build text with
  | ok closers => exact compile_eq hsize hbuild context
  | error trap =>
    obtain ⟨malformation, hread, rfl⟩ := exists_malformation_of_build hbuild
    rw [Recipe.compile_of_error hread]
    rfl

-- Each group is split once, in the order of the openers, up to the first letter
-- that is not known.
theorem events_compile {text : Text} {closers : Closers} (hsize : text.utf8Length < sizeLimit)
    (h : build text = .ok closers) (context : Context) :
    (closers.compile context text).events = text.splits context.isKnown := by
  rw [compile_eq hsize h]
  exact Recipe.events_compile context hsize

-- Once the groups of a text are noted, only a letter can fail. No cursor leaves
-- the text or stops inside a character, every opener has a closer in the part at
-- hand, no group is found malformed, and every weight is accepted.
theorem compile_of_build {text : Text} {closers : Closers} (hsize : text.utf8Length < sizeLimit)
    (hbuild : build text = .ok closers) (context : Context) :
    closers.compile context text = (Recipe.compile context text).mapError .fault ∧
      ∀ trap, (closers.compile context text).result = .error trap →
        ∃ shortcut ∈ text.letters, context.recipes.get? shortcut = none ∧
          trap = .fault (.unresolvedShortcut shortcut context.origin) := by
  have hcompile := compile_eq hsize hbuild context
  obtain ⟨level, hread, rfl⟩ := exists_level_of_build hbuild
  have hpattern : Pattern.read text = .ok level.pattern :=
    Pattern.read_eq_ok_iff.mpr ⟨level, hread, rfl⟩
  refine ⟨hcompile, ?_⟩
  intro trap htrap
  rw [hcompile, Logged.result_mapError, Recipe.result_compile_of_ok hpattern hsize,
    Context.resolve] at htrap
  cases hfind : text.letters.find? context.isMissing with
  | none =>
    rw [hfind] at htrap
    cases htrap
  | some shortcut =>
    rw [hfind] at htrap
    cases htrap
    have hmissing : context.isMissing shortcut = true := List.find?_some hfind
    exact ⟨shortcut, List.mem_of_find?_eq_some hfind, Option.isNone_iff_eq_none.mp hmissing, rfl⟩

theorem compile_of_build_nested :
    Text.utf8Length "é[\"]\"*3/(ö/X)b]".toList < sizeLimit ∧
      build "é[\"]\"*3/(ö/X)b]".toList = .ok [(2, 16), (9, 14)] ∧
      compile [(2, 16), (9, 14)] ⟨.empty, .main⟩ "é[\"]\"*3/(ö/X)b]".toList =
        ⟨[.split 1 false false, .split 2 false true, .split 2 true false],
          .error (.fault (.unresolvedShortcut ⟨23⟩ .main))⟩ := by
  have hsize : Text.utf8Length "é[\"]\"*3/(ö/X)b]".toList < sizeLimit := by decide
  have hbuild : build "é[\"]\"*3/(ö/X)b]".toList = .ok [(2, 16), (9, 14)] := by
    rw [build_eq]
    rfl
  obtain ⟨hcompile, -⟩ := compile_of_build hsize hbuild ⟨.empty, .main⟩
  refine ⟨hsize, hbuild, ?_⟩
  rw [hcompile]
  rfl

end Closers

end Coinage
