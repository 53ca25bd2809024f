import Coinage.CommandLine
import Coinage.Proofs.Recipe.Drawable
import Coinage.Proofs.Recipe.Offers
import Coinage.Proofs.Recipe.Sample

namespace Coinage.CommandLine

open Recipe

section Arguments

variable {request next : Request} {text : Text} {arguments : List Text}

theorem number?_ofNat (n : UInt64) : number? (Text.ofNat n.toNat) = some n := by
  have hne : Text.ofNat n.toNat ≠ [] := Nat.toDigits_ne_nil
  have hdigits : ∀ c ∈ Text.ofNat n.toNat, c.isDigit := fun _ => Text.isDigit_of_mem_ofNat
  have hvalue : (Text.ofNat n.toNat).digitsValue = n.toNat := Nat.ofDigitChars_ten_toDigits
  have hlt := n.toNat_lt
  unfold number?
  split
  · rename_i digits heq
    have hplus := hdigits '+' (heq ▸ List.mem_cons_self)
    cases hplus
  · simp only [hvalue, List.all_eq_true]
    rw [if_pos ⟨hne, hdigits, by omega⟩]
    exact congrArg some UInt64.ofNat_toNat

-- Digits are no option.
theorem ofText_ofNat (n : ℕ) : Argument.ofText (Text.ofNat n) = .positional (Text.ofNat n) := by
  have hdash : '-' ∉ Text.ofNat n := by
    intro hmem
    have hdigit := Text.isDigit_of_mem_ofNat hmem
    cases hdigit
  unfold Argument.ofText
  split
  case h_4 => rfl
  all_goals
    rename_i heq
    exact absurd (heq ▸ List.mem_cons_self) hdash

theorem parse?_positional (h : Argument.ofText text = .positional text)
    (hcount : request.withCount? text = some next) :
    parse? request (text :: arguments) = parse? next arguments := by
  rw [parse?.eq_def]
  simp only [h, hcount]

theorem parse?_seed (hseed : request.withSeed? text = some next) :
    parse? request ("--seed".toList :: text :: arguments) = parse? next arguments := by
  have h : Argument.ofText "--seed".toList = .seed := rfl
  rw [parse?.eq_def]
  simp only [h, hseed]

-- Arguments that ask for a number of words from a seed, in whatever form.
def Asks (arguments : List Text) (count seed : UInt64) : Prop :=
  parse? ⟨none, none⟩ arguments = some (.words ⟨some count, some seed⟩)

theorem asks_ofNat (count seed : UInt64) :
    Asks [Text.ofNat count.toNat, "--seed".toList, Text.ofNat seed.toNat] count seed := by
  have hcount : Request.withCount? ⟨none, none⟩ (Text.ofNat count.toNat) =
      some ⟨some count, none⟩ := by
    simp only [Request.withCount?, number?_ofNat, Option.map_some]
  have hseed : Request.withSeed? ⟨some count, none⟩ (Text.ofNat seed.toNat) =
      some ⟨some count, some seed⟩ := by
    simp only [Request.withSeed?, number?_ofNat, Option.map_some]
  rw [Asks, parse?_positional (ofText_ofNat _) hcount, parse?_seed hseed, parse?]

end Arguments

section Output

-- One of some letters.
def choiceOf (letters : Text) : Recipe :=
  .uniform (letters.map fun c => .literal [c])

def syllable : Recipe :=
  .sequence [choiceOf ['p', 't', 'k', 's', 'm', 'n'], choiceOf ['a', 'i', 'u']]

def wordRecipe : Recipe :=
  .sequence [syllable, .uniform [syllable, .literal []],
    .uniform [choiceOf ['m', 'n'], .literal []]]

-- What the fixed patterns are compiled to, and why one of them is refused.
theorem exists_registry : ∃ known, registry = .ok known ∧
    (known.compile mainPattern).result = .ok wordRecipe ∧
    (known.compile "C(V".toList).result =
      .error (.malformed "C(V".toList ⟨1, .unclosedGroup .round⟩) :=
  ⟨_, rfl, rfl, rfl⟩

-- The lines that are the same each time.
def banner : Text :=
  line ("Compiled pattern: [\"p\"/\"t\"/\"k\"/\"s\"/\"m\"/\"n\"] + [\"a\"/\"i\"/\"u\"] + " ++
    "[[\"p\"/\"t\"/\"k\"/\"s\"/\"m\"/\"n\"] + [\"a\"/\"i\"/\"u\"]/\"\"] + " ++
    "[[\"m\"/\"n\"]/\"\"]").toList ++
  line "invalid shortcut 'v': shortcut letters must be between A and Z".toList ++
  line "malformed group at offset 1 in \"C(V\": group opened with '(' is never closed".toList

theorem banner_eq :
    line ("Compiled pattern: ".toList ++ wordRecipe.display) ++
      line (Fault.invalidShortcut 'v').message ++
      line (Fault.malformed "C(V".toList ⟨1, .unclosedGroup .round⟩).message = banner := by
  decide +kernel

theorem report_eq {σ : Type} [Source σ] (count : ℕ) (source : σ) :
    report count source = .ok (banner ++ wordLines 1 (wordRecipe.samples count source).1) := by
  obtain ⟨known, hknown, hword, hunclosed⟩ := exists_registry
  have hlower : Registry.empty.extend 'v' "a".toList = .error (.invalidShortcut 'v') := rfl
  simp only [report, hknown, hword, hlower, hunclosed, refusalLine, isMalformed, bind, Except.bind,
    if_true, banner_eq]

-- A numbered word.
def wordLine (entry : Text × ℕ) : Text :=
  line ("Generated word ".toList ++ Text.ofNat entry.2 ++ ": ".toList ++ entry.1)

theorem wordLines_eq (position : ℕ) (words : List Text) :
    wordLines position words = (words.zipIdx position).flatMap wordLine := by
  induction words generalizing position with
  | nil => rfl
  | cons word words ih => rw [wordLines, ih, List.zipIdx_cons, List.flatMap_cons, wordLine]

theorem isPrefix_wordLines (position : ℕ) {words more : List Text} (h : words <+: more) :
    wordLines position words <+: wordLines position more := by
  obtain ⟨rest, rfl⟩ := h
  rw [wordLines_eq, wordLines_eq, List.zipIdx_append, List.flatMap_append]
  exact List.prefix_append _ _

end Output

section Shape

def oneOf (letters : Text) : RegularExpression Char :=
  letters.foldr (fun c shape => .char c + shape) 0

-- The words [ptksmn][aiu]([ptksmn][aiu])?[mn]?.
def wordShape : RegularExpression Char :=
  let syllable := oneOf ['p', 't', 'k', 's', 'm', 'n'] * oneOf ['a', 'i', 'u']
  syllable * (syllable + 1) * (oneOf ['m', 'n'] + 1)

theorem language_choiceOf (letters : Text) :
    (choiceOf letters).language = (oneOf letters).matches' := by
  induction letters with
  | nil => rfl
  | cons c letters ih =>
    have hchoice : (choiceOf (c :: letters)).language = {[c]} + (choiceOf letters).language := rfl
    have hshape : oneOf (c :: letters) = .char c + oneOf letters := rfl
    rw [hchoice, ih, hshape, RegularExpression.matches'_add, RegularExpression.matches'_char]

theorem language_wordRecipe : wordRecipe.language = wordShape.matches' := by
  have hempty : ({[]} : Language Char) = 1 := rfl
  simp only [wordRecipe, syllable, wordShape, language, inOrder, anyOf, language_choiceOf,
    RegularExpression.matches'_mul, RegularExpression.matches'_add,
    RegularExpression.matches'_epsilon, hempty, add_zero, mul_one, mul_assoc]

theorem everywhereIn_decides_letters (letters : Text) :
    EverywhereIn Decides (letters.map fun c => .literal [c]) := by
  induction letters with
  | nil => trivial
  | cons c letters ih => exact ⟨trivial, ih⟩

theorem everywhere_decides_choiceOf {letters : Text} (h : letters ≠ []) :
    (choiceOf letters).Everywhere Decides :=
  ⟨decides_uniform (by simpa using h), everywhereIn_decides_letters letters⟩

theorem everywhere_decides_wordRecipe : wordRecipe.Everywhere Decides := by
  have hsyllable : syllable.Everywhere Decides :=
    ⟨trivial, everywhere_decides_choiceOf (by decide), everywhere_decides_choiceOf (by decide),
      trivial⟩
  have hcoda : (choiceOf ['m', 'n']).Everywhere Decides := everywhere_decides_choiceOf (by decide)
  refine ⟨trivial, hsyllable, ?_, ?_, trivial⟩
  · exact ⟨decides_uniform (by simp), hsyllable, trivial, trivial⟩
  · exact ⟨decides_uniform (by simp), hcoda, trivial, trivial⟩

-- Whatever the source, the words have the shape.
theorem mem_wordShape {σ : Type} [Source σ] (count : ℕ) (source : σ) :
    ∀ word ∈ (wordRecipe.samples count source).1, word ∈ wordShape.matches' := by
  rw [← language_wordRecipe]
  exact mem_language_samples everywhere_decides_wordRecipe count source

end Shape

section Run

variable {σ : Type} [Source σ] (ofSeed : UInt64 → σ)

theorem runWith_of_asks {given : List Text} {count seed : UInt64} (h : Asks given count seed)
    (ambient : UInt64) : runWith ofSeed given ambient =
      ⟨0, banner ++ wordLines 1 (wordRecipe.samples count.toNat (ofSeed seed)).1⟩ := by
  rw [Asks] at h
  simp only [runWith, h, Option.getD_some, report_eq]

-- Whatever the source that a seed makes, a request for words from a seed is answered with
-- the fixed lines and the numbered words. With more words the output goes on where it ended.
theorem runWith_prints_words (count seed : UInt64) :
    Asks [Text.ofNat count.toNat, "--seed".toList, Text.ofNat seed.toNat] count seed ∧
      ∀ given, Asks given count seed → ∀ ambient,
        (∃ words : List Text, words.length = count.toNat ∧
          (∀ word ∈ words, word ∈ wordShape.matches') ∧
          runWith ofSeed given ambient =
            ⟨0, banner ++ (words.zipIdx 1).flatMap wordLine⟩) ∧
        ∀ more, count ≤ more → ∀ longer, Asks longer more seed → ∀ other,
          (runWith ofSeed given ambient).output <+: (runWith ofSeed longer other).output := by
  refine ⟨asks_ofNat count seed, fun given hgiven ambient => ⟨?_, ?_⟩⟩
  · refine ⟨(wordRecipe.samples count.toNat (ofSeed seed)).1, length_samples _ _ _,
      mem_wordShape _ _, ?_⟩
    rw [runWith_of_asks ofSeed hgiven, wordLines_eq]
  · intro more hmore longer hlonger other
    have hwords := isPrefix_samples wordRecipe (UInt64.le_iff_toNat_le.mp hmore) (ofSeed seed)
    rw [runWith_of_asks ofSeed hgiven, runWith_of_asks ofSeed hlonger]
    exact (List.prefix_append_right_inj banner).mpr (isPrefix_wordLines 1 hwords)

theorem run_prints_two_words : ∃ first second : Text,
    first ∈ wordShape.matches' ∧ second ∈ wordShape.matches' ∧
      run ["--seed=42".toList, "2".toList] 0 =
        ⟨0, banner ++ (wordLine (first, 1) ++ wordLine (second, 2))⟩ := by
  have hasks : Asks ["--seed=42".toList, "2".toList] 2 42 := rfl
  obtain ⟨words, hlength, hshape, hrun⟩ :=
    ((runWith_prints_words ChaCha.ofSeed 2 42).2 _ hasks 0).1
  obtain ⟨first, second, rfl⟩ := List.length_eq_two.mp hlength
  have hlines : ([first, second].zipIdx 1).flatMap wordLine =
      wordLine (first, 1) ++ wordLine (second, 2) := by
    simp
  rw [hlines] at hrun
  exact ⟨first, second, hshape first (by simp), hshape second (by simp), hrun⟩

end Run

end Coinage.CommandLine
