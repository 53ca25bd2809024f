import Coinage.Proofs.Lexicon.Transcript

namespace Coinage

-- A line of the log.
structure LogLine where
  level : Text
  message : Text
  fields : List (Text × Text)
deriving DecidableEq

def Event.line (event : Event) : LogLine :=
  ⟨event.level.text, event.message, event.fields⟩

namespace Text

def ofTruth (truth : Bool) : Text :=
  if truth then "true".toList else "false".toList

-- The line on the level that a text begins with.
def splitLine (optional : Bool) (text : Text) : LogLine where
  level := "TRACE".toList
  message := "split pattern".toList
  fields :=
    [("fragments".toList, .ofNat text.outline.fragments),
      ("optional".toList, ofTruth optional),
      ("weighted".toList, ofTruth (text.outline.contains '*'))]

-- The groups in the rest of a text, in the order of their openers, up to the first
-- letter outside quotations that is not known: whether each is optional, and what
-- stands behind its opener.
def groupsFrom (known : Shortcut → Bool) (quoted : Bool) : Text → List (Bool × Text)
  | [] => []
  | c :: rest =>
    if c = '"' then
      groupsFrom known (!quoted) rest
    else if quoted then
      groupsFrom known quoted rest
    else if c = '[' then
      (false, rest) :: groupsFrom known quoted rest
    else if c = '(' then
      (true, rest) :: groupsFrom known quoted rest
    else
      match Shortcut.ofChar? c with
      | some shortcut => if known shortcut then groupsFrom known quoted rest else []
      | none => groupsFrom known quoted rest

-- The lines on a text. One that is not matched leaves none.
def splitLines (known : Shortcut → Bool) (text : Text) : List LogLine :=
  match Bracketed.read text with
  | .error _ => []
  | .ok _ => text.splitLine false ::
    (text.groupsFrom known false).map fun group => group.2.splitLine group.1

theorem truthText_eq (truth : Bool) : Event.truthText truth = ofTruth truth := by
  cases truth <;> rfl

theorem line_split (optional : Bool) (text : Text) :
    (text.split optional).line = text.splitLine optional := by
  rw [splitLine, ← truthText_eq, ← truthText_eq]
  rfl

theorem groupSplitsFrom_eq (known : Shortcut → Bool) (quoted : Bool) (text : Text) :
    text.groupSplitsFrom known quoted =
      (text.groupsFrom known quoted).map fun group => group.2.split group.1 := by
  induction text generalizing quoted with
  | nil => rfl
  | cons c rest ih =>
    rw [groupSplitsFrom, groupsFrom]
    by_cases hquote : c = '"'
    · rw [if_pos hquote, if_pos hquote, ih]
    by_cases hquoted : quoted = true
    · rw [if_neg hquote, if_neg hquote, if_pos hquoted, if_pos hquoted, ih]
    rw [if_neg hquote, if_neg hquote, if_neg hquoted, if_neg hquoted]
    by_cases hsquare : c = '['
    · rw [if_pos hsquare, List.map_cons, ← ih, hsquare]
      rfl
    by_cases hround : c = '('
    · rw [if_neg hsquare, if_pos hround, List.map_cons, ← ih, hround]
      rfl
    have hopener : Bracket.ofOpener? c = none := by simp [Bracket.ofOpener?, hsquare, hround]
    rw [if_neg hsquare, if_neg hround, hopener]
    cases Shortcut.ofChar? c with
    | none => exact ih quoted
    | some shortcut =>
      by_cases hknown : known shortcut = true
      · simp only [if_pos hknown, ih]
      · simp only [if_neg hknown, List.map_nil]

theorem map_line_splits (known : Shortcut → Bool) (text : Text) :
    (text.splits known).map Event.line = text.splitLines known := by
  unfold splits splitLines
  cases Bracketed.read text with
  | error malformation => rfl
  | ok level =>
    rw [groupSplitsFrom_eq, List.map_cons, List.map_map, line_split]
    simp [Function.comp_def, line_split]

end Text

namespace Lexicon

variable (lexicon : Lexicon)

-- The line that a text has been compiled.
def compiledLine : Origin → Text → Recipe → LogLine
  | .main, text, recipe =>
    ⟨"DEBUG".toList, "compiled main pattern".toList,
      [("pattern".toList, text), ("token".toList, recipe.display)]⟩
  | .subpattern shortcut, text, recipe =>
    ⟨"DEBUG".toList,
      if lexicon.isComplex shortcut then
        "compiled complex subpattern".toList
      else
        "compiled primitive subpattern".toList,
      [("shortcut".toList, [shortcut.toChar]), ("pattern".toList, text),
        ("token".toList, recipe.display)]⟩

-- The lines on some texts in a row. The first failure ends the log.
def log : List (Origin × Text) → List LogLine
  | [] => []
  | (origin, text) :: rest =>
    text.splitLines (lexicon.scope origin) ++
      match (Recipe.compile (lexicon.context origin) text).result with
      | .ok recipe => lexicon.compiledLine origin text recipe :: log rest
      | .error _ => []

variable {lexicon}

theorem line_compiledEvent (origin : Origin) (text : Text) (recipe : Recipe) :
    (lexicon.compiledEvent origin text recipe).line =
      lexicon.compiledLine origin text recipe := by
  cases origin with
  | main => rfl
  | subpattern shortcut =>
    rw [compiledEvent, compiledLine]
    cases lexicon.isComplex shortcut <;> rfl

theorem map_line_transcript (tasks : List (Origin × Text)) :
    (lexicon.transcript tasks).map Event.line = lexicon.log tasks := by
  induction tasks with
  | nil => rfl
  | cons task tasks ih =>
    obtain ⟨origin, text⟩ := task
    rw [transcript, log, List.map_append, Text.map_line_splits]
    cases (Recipe.compile (lexicon.context origin) text).result with
    | error fault => rfl
    | ok recipe => rw [List.map_cons, line_compiledEvent, ih]

-- What is logged while a pattern is compiled, word for word.
theorem log_compile (hsize : lexicon.Bounded) {main : Text}
    (hmain : main.utf8Length < sizeLimit) :
    (lexicon.compile main).events.map Event.line = lexicon.log (lexicon.tasks main) := by
  rw [events_compile hsize hmain, map_line_transcript]

example : (empty.compile "a(b)".toList).events.map Event.line =
    [⟨"TRACE".toList, "split pattern".toList,
        [("fragments".toList, ['1']), ("optional".toList, "false".toList),
          ("weighted".toList, "false".toList)]⟩,
      ⟨"TRACE".toList, "split pattern".toList,
        [("fragments".toList, ['1']), ("optional".toList, "true".toList),
          ("weighted".toList, "false".toList)]⟩,
      ⟨"DEBUG".toList, "compiled main pattern".toList,
        [("pattern".toList, "a(b)".toList),
          ("token".toList, "\"a\" + [\"b\"/\"\"]".toList)]⟩] := by
  rfl

end Lexicon

end Coinage
