import Coinage.Proofs.Lexicon.Outcome
import Coinage.Proofs.Recipe.Splits

namespace Coinage

namespace Lexicon

-- What is known after a round of subpatterns: the recipes of its texts, and what
-- was known before.
def learn (texts : ShortcutMap Text) (known : ShortcutMap Recipe) : ShortcutMap Recipe where
  get? shortcut :=
    match texts.get? shortcut with
    | some text => (Recipe.compile ⟨known, .subpattern shortcut⟩ text).result.toOption
    | none => known.get? shortcut

theorem Round.eq_learn {texts : ShortcutMap Text} {known learned : ShortcutMap Recipe}
    (h : Round texts known learned) : learned = learn texts known := by
  ext1
  funext shortcut
  cases ht : texts.get? shortcut with
  | none => simp [learn, ht, h.kept shortcut ht]
  | some text =>
    obtain ⟨recipe, hr, hl⟩ := h.compiled shortcut text ht
    simp [learn, ht, hr, hl, Except.toOption]

variable (lexicon : Lexicon)

-- The texts in the order in which they are compiled, and where each stands.
def tasks (main : Text) : List (Origin × Text) :=
  lexicon.primitives.entries.map (fun entry => (.subpattern entry.1, entry.2)) ++
    (lexicon.complexes.entries.map (fun entry => (.subpattern entry.1, entry.2)) ++
      [(.main, main)])

theorem mem_map_entries {texts : ShortcutMap Text} {origin : Origin} {text : Text} :
    (origin, text) ∈ texts.entries.map (fun entry => (Origin.subpattern entry.1, entry.2)) ↔
      ∃ shortcut, origin = .subpattern shortcut ∧ texts.get? shortcut = some text := by
  simp only [List.mem_map, Prod.mk.injEq]
  constructor
  · rintro ⟨entry, he, rfl, rfl⟩
    exact ⟨entry.1, rfl, ShortcutMap.mem_entries.mp he⟩
  · rintro ⟨shortcut, rfl, ht⟩
    exact ⟨(shortcut, text), ShortcutMap.mem_entries.mpr ht, rfl, rfl⟩

variable {lexicon} in
theorem mem_tasks {main : Text} {origin : Origin} {text : Text} :
    (origin, text) ∈ lexicon.tasks main ↔
      (∃ shortcut, origin = .subpattern shortcut ∧
        lexicon.primitives.get? shortcut = some text) ∨
      (∃ shortcut, origin = .subpattern shortcut ∧
        lexicon.complexes.get? shortcut = some text) ∨
      (origin = .main ∧ text = main) := by
  simp only [tasks, List.mem_append, mem_map_entries, List.mem_singleton, Prod.mk.injEq]

def isComplex (shortcut : Shortcut) : Bool :=
  (lexicon.complexes.get? shortcut).isSome

-- The letters that a text may refer to.
def scope : Origin → Shortcut → Bool
  | .main => lexicon.isRegistered
  | .subpattern shortcut =>
    if lexicon.isComplex shortcut then lexicon.isPrimitiveShortcut else fun _ => false

-- What these letters stand for.
def context (origin : Origin) : Context where
  recipes :=
    match origin with
    | .main => learn lexicon.complexes (learn lexicon.primitives .empty)
    | .subpattern shortcut =>
      if lexicon.isComplex shortcut then learn lexicon.primitives .empty else .empty
  origin := origin

-- The note that a text has been compiled.
def compiledEvent : Origin → Text → Recipe → Event
  | .main, text, recipe => .main text recipe
  | .subpattern shortcut, text, recipe =>
    .subpattern (!lexicon.isComplex shortcut) shortcut text recipe

-- The notes on some texts in a row. Each text is split, and then it is noted that
-- it has been compiled. The first failure ends the transcript.
def transcript : List (Origin × Text) → List Event
  | [] => []
  | (origin, text) :: rest =>
    text.splits (lexicon.scope origin) ++
      match (Recipe.compile (lexicon.context origin) text).result with
      | .ok recipe => lexicon.compiledEvent origin text recipe :: transcript rest
      | .error _ => []

section Transcript

variable {lexicon} {origin : Origin} {text : Text}

theorem transcript_cons_of_ok {recipe : Recipe}
    (h : (Recipe.compile (lexicon.context origin) text).result = .ok recipe)
    (rest : List (Origin × Text)) :
    lexicon.transcript ((origin, text) :: rest) =
      text.splits (lexicon.scope origin) ++
        lexicon.compiledEvent origin text recipe :: lexicon.transcript rest := by
  rw [transcript, h]

theorem transcript_cons_of_error {fault : Fault}
    (h : (Recipe.compile (lexicon.context origin) text).result = .error fault)
    (rest : List (Origin × Text)) :
    lexicon.transcript ((origin, text) :: rest) = text.splits (lexicon.scope origin) := by
  rw [transcript, h]
  exact List.append_nil _

-- A subpattern as a round compiles it.
structure InRound (lexicon : Lexicon) (primitive : Bool) (recipes : ShortcutMap Recipe)
    (entry : Shortcut × Text) : Prop where
  kind : (!lexicon.isComplex entry.1) = primitive
  context : lexicon.context (.subpattern entry.1) = ⟨recipes, .subpattern entry.1⟩
  scope : lexicon.scope (.subpattern entry.1) = fun letter => (recipes.get? letter).isSome
  size : entry.2.utf8Length < sizeLimit

theorem InRound.splits_eq {primitive : Bool} {recipes : ShortcutMap Recipe}
    {entry : Shortcut × Text} (h : lexicon.InRound primitive recipes entry) :
    entry.2.splits (lexicon.scope (.subpattern entry.1)) =
      (Recipe.compile ⟨recipes, .subpattern entry.1⟩ entry.2).events := by
  rw [Recipe.events_compile _ h.size, h.scope]
  rfl

-- What a round notes is what the transcript has on its texts, and the transcript
-- goes on if the round succeeds.
theorem transcript_round {primitive : Bool} {recipes : ShortcutMap Recipe}
    {entries : List (Shortcut × Text)}
    (h : ∀ entry ∈ entries, lexicon.InRound primitive recipes entry) (known : ShortcutMap Recipe)
    (rest : List (Origin × Text)) :
    lexicon.transcript (entries.map (fun entry => (.subpattern entry.1, entry.2)) ++ rest) =
      (compileAll primitive recipes entries known).events ++
        if (compileAll primitive recipes entries known).fault? = none then
          lexicon.transcript rest
        else [] := by
  induction entries generalizing known with
  | nil => rfl
  | cons entry entries ih =>
    obtain ⟨shortcut, text⟩ := entry
    have hround := h _ List.mem_cons_self
    have htail := ih fun other ho => h other (List.mem_cons_of_mem _ ho)
    have hresult := result_compileAll_cons primitive recipes shortcut text entries known
    rw [List.map_cons, List.cons_append]
    cases hr : (Recipe.compile ⟨recipes, .subpattern shortcut⟩ text).result with
    | error fault =>
      have hfault : (compileAll primitive recipes ((shortcut, text) :: entries) known).fault? ≠
          none := by
        rw [Logged.fault?, hresult, hr]
        exact Option.some_ne_none fault
      rw [transcript_cons_of_error (by rw [hround.context]; exact hr), hround.splits_eq,
        if_neg hfault, List.append_nil, compileAll, Logged.events_bind_of_error hr]
    | ok recipe =>
      have hfault : (compileAll primitive recipes ((shortcut, text) :: entries) known).fault? =
          (compileAll primitive recipes entries (known.insert shortcut recipe)).fault? := by
        rw [Logged.fault?, Logged.fault?, hresult, hr]
        rfl
      rw [transcript_cons_of_ok (by rw [hround.context]; exact hr), hround.splits_eq,
        compiledEvent, hround.kind, hfault, compileAll, Logged.events_bind_of_ok hr,
        Logged.events_bind_of_ok rfl, htail (known.insert shortcut recipe)]
      simp

end Transcript

section Contexts

variable {lexicon} {shortcut : Shortcut} {text : Text}

theorem isComplex_of_primitive (h : lexicon.primitives.get? shortcut = some text) :
    lexicon.isComplex shortcut = false := by
  rw [isComplex, get?_complexes_of_primitive h]
  rfl

theorem isComplex_of_complex (h : lexicon.complexes.get? shortcut = some text) :
    lexicon.isComplex shortcut = true := by
  rw [isComplex, h]
  rfl

theorem scope_of_primitive (h : lexicon.primitives.get? shortcut = some text) :
    lexicon.scope (.subpattern shortcut) = fun _ => false := by
  simp [scope, isComplex_of_primitive h]

theorem scope_of_complex (h : lexicon.complexes.get? shortcut = some text) :
    lexicon.scope (.subpattern shortcut) = lexicon.isPrimitiveShortcut := by
  simp [scope, isComplex_of_complex h]

theorem context_of_primitive (h : lexicon.primitives.get? shortcut = some text) :
    lexicon.context (.subpattern shortcut) = ⟨.empty, .subpattern shortcut⟩ := by
  simp [context, isComplex_of_primitive h]

-- The primitive subpatterns are compiled before.
theorem context_of_complex (h : lexicon.complexes.get? shortcut = some text) :
    lexicon.context (.subpattern shortcut) =
      ⟨learn lexicon.primitives .empty, .subpattern shortcut⟩ := by
  simp [context, isComplex_of_complex h]

theorem context_main {primitives recipes : ShortcutMap Recipe}
    (hprimitives : Round lexicon.primitives .empty primitives)
    (hcomplexes : Round lexicon.complexes primitives recipes) :
    lexicon.context .main = ⟨recipes, .main⟩ := by
  rw [context, hcomplexes.eq_learn, hprimitives.eq_learn]

end Contexts

variable {lexicon}

theorem inRound_of_mem_primitives (hsize : lexicon.Bounded) {entry : Shortcut × Text}
    (h : entry ∈ lexicon.primitives.entries) : lexicon.InRound true .empty entry := by
  have hsome := ShortcutMap.mem_entries.mp h
  exact ⟨congrArg not (isComplex_of_primitive hsome), context_of_primitive hsome,
    scope_of_primitive hsome, hsize.primitives entry h⟩

theorem inRound_of_mem_complexes (hsize : lexicon.Bounded) {primitives : ShortcutMap Recipe}
    (hround : Round lexicon.primitives .empty primitives) {entry : Shortcut × Text}
    (h : entry ∈ lexicon.complexes.entries) : lexicon.InRound false primitives entry := by
  have hsome := ShortcutMap.mem_entries.mp h
  refine ⟨congrArg not (isComplex_of_complex hsome), ?_, ?_, hsize.complexes entry h⟩
  · rw [context_of_complex hsome, ← hround.eq_learn]
  · rw [scope_of_complex hsome]
    funext letter
    rw [hround.isSome_get?, isPrimitiveShortcut]
    exact (Bool.or_false _).symm

theorem transcript_main {main : Text} (hmain : main.utf8Length < sizeLimit)
    {primitives recipes : ShortcutMap Recipe}
    (hprimitives : Round lexicon.primitives .empty primitives)
    (hcomplexes : Round lexicon.complexes primitives recipes) :
    lexicon.transcript [(.main, main)] =
      (do
        let recipe ← Recipe.compile ⟨recipes, .main⟩ main
        Logged.note (.main main recipe)
        pure recipe).events := by
  have hcontext := context_main hprimitives hcomplexes
  have hscope : lexicon.scope .main = Context.isKnown ⟨recipes, .main⟩ := by
    funext letter
    rw [Context.isKnown, hcomplexes.isSome_get?, hprimitives.isSome_get?, scope, isRegistered_eq,
      isPrimitiveShortcut]
    exact congrArg _ (Bool.or_false _).symm
  have hsplits : main.splits (lexicon.scope .main) =
      (Recipe.compile ⟨recipes, .main⟩ main).events := by
    rw [Recipe.events_compile _ hmain, hscope]
  cases hr : (Recipe.compile ⟨recipes, .main⟩ main).result with
  | error fault =>
    rw [transcript_cons_of_error (by rw [hcontext]; exact hr), hsplits,
      Logged.events_bind_of_error hr]
  | ok recipe =>
    rw [transcript_cons_of_ok (by rw [hcontext]; exact hr), hsplits,
      Logged.events_bind_of_ok hr]
    rfl

theorem events_compile (hsize : lexicon.Bounded) {main : Text}
    (hmain : main.utf8Length < sizeLimit) :
    (lexicon.compile main).events = lexicon.transcript (lexicon.tasks main) := by
  have hfirst := transcript_round (fun _ he => inRound_of_mem_primitives hsize he) .empty
  rw [tasks, hfirst, compile]
  cases hp : (compileAll true .empty lexicon.primitives.entries .empty).result with
  | error fault =>
    rw [Logged.events_bind_of_error hp, Logged.fault?, hp]
    exact (List.append_nil _).symm
  | ok primitives =>
    have hprimitives := round_of_compileAll hp
    have hsecond := transcript_round
      (fun _ he => inRound_of_mem_complexes hsize hprimitives he) primitives
    rw [Logged.events_bind_of_ok hp, Logged.fault?_eq_none_iff.mpr ⟨_, hp⟩, if_pos rfl,
      hsecond]
    apply congrArg
    cases hc : (compileAll false primitives lexicon.complexes.entries primitives).result with
    | error fault =>
      rw [Logged.events_bind_of_error hc, Logged.fault?, hc]
      exact (List.append_nil _).symm
    | ok recipes =>
      rw [Logged.events_bind_of_ok hc, Logged.fault?_eq_none_iff.mpr ⟨_, hc⟩, if_pos rfl,
        transcript_main hmain hprimitives (round_of_compileAll hc)]

-- The notes on a compilation are its transcript: text after text, and each group
-- of a text once, in the order of the openers.
theorem compile_transcript (lexicon : Lexicon) (main : Text) (hsize : lexicon.Bounded)
    (hmain : main.utf8Length < sizeLimit) :
    (lexicon.compile main).events = lexicon.transcript (lexicon.tasks main) :=
  events_compile hsize hmain

-- A complex subpattern refers to one that is not registered, after two groups.
def brokenLexicon : Lexicon where
  texts.get? shortcut :=
    match shortcut.toChar with
    | 'A' => some "a/(b)".toList
    | 'B' => some "[A]*2(x/C[y])".toList
    | _ => none

theorem compile_transcript_broken :
    (brokenLexicon.compile "A".toList).events =
      [.split 2 false false, .split 1 true false,
        .subpattern true ⟨0⟩ "a/(b)".toList
          (.uniform [.literal ['a'], .uniform [.literal ['b'], .literal []]]),
        .split 2 false true, .split 1 false false, .split 2 true false] := by
  have hsize : brokenLexicon.Bounded := by
    intro shortcut text ht
    simp only [brokenLexicon] at ht
    split at ht <;> cases ht <;> decide
  have hmain : Text.utf8Length "A".toList < sizeLimit := by decide
  exact (compile_transcript brokenLexicon _ hsize hmain).trans rfl

end Lexicon

end Coinage
