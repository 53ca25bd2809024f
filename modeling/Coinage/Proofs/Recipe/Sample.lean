import Coinage.Proofs.Recipe.Language
import Coinage.Proofs.Source.Index

namespace Coinage

theorem Scale.draw_counted {σ : Type} [Source σ] (scale : Scale) (counted : Counted σ) :
    scale.draw counted.source = ((scale.draw counted).1, (scale.draw counted).2.source) := by
  unfold draw
  split
  · rfl
  · rfl

namespace Recipe

variable {σ : Type} [Source σ]

-- Words of some recipes, each made with what the ones before it leave of the source.
def sampleAll : List Recipe → σ → List Text × σ
  | [], source => ([], source)
  | recipe :: recipes, source =>
    let (word, source) := recipe.sample source
    let (words, source) := sampleAll recipes source
    (word :: words, source)

-- What is made of the alternative at a position, if there is one.
def sampleAt (choices : List Recipe) (position : Option ℕ) (source : σ) : Text × σ :=
  match position.bind (choices[·]?) with
  | some choice => choice.sample source
  | none => ([], source)

mutual

-- The buffer grows by the word that is made without it, and the source goes the same way.
theorem appendTo_eq (buffer : Array Char) (source : σ) : (recipe : Recipe) →
    recipe.appendTo buffer source = (buffer ++ (recipe.sample source).1, (recipe.sample source).2)
  | literal text => by simp [sample, appendTo]
  | sequence parts => by
    simp only [sample, appendTo, appendAll_eq _ _ parts]
    simp
  | uniform choices => by
    simp only [sample, appendTo]
    split
    · simp
    · simp only [appendNth_eq_sampleAt _ _ _ choices]
      simp
  | weighted scale choices => by
    simp only [sample, appendTo]
    split
    · simp only [appendNth_eq_sampleAt _ _ _ choices]
      simp
    · simp

theorem appendAll_eq (buffer : Array Char) (source : σ) : (parts : List Recipe) →
    appendAll buffer source parts =
      (buffer ++ (sampleAll parts source).1.flatten, (sampleAll parts source).2)
  | [] => by simp [appendAll, sampleAll]
  | part :: parts => by
    simp only [appendAll, appendTo_eq _ _ part, appendAll_eq _ _ parts, sampleAll,
      List.flatten_cons, appendList_append]

theorem appendNth_eq_sampleAt (buffer : Array Char) (source : σ) (position : ℕ) :
    (choices : List Recipe) → appendNth buffer source position choices =
      (buffer ++ (sampleAt choices (some position) source).1,
        (sampleAt choices (some position) source).2)
  | [] => by simp [appendNth, sampleAt]
  | choice :: choices => by
    cases position with
    | zero => exact appendTo_eq buffer source choice
    | succ position =>
      rw [appendNth, appendNth_eq_sampleAt _ _ position choices]
      rfl

end

theorem sample_literal (text : Text) (source : σ) :
    (literal text).sample source = (text, source) := by
  simp [sample, appendTo]

theorem sample_sequence (parts : List Recipe) (source : σ) :
    (sequence parts).sample source =
      ((sampleAll parts source).1.flatten, (sampleAll parts source).2) := by
  simp only [sample, appendTo, appendAll_eq]
  simp

theorem sample_uniform {choices : List Recipe} (h : choices ≠ []) (source : σ) :
    (uniform choices).sample source =
      sampleAt choices (some (Source.index choices.length source).1)
        (Source.index choices.length source).2 := by
  have hempty : ¬choices.isEmpty := by rwa [List.isEmpty_iff]
  simp only [sample, appendTo, if_neg hempty, appendNth_eq_sampleAt]
  simp

theorem sample_weighted (scale : Scale) (choices : List Recipe) (source : σ) :
    (weighted scale choices).sample source =
      sampleAt choices (scale.draw source).1 (scale.draw source).2 := by
  simp only [sample, appendTo]
  split
  · rename_i hdraw
    simp only [hdraw, appendNth_eq_sampleAt]
    simp
  · rename_i hdraw
    rw [hdraw]
    rfl

mutual

-- How a word is made. The source goes from part to part, and from the call that
-- selects an alternative to that alternative. Nothing else uses it.
inductive Makes : Recipe → σ → Text → σ → Prop
  | literal (text : Text) (source : σ) : Makes (literal text) source text source
  | sequence {parts : List Recipe} {source after : σ} {words : List Text}
      (hparts : MakesAll parts source words after) :
      Makes (sequence parts) source words.flatten after
  | unoffered (source : σ) : Makes (uniform []) source [] source
  | uniform {choices : List Recipe} {choice : Recipe} {source middle after : σ} {position : ℕ}
      {word : Text} (hindex : Source.index choices.length source = (position, middle))
      (hchoice : choices[position]? = some choice) (hword : Makes choice middle word after) :
      Makes (uniform choices) source word after
  | undrawn {scale : Scale} {choices : List Recipe} {source after : σ} {position : Option ℕ}
      (hdraw : scale.draw source = (position, after))
      (hchoice : position.bind (choices[·]?) = none) :
      Makes (weighted scale choices) source [] after
  | weighted {scale : Scale} {choices : List Recipe} {choice : Recipe} {source middle after : σ}
      {position : Option ℕ} {word : Text} (hdraw : scale.draw source = (position, middle))
      (hchoice : position.bind (choices[·]?) = some choice)
      (hword : Makes choice middle word after) :
      Makes (weighted scale choices) source word after

inductive MakesAll : List Recipe → σ → List Text → σ → Prop
  | nil (source : σ) : MakesAll [] source [] source
  | cons {recipe : Recipe} {recipes : List Recipe} {source middle after : σ} {word : Text}
      {words : List Text} (hword : Makes recipe source word middle)
      (hwords : MakesAll recipes middle words after) :
      MakesAll (recipe :: recipes) source (word :: words) after

end

mutual

theorem Makes.sample_eq {recipe : Recipe} {source after : σ} {word : Text} :
    Makes recipe source word after → recipe.sample source = (word, after)
  | .literal text source => sample_literal text source
  | .sequence hparts => by rw [sample_sequence, hparts.sampleAll_eq]
  | .unoffered source => rfl
  | .uniform hindex hchoice hword => by
    have hne := List.ne_nil_of_mem (List.mem_of_getElem? hchoice)
    rw [sample_uniform hne, hindex, sampleAt, Option.bind_some, hchoice]
    exact hword.sample_eq
  | .undrawn hdraw hchoice => by rw [sample_weighted, hdraw, sampleAt, hchoice]
  | .weighted hdraw hchoice hword => by
    rw [sample_weighted, hdraw, sampleAt, hchoice]
    exact hword.sample_eq

theorem MakesAll.sampleAll_eq {recipes : List Recipe} {source after : σ} {words : List Text} :
    MakesAll recipes source words after → sampleAll recipes source = (words, after)
  | .nil source => rfl
  | .cons hword hwords => by simp only [sampleAll, hword.sample_eq, hwords.sampleAll_eq]

end

mutual

theorem makes_sample (source : σ) : (recipe : Recipe) →
    Makes recipe source (recipe.sample source).1 (recipe.sample source).2
  | literal text => by
    rw [sample_literal]
    exact .literal text source
  | sequence parts => by
    rw [sample_sequence]
    exact .sequence (makesAll_sampleAll source parts)
  | uniform choices => by
    by_cases hne : choices = []
    · subst hne
      exact .unoffered source
    · have hlt := Source.index_lt (List.length_pos_of_ne_nil hne) source
      have hchoice := List.getElem?_eq_getElem hlt
      rw [sample_uniform hne, sampleAt, Option.bind_some, hchoice]
      exact .uniform rfl hchoice (makes_sample_of_mem _ choices _ (List.getElem_mem hlt))
  | weighted scale choices => by
    rw [sample_weighted, sampleAt]
    cases hchoice : (scale.draw source).1.bind (choices[·]?) with
    | none => exact .undrawn rfl hchoice
    | some choice =>
      obtain ⟨position, -, hposition⟩ := Option.bind_eq_some_iff.mp hchoice
      have hmem := List.mem_of_getElem? hposition
      exact .weighted rfl hchoice (makes_sample_of_mem _ choices choice hmem)

theorem makesAll_sampleAll (source : σ) : (recipes : List Recipe) →
    MakesAll recipes source (sampleAll recipes source).1 (sampleAll recipes source).2
  | [] => .nil source
  | recipe :: recipes =>
    .cons (makes_sample source recipe) (makesAll_sampleAll _ recipes)

theorem makes_sample_of_mem (source : σ) : (recipes : List Recipe) → ∀ recipe ∈ recipes,
    Makes recipe source (recipe.sample source).1 (recipe.sample source).2
  | [] => List.forall_mem_nil _
  | recipe :: recipes =>
    List.forall_mem_cons.mpr ⟨makes_sample source recipe, makes_sample_of_mem source recipes⟩

end

mutual

-- A word is made in the same way whether the calls are counted or not.
theorem Makes.uncounted {recipe : Recipe} {source after : Counted σ} {word : Text} :
    Makes recipe source word after → Makes recipe source.source word after.source
  | .literal text source => .literal text source.source
  | .sequence hparts => .sequence hparts.uncounted
  | .unoffered source => .unoffered source.source
  | .uniform hindex hchoice hword =>
    .uniform (by rw [Source.index_counted, hindex]) hchoice hword.uncounted
  | .undrawn hdraw hchoice => .undrawn (by rw [Scale.draw_counted, hdraw]) hchoice
  | .weighted hdraw hchoice hword =>
    .weighted (by rw [Scale.draw_counted, hdraw]) hchoice hword.uncounted

theorem MakesAll.uncounted {recipes : List Recipe} {source after : Counted σ}
    {words : List Text} : MakesAll recipes source words after →
      MakesAll recipes source.source words after.source
  | .nil source => .nil source.source
  | .cons hword hwords => .cons hword.uncounted hwords.uncounted

end

section Samples

variable (recipe : Recipe)

theorem length_samples (count : ℕ) (source : σ) :
    (recipe.samples count source).1.length = count := by
  induction count generalizing source with
  | zero => rfl
  | succ count ih =>
    simp only [samples, List.length_cons, ih]

-- More words from the same source begin with the same ones.
theorem isPrefix_samples {count more : ℕ} (h : count ≤ more) (source : σ) :
    (recipe.samples count source).1 <+: (recipe.samples more source).1 := by
  induction count generalizing more source with
  | zero => exact List.nil_prefix
  | succ count ih =>
    cases more with
    | zero => exact absurd h (Nat.not_succ_le_zero count)
    | succ more =>
      simp only [samples, List.cons_prefix_cons, true_and]
      exact ih (Nat.le_of_succ_le_succ h) _

end Samples

theorem mem_language_samples {recipe : Recipe} (h : recipe.Everywhere Decides) (count : ℕ)
    (source : σ) : ∀ word ∈ (recipe.samples count source).1, word ∈ recipe.language := by
  induction count generalizing source with
  | zero => exact List.forall_mem_nil _
  | succ count ih =>
    simp only [samples, List.forall_mem_cons]
    exact ⟨mem_language_sample h source, ih _⟩

-- Appending a word to a buffer leaves what is in it, adds what is made without it, and
-- makes the same calls. The word of a sequence is that of its parts, one after the other,
-- and no call is made but those that select an alternative.
theorem appendTo_appends_sample (recipe : Recipe) (source : Counted σ) :
    (∀ buffer : Array Char, recipe.appendTo buffer source =
      (buffer ++ (recipe.sample source).1, (recipe.sample source).2)) ∧
      recipe.sample source.source =
        ((recipe.sample source).1, (recipe.sample source).2.source) ∧
      (∀ word after, recipe.sample source = (word, after) ↔ Makes recipe source word after) ∧
      ∀ parts, (sequence parts).sample source =
        ((sampleAll parts source).1.flatten, (sampleAll parts source).2) := by
  have hmakes := makes_sample source recipe
  refine ⟨fun buffer => appendTo_eq buffer source recipe, hmakes.uncounted.sample_eq, ?_,
    fun parts => sample_sequence parts source⟩
  intro word after
  constructor
  · intro h
    rwa [h] at hmakes
  · exact Makes.sample_eq

end Recipe

end Coinage
