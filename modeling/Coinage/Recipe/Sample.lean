import Coinage.Recipe

namespace Coinage.Recipe

variable {σ : Type} [Source σ]

mutual

-- Makes a word at the end of a buffer, with the choices that the source makes.
def appendTo (buffer : Array Char) (source : σ) : Recipe → Array Char × σ
  | literal text => (buffer ++ text, source)
  | sequence parts => appendAll buffer source parts
  | uniform choices =>
    if choices.isEmpty then
      (buffer, source)
    else
      let (position, source) := Source.index choices.length source
      appendNth buffer source position choices
  | weighted scale choices =>
    match scale.draw source with
    | (some position, source) => appendNth buffer source position choices
    | (none, source) => (buffer, source)

def appendAll (buffer : Array Char) (source : σ) : List Recipe → Array Char × σ
  | [] => (buffer, source)
  | recipe :: recipes =>
    let (buffer, source) := recipe.appendTo buffer source
    appendAll buffer source recipes

-- The recipe at a position of a list. Past its end nothing is appended.
def appendNth (buffer : Array Char) (source : σ) : Nat → List Recipe → Array Char × σ
  | _, [] => (buffer, source)
  | 0, recipe :: _ => recipe.appendTo buffer source
  | position + 1, _ :: recipes => appendNth buffer source position recipes

end

def sample (recipe : Recipe) (source : σ) : Text × σ :=
  let (buffer, source) := recipe.appendTo #[] source
  (buffer.toList, source)

def samples (recipe : Recipe) : Nat → σ → List Text × σ
  | 0, source => ([], source)
  | count + 1, source =>
    let (word, source) := recipe.sample source
    let (words, source) := samples recipe count source
    (word :: words, source)

end Coinage.Recipe
