import Coinage.Recipe.Compile

namespace Coinage

@[ext]
structure Lexicon where
  texts : ShortcutMap Text

namespace Lexicon

def empty : Lexicon :=
  ⟨.empty⟩

-- Names a subpattern. An earlier one of the same name is replaced.
def define (lexicon : Lexicon) (c : Char) (text : Text) : Except Fault Lexicon :=
  match Shortcut.ofChar? c with
  | some shortcut => .ok ⟨lexicon.texts.insert shortcut text⟩
  | none => .error (.invalidShortcut c)

-- A subpattern is primitive if it refers to no other, and complex otherwise.
def isPrimitive (text : Text) : Bool :=
  !Text.mentionsShortcut text

def primitives (lexicon : Lexicon) : ShortcutMap Text :=
  lexicon.texts.filter isPrimitive

def complexes (lexicon : Lexicon) : ShortcutMap Text :=
  lexicon.texts.filter fun text => !isPrimitive text

-- Compiles subpatterns one after the other, all of them with the same recipes
-- to refer to, and adds them to those in `known`.
def compileAll (primitive : Bool) (recipes : ShortcutMap Recipe) :
    List (Shortcut × Text) → ShortcutMap Recipe → Journaled (ShortcutMap Recipe)
  | [], known => pure known
  | (shortcut, text) :: rest, known => do
    let recipe ← Recipe.compile ⟨recipes, .subpattern shortcut⟩ text
    .note (.subpattern primitive shortcut text recipe)
    compileAll primitive recipes rest (known.insert shortcut recipe)

-- Primitive subpatterns first, then complex ones, which may refer to primitive
-- ones only, then the main pattern, which may refer to all.
def compile (lexicon : Lexicon) (main : Text) : Journaled Recipe := do
  let primitives ← compileAll true .empty lexicon.primitives.entries .empty
  let recipes ← compileAll false primitives lexicon.complexes.entries primitives
  let recipe ← Recipe.compile ⟨recipes, .main⟩ main
  .note (.main main recipe)
  pure recipe

end Lexicon

end Coinage
