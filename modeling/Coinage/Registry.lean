import Coinage.Lexicon
import Coinage.Table

namespace Coinage

-- Named subpatterns, primitive and complex ones apart.
@[ext]
structure Registry where
  primitive : Table Text
  complex : Table Text
deriving DecidableEq

namespace Registry

def empty : Registry :=
  ⟨.empty, .empty⟩

def remove (registry : Registry) (c : Char) : Registry :=
  ⟨registry.primitive.erase c, registry.complex.erase c⟩

def put (registry : Registry) (c : Char) (text : Text) : Registry :=
  if text.mentionsShortcut then
    { registry with complex := registry.complex.insert c text }
  else
    { registry with primitive := registry.primitive.insert c text }

-- Names a subpattern. An earlier one of the same name is replaced, and may have
-- been of the other kind.
def define (c : Char) (text : Text) : ExceptT Fault (StateM Registry) Unit := do
  if (Shortcut.ofChar? c).isNone then
    throw (.invalidShortcut c)
  modify (·.remove c)
  modify (·.put c text)

-- Names one subpattern after the other, up to the first one that is refused.
def defineAll (definitions : List (Char × Text)) : ExceptT Fault (StateM Registry) Unit :=
  definitions.forM fun definition => define definition.1 definition.2

-- The registry that some definitions lead to if none is refused.
def ofDefinitions (definitions : List (Char × Text)) : Except Fault Registry :=
  match (defineAll definitions).run empty with
  | (.ok (), registry) => .ok registry
  | (.error fault, _) => .error fault

-- A registry with one more definition. The registry itself is left as it is.
def extend (registry : Registry) (c : Char) (text : Text) : Except Fault Registry :=
  match (define c text).run registry with
  | (.ok (), extended) => .ok extended
  | (.error fault, _) => .error fault

-- The texts of a table under the letters that name them.
def named (table : Table Text) : List (Shortcut × Text) :=
  table.entries.filterMap fun entry => (Shortcut.ofChar? entry.1).map (·, entry.2)

def compile (registry : Registry) (main : Text) : Journaled Recipe := do
  let primitives ← Lexicon.compileAll true .empty (named registry.primitive) .empty
  let recipes ← Lexicon.compileAll false primitives (named registry.complex) primitives
  let recipe ← Recipe.compile ⟨recipes, .main⟩ main
  .note (.main main recipe)
  pure recipe

-- Compiles a main pattern with some definitions and no others.
def compileWith (definitions : List (Char × Text)) (main : Text) : Journaled Recipe := do
  let registry ← .ofResult (ofDefinitions definitions)
  registry.compile main

end Registry

end Coinage
