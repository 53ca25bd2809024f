import Coinage.Registry

namespace Coinage

-- A main pattern and subpatterns under any characters. Nothing is checked
-- before the document becomes a registry.
structure Document where
  main : Text
  subpatterns : Table Text
deriving DecidableEq

namespace Document

def empty : Document :=
  ⟨[], .empty⟩

def define (document : Document) (c : Char) (text : Text) : Document :=
  { document with subpatterns := document.subpatterns.insert c text }

def ofDefinitions (main : Text) (definitions : List (Char × Text)) : Document :=
  definitions.foldl (fun document definition => document.define definition.1 definition.2)
    ⟨main, .empty⟩

-- The subpatterns are registered in the order of their characters' code points.
def registry (document : Document) : Except Fault Registry :=
  Registry.ofDefinitions document.subpatterns.entries

-- A document can also be converted into what makes words, which keeps it or uses it
-- up. Either way it is this compilation and nothing more.
def compile (document : Document) : Journaled Recipe := do
  let registry ← .ofResult document.registry
  registry.compile document.main

end Document

end Coinage
