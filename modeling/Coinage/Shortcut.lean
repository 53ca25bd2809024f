import Coinage.Text

namespace Coinage

-- A shortcut names a subpattern by one of the letters A to Z.
structure Shortcut where
  index : Fin 26
deriving DecidableEq

namespace Shortcut

def toChar (shortcut : Shortcut) : Char :=
  Char.ofNat ('A'.toNat + shortcut.index)

def ofChar? (c : Char) : Option Shortcut :=
  if h : 'A'.toNat ≤ c.toNat ∧ c.toNat < 'A'.toNat + 26 then
    some ⟨⟨c.toNat - 'A'.toNat, by omega⟩⟩
  else
    none

def all : List Shortcut :=
  (List.finRange 26).map Shortcut.mk

end Shortcut

namespace Text

-- Whether a letter stands outside quotations in the rest of a text. Each '"'
-- starts or ends a quotation, so all that matters of what came before is whether
-- one is open.
def mentionsShortcutFrom (quoted : Bool) : Text → Bool
  | [] => false
  | c :: rest =>
    if c = '"' then
      mentionsShortcutFrom (!quoted) rest
    else
      (!quoted && (Shortcut.ofChar? c).isSome) || mentionsShortcutFrom quoted rest

def mentionsShortcut (text : Text) : Bool :=
  mentionsShortcutFrom false text

end Text

-- A finite map from shortcuts, given by what it holds at each of them.
@[ext]
structure ShortcutMap (α : Type) where
  get? : Shortcut → Option α

namespace ShortcutMap

variable {α β : Type}

def empty : ShortcutMap α :=
  ⟨fun _ => none⟩

def insert (map : ShortcutMap α) (shortcut : Shortcut) (value : α) : ShortcutMap α :=
  ⟨fun other => if other = shortcut then some value else map.get? other⟩

-- What is held at the shortcuts that satisfy a condition on their value.
def filter (map : ShortcutMap α) (keep : α → Bool) : ShortcutMap α :=
  ⟨fun shortcut => (map.get? shortcut).filter keep⟩

-- The entries in the order of the letters.
def entries (map : ShortcutMap α) : List (Shortcut × α) :=
  Shortcut.all.filterMap fun shortcut => (map.get? shortcut).map (shortcut, ·)

end ShortcutMap

end Coinage
