import Coinage.Text

namespace Coinage

-- Square brackets enclose a mandatory group, round ones an optional group.
inductive Bracket
  | square
  | round
deriving DecidableEq

namespace Bracket

def opener : Bracket → Char
  | square => '['
  | round => '('

def closer : Bracket → Char
  | square => ']'
  | round => ')'

def optional : Bracket → Bool
  | square => false
  | round => true

def ofOpener? (c : Char) : Option Bracket :=
  if c = '[' then some square else if c = '(' then some round else none

def ofCloser? (c : Char) : Option Bracket :=
  if c = ']' then some square else if c = ')' then some round else none

end Bracket

-- A text seen through its quotations and groups. Nothing is dropped, so
-- `render` gives the text back.
inductive Bracketed
  | nil
  | char (c : Char) (rest : Bracketed)
  | quoted (text : Text) (rest : Bracketed)
  | group (bracket : Bracket) (interior rest : Bracketed)
deriving DecidableEq

namespace Bracketed

def render : Bracketed → Text
  | nil => []
  | char c rest => c :: rest.render
  | quoted text rest => '"' :: text ++ '"' :: rest.render
  | group bracket interior rest =>
    bracket.opener :: interior.render ++ bracket.closer :: rest.render

def depth : Bracketed → Nat
  | nil => 0
  | char _ rest => rest.depth
  | quoted _ rest => rest.depth
  | group _ interior rest => max (interior.depth + 1) rest.depth

-- The items of one level in the opposite order, put in front of the second
-- level. Interiors are not touched.
def reverseOnto : Bracketed → Bracketed → Bracketed
  | nil, tail => tail
  | char c rest, tail => rest.reverseOnto (char c tail)
  | quoted text rest, tail => rest.reverseOnto (quoted text tail)
  | group bracket interior rest, tail => rest.reverseOnto (group bracket interior tail)

def reverse (level : Bracketed) : Bracketed :=
  level.reverseOnto nil

end Bracketed

end Coinage
