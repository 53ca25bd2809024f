import Coinage.Bracketed.Reader
import Coinage.Pattern

namespace Coinage

namespace Body

-- A body with one more character in front. Adjacent characters form one run.
def prepend (c : Char) : Body → Body
  | plain run rest => plain (c :: run) rest
  | body => plain [c] body

def leadingDigits : Body → Text
  | plain run _ => run.takeWhile Char.isDigit
  | _ => []

def dropDigits : Body → Body
  | plain run rest =>
    match run.dropWhile Char.isDigit with
    | [] => rest
    | c :: run => plain (c :: run) rest
  | body => body

end Body

-- The alternatives of the right part of a level. The first of them may still
-- grow to the left.
structure Alternatives where
  body : Body
  suffix : Option Text
  rest : Pattern

namespace Alternatives

def empty : Alternatives :=
  ⟨.nil, none, .nil⟩

-- No further growth. An alternative that is empty and carries no weight is
-- dropped.
def close (right : Alternatives) : Pattern :=
  match right.body, right.suffix with
  | .nil, none => right.rest
  | body, suffix => .cons body suffix right.rest

-- A slash to the left starts a new alternative.
def slash (right : Alternatives) : Alternatives :=
  ⟨.nil, none, right.close⟩

-- A star to the left takes the digits after it as the weight of a new
-- alternative.
def star (right : Alternatives) : Alternatives :=
  ⟨.nil, some right.body.leadingDigits, { right with body := right.body.dropDigits }.close⟩

-- A character outside quotations, brackets apart.
def char (c : Char) (right : Alternatives) : Alternatives :=
  if c = '/' then
    right.slash
  else if c = '*' then
    right.star
  else
    match Shortcut.ofChar? c with
    | some shortcut => { right with body := .letter shortcut right.body }
    | none => { right with body := right.body.prepend c }

end Alternatives

namespace Bracketed

-- Reads a level from right to left, so that a weight knows its digits and a run
-- knows its end.
def alternatives : Bracketed → Alternatives
  | nil => .empty
  | char c rest => rest.alternatives.char c
  | quoted text rest =>
    let right := rest.alternatives
    { right with body := .quoted text right.body }
  | group bracket interior rest =>
    let right := rest.alternatives
    { right with body := .group bracket interior.alternatives.close right.body }

def pattern (level : Bracketed) : Pattern :=
  level.alternatives.close

end Bracketed

-- Reads a pattern. Only unmatched quotations and groups are refused.
def Pattern.read (text : Text) : Except Malformation Pattern :=
  (Bracketed.read text).map Bracketed.pattern

end Coinage
