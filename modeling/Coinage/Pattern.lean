import Coinage.Bracketed
import Coinage.Shortcut

namespace Coinage

mutual

-- A pattern is a list of alternatives. Each may carry the digits of a weight,
-- and may carry an empty run of digits.
inductive Pattern
  | nil
  | cons (body : Body) (suffix : Option Text) (rest : Pattern)

inductive Body
  | nil
  | plain (run : Text) (rest : Body)
  | quoted (text : Text) (rest : Body)
  | letter (shortcut : Shortcut) (rest : Body)
  | group (bracket : Bracket) (interior : Pattern) (rest : Body)

end

-- A weight is a star and its digits.
def suffixText : Option Text → Text
  | none => []
  | some digits => '*' :: digits

mutual

def Pattern.renders : Pattern → List Text
  | .nil => []
  | .cons body suffix rest => (body.render ++ suffixText suffix) :: rest.renders

def Body.render : Body → Text
  | .nil => []
  | .plain run rest => run ++ rest.render
  | .quoted text rest => '"' :: text ++ '"' :: rest.render
  | .letter shortcut rest => shortcut.toChar :: rest.render
  | .group bracket interior rest =>
    bracket.opener :: ['/'].intercalate interior.renders ++ bracket.closer :: rest.render

end

namespace Pattern

def render (pattern : Pattern) : Text :=
  ['/'].intercalate pattern.renders

def suffixes : Pattern → List (Option Text)
  | nil => []
  | cons _ suffix rest => suffix :: rest.suffixes

def weighted (pattern : Pattern) : Bool :=
  pattern.suffixes.any Option.isSome

def leastWeight : Nat := 1

def greatestWeight : Nat := 128

def unstatedWeight : Nat := 1

-- The weight that a suffix stands for. Digits too small or too large mean the
-- nearest bound, and a bare star states none.
def weight : Option Text → Nat
  | none => unstatedWeight
  | some [] => unstatedWeight
  | some digits => min greatestWeight (max leastWeight (Text.digitsValue digits))

end Pattern

end Coinage
