import Coinage.Urn

namespace Coinage

-- How words are made: a fixed text, the parts of a word one after the other, or
-- a choice, each alternative equally likely or as likely as its weight says.
inductive Recipe
  | literal (text : Text)
  | sequence (parts : List Recipe)
  | uniform (choices : List Recipe)
  | weighted (scale : Scale) (choices : List Recipe)

namespace Recipe

def ofUrn (urn : Urn Recipe) : Recipe :=
  .weighted urn.scale urn.items.toList

def literal? : Recipe → Option Text
  | literal text => some text
  | _ => none

mutual

-- The canonical text of a recipe: literals in quotes, sequences joined by " + ",
-- alternatives in brackets, weights after a star.
def display : Recipe → Text
  | literal text => '"' :: text ++ ['"']
  | sequence parts => [' ', '+', ' '].intercalate (displays parts)
  | uniform choices => '[' :: ['/'].intercalate (displays choices) ++ [']']
  | weighted scale choices => scale.display (displays choices)

def displays : List Recipe → List Text
  | [] => []
  | recipe :: recipes => recipe.display :: displays recipes

end

end Recipe

end Coinage
