import Coinage.Bracketed.Reader
import Coinage.Decimal
import Coinage.Shortcut

namespace Coinage

-- Which pattern a reference stands in.
inductive Origin
  | main
  | subpattern (shortcut : Shortcut)
deriving DecidableEq

-- Why a definition, a pattern or a weight is refused.
inductive Fault
  | invalidShortcut (c : Char)
  | unresolvedShortcut (shortcut : Shortcut) (origin : Origin)
  | invalidWeight (weight : Float)
  | malformed (pattern : Text) (malformation : Malformation)

def Origin.text : Origin → Text
  | main => "main pattern".toList
  | subpattern shortcut => "subpattern ".toList ++ [shortcut.toChar]

def Flaw.text : Flaw → Text
  | unclosedGroup bracket =>
    "group opened with '".toList ++ bracket.opener :: "' is never closed".toList
  | unclosedQuote => "quoted literal is never closed".toList
  | strayCloser bracket =>
    "unexpected '".toList ++ bracket.closer :: "' without a matching opener".toList
  | wrongCloser expected found =>
    "expected '".toList ++ expected.closer :: "' but found '".toList ++ found.closer :: ['\'']
  | tooDeep => "groups nested deeper than ".toList ++ Text.ofNat depthLimit ++ " levels".toList

def Fault.message : Fault → Text
  | invalidShortcut c =>
    "invalid shortcut '".toList ++ c :: "': shortcut letters must be between A and Z".toList
  | unresolvedShortcut shortcut origin =>
    "subpattern ".toList ++ shortcut.toChar :: " referenced from ".toList ++ origin.text ++
      (" has not been loaded yet (complex subpatterns cannot reference other complex " ++
        "subpatterns)").toList
  | invalidWeight weight =>
    "invalid weight ".toList ++ Decimal.text weight ++
      ": weights must be strictly positive".toList
  | malformed pattern malformation =>
    "malformed group at offset ".toList ++ Text.ofNat malformation.position ++
      " in \"".toList ++ pattern ++ "\": ".toList ++ malformation.flaw.text

end Coinage
