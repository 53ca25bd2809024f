import Coinage.Recipe.Sample
import Coinage.Registry
import Coinage.Source.ChaCha

namespace Coinage.CommandLine

structure Request where
  count : Option UInt64
  seed : Option UInt64
deriving DecidableEq

def defaultCount : UInt64 := 10

inductive Command
  | words (request : Request)
  | version
  | help
deriving DecidableEq

-- A decimal number below 2 ^ 64, with an optional plus sign.
def number? (text : Text) : Option UInt64 :=
  let digits := match text with
    | '+' :: digits => digits
    | digits => digits
  let value := Text.digitsValue digits
  if digits ≠ [] ∧ digits.all Char.isDigit ∧ value < 0x10000000000000000 then
    some value.toUInt64
  else
    none

def Request.withCount? (request : Request) (text : Text) : Option Request :=
  match request.count with
  | none => (number? text).map fun count => { request with count := some count }
  | some _ => none

def Request.withSeed? (request : Request) (text : Text) : Option Request :=
  match request.seed with
  | none => (number? text).map fun seed => { request with seed := some seed }
  | some _ => none

-- The arguments after a double dash.
def Request.withPositionals? (request : Request) (arguments : List Text) : Option Request :=
  arguments.foldlM Request.withCount? request

-- What an argument means for those before it.
inductive Argument
  | terminator
  | seed
  | seedValue (text : Text)
  | version
  | help
  | positional (text : Text)
  | unknown
deriving DecidableEq

-- A single dash is positional. Of several short options written together the
-- first one decides.
def Argument.ofText (text : Text) : Argument :=
  match text with
  | '-' :: '-' :: [] => terminator
  | '-' :: '-' :: long =>
    if long = "seed".toList then seed
    else if long = "version".toList then version
    else if long = "help".toList then help
    else if long.take 5 = "seed=".toList then seedValue (long.drop 5)
    else unknown
  | '-' :: short :: _ =>
    if short = 'V' then version else if short = 'h' then help else unknown
  | text => positional text

-- Reads the arguments from left to right. What comes after a request for the
-- version or for help does not matter.
def parse? (request : Request) : List Text → Option Command
  | [] => some (.words request)
  | argument :: arguments =>
    match Argument.ofText argument, arguments with
    | .terminator, arguments => (request.withPositionals? arguments).map .words
    | .seed, value :: arguments =>
      match request.withSeed? value with
      | some request => parse? request arguments
      | none => none
    | .seed, [] => none
    | .seedValue value, arguments =>
      match request.withSeed? value with
      | some request => parse? request arguments
      | none => none
    | .version, _ => some .version
    | .help, _ => some .help
    | .positional value, arguments =>
      match request.withCount? value with
      | some request => parse? request arguments
      | none => none
    | .unknown, _ => none

def registry : Except Fault Registry :=
  Registry.ofDefinitions
    [('V', "a/i/u".toList), ('C', "p/t/k/s/m/n".toList), ('N', "m/n".toList), ('S', "CV".toList)]

def mainPattern : Text :=
  "S(S)(N)".toList

def line (text : Text) : Text :=
  text ++ ['\n']

def isMalformed : Fault → Bool
  | .malformed _ _ => true
  | _ => false

-- The line on an attempt that is to be refused. An unexpected fault ends the command.
def refusalLine {α : Type} (expected : Fault → Bool) : Except Fault α → Except Fault Text
  | .ok _ => .ok (line "Should not happen".toList)
  | .error fault => if expected fault then .ok (line fault.message) else .error fault

def wordLines (position : Nat) : List Text → Text
  | [] => []
  | word :: words =>
    line ("Generated word ".toList ++ Text.ofNat position ++ ": ".toList ++ word) ++
      wordLines (position + 1) words

-- What the command prints, apart from a log of what is noted while it compiles. The log
-- goes to the same output, but there is none unless the environment asks for it.
def report {σ : Type} [Source σ] (count : Nat) (source : σ) : Except Fault Text := do
  let registry ← registry
  let recipe ← (registry.compile mainPattern).result
  let shortcutLine ← refusalLine (fun _ => true) (Registry.empty.extend 'v' "a".toList)
  let groupLine ← refusalLine isMalformed (registry.compile "C(V".toList).result
  .ok (line ("Compiled pattern: ".toList ++ recipe.display) ++ shortcutLine ++ groupLine ++
    wordLines 1 (recipe.samples count source).1)

def versionText : Text :=
  line "pattern-gen-exemple 0.1.0".toList

def helpText : Text :=
  line "Prints words sampled from a CV(CV)(N) pattern".toList ++
  line [] ++
  line "Usage: pattern-gen-exemple [OPTIONS] [COUNT]".toList ++
  line [] ++
  line "Arguments:".toList ++
  line "  [COUNT]  Number of words to print [default: 10]".toList ++
  line [] ++
  line "Options:".toList ++
  line "      --seed <SEED>  Seed for reproducible output".toList ++
  line "  -h, --help         Print help".toList ++
  line "  -V, --version      Print version".toList

structure Outcome where
  status : UInt32
  output : Text
deriving DecidableEq

-- Runs the command with sources made from seeds. Without a seed the ambient one is taken.
def runWith {σ : Type} [Source σ] (ofSeed : UInt64 → σ) (arguments : List Text)
    (ambient : UInt64) : Outcome :=
  match parse? ⟨none, none⟩ arguments with
  | none => ⟨2, []⟩
  | some .version => ⟨0, versionText⟩
  | some .help => ⟨0, helpText⟩
  | some (.words request) =>
    match report (request.count.getD defaultCount).toNat (ofSeed (request.seed.getD ambient)) with
    | .ok output => ⟨0, output⟩
    | .error _ => ⟨1, []⟩

def run : List Text → UInt64 → Outcome :=
  runWith ChaCha.ofSeed

end Coinage.CommandLine
