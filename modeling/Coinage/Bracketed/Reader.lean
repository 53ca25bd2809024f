import Coinage.Bracketed

namespace Coinage

-- What is wrong with a text whose quotations and groups do not match.
inductive Flaw
  | unclosedGroup (bracket : Bracket)
  | unclosedQuote
  | strayCloser (bracket : Bracket)
  | wrongCloser (expected found : Bracket)
  | tooDeep
deriving DecidableEq

-- A flaw and the byte offset of the character it is about.
structure Malformation where
  position : Nat
  flaw : Flaw
deriving DecidableEq

def depthLimit : Nat := 64

-- A group whose closer has not been met: where it was opened and what stands
-- before it on its own level, last item first.
structure OpenGroup where
  bracket : Bracket
  position : Nat
  before : Bracketed

-- A quotation that is still open: where it began and its text so far, last
-- character first.
structure OpenQuote where
  position : Nat
  text : Text

-- What is known after reading some of a text: the offset reached, the items of
-- the innermost level (last one first), the open groups (innermost first) and
-- the open quotation.
structure Reader where
  position : Nat
  level : Bracketed
  groups : List OpenGroup
  quote : Option OpenQuote

namespace Reader

def start : Reader :=
  ⟨0, .nil, [], none⟩

def openQuote (reader : Reader) : Reader :=
  { reader with quote := some ⟨reader.position, []⟩ }

def readQuoted (reader : Reader) (quote : OpenQuote) (c : Char) : Reader :=
  if c = '"' then
    { reader with level := .quoted quote.text.reverse reader.level, quote := none }
  else
    { reader with quote := some { quote with text := c :: quote.text } }

def openGroup (reader : Reader) (bracket : Bracket) : Except Malformation Reader :=
  if reader.groups.length < depthLimit then
    .ok { reader with
      level := .nil
      groups := ⟨bracket, reader.position, reader.level⟩ :: reader.groups }
  else
    .error ⟨reader.position, .tooDeep⟩

def closeGroup (reader : Reader) (bracket : Bracket) : Except Malformation Reader :=
  match reader.groups with
  | [] => .error ⟨reader.position, .strayCloser bracket⟩
  | group :: groups =>
    if group.bracket = bracket then
      .ok { reader with
        level := .group bracket reader.level.reverse group.before
        groups := groups }
    else
      .error ⟨reader.position, .wrongCloser group.bracket bracket⟩

-- A character outside quotations.
def readOpen (reader : Reader) (c : Char) : Except Malformation Reader :=
  if c = '"' then
    .ok reader.openQuote
  else
    match Bracket.ofOpener? c, Bracket.ofCloser? c with
    | some bracket, _ => reader.openGroup bracket
    | none, some bracket => reader.closeGroup bracket
    | none, none => .ok { reader with level := .char c reader.level }

def advance (reader : Reader) (c : Char) : Reader :=
  { reader with position := reader.position + c.utf8Size }

def step (reader : Reader) (c : Char) : Except Malformation Reader :=
  match reader.quote with
  | some quote => .ok ((reader.readQuoted quote c).advance c)
  | none => (reader.readOpen c).map (·.advance c)

-- At the end of the text nothing may be open. An open quotation is reported
-- first, then the innermost open group.
def finish (reader : Reader) : Except Malformation Bracketed :=
  match reader.quote, reader.groups with
  | some quote, _ => .error ⟨quote.position, .unclosedQuote⟩
  | none, group :: _ => .error ⟨group.position, .unclosedGroup group.bracket⟩
  | none, [] => .ok reader.level.reverse

end Reader

-- Reads a text in one pass, up to the first character that cannot be right.
def Bracketed.read (text : Text) : Except Malformation Bracketed := do
  (← text.foldlM Reader.step Reader.start).finish

end Coinage
