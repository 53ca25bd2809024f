import Coinage.Json.Number

-- The start of a JSON value.
namespace Coinage.Json

def isBlank (c : Char) : Bool :=
  c = ' ' || c = '\n' || c = '\t' || c = '\r'

def skipBlanks (text : Text) : Text :=
  text.dropWhile isBlank

def readWord : Text → Text → Except Failure Text
  | [], text => .ok text
  | _ :: _, [] => .error .truncated
  | letter :: letters, c :: rest => if c = letter then readWord letters rest else .error .illFormed

-- The letters that must follow the first one of a word.
def wordRest? (c : Char) : Option Text :=
  if c = 'n' then some ['u', 'l', 'l']
  else if c = 't' then some ['r', 'u', 'e']
  else if c = 'f' then some ['a', 'l', 's', 'e']
  else none

def startsNumber (c : Char) : Bool :=
  c = '-' || c.isDigit

-- The failure of what stands where another kind of value is wanted. A container
-- is known to be wrong by its first character, anything else must be read.
def misfit : Text → Failure
  | [] => .truncated
  | c :: rest =>
    if c = '[' ∨ c = '\x7b' then
      .wrongShape
    else if c = '"' then
      match unquote rest with
      | .error failure => failure
      | .ok _ => .wrongShape
    else if startsNumber c then
      numberFailure (c :: rest)
    else
      match wordRest? c with
      | none => .illFormed
      | some letters =>
        match readWord letters rest with
        | .error failure => failure
        | .ok _ => .wrongShape

def readString (text : Text) : Except Failure (Text × Text) :=
  match skipBlanks text with
  | '"' :: rest => unquote rest
  | text => .error (misfit text)

def readColon (text : Text) : Except Failure Text :=
  match skipBlanks text with
  | [] => .error .truncated
  | ':' :: rest => .ok rest
  | _ => .error .illFormed

theorem length_skipBlanks (text : Text) : (skipBlanks text).length ≤ text.length :=
  length_dropWhile _ _

theorem length_readWord {letters text rest : Text} (h : readWord letters text = .ok rest) :
    rest.length ≤ text.length := by
  induction letters generalizing text with
  | nil =>
    cases h
    exact Nat.le_refl _
  | cons letter letters ih =>
    cases text with
    | nil => cases h
    | cons c after =>
      simp only [readWord] at h
      split at h
      · have := ih h
        simp only [List.length_cons]
        omega
      · cases h

theorem length_readString {text value rest : Text} (h : readString text = .ok (value, rest)) :
    rest.length < text.length := by
  have hblanks := length_skipBlanks text
  unfold readString at h
  split at h
  · rename_i heq
    have := length_unquote h
    simp only [heq, List.length_cons] at hblanks
    omega
  · cases h

theorem length_readColon {text rest : Text} (h : readColon text = .ok rest) :
    rest.length < text.length := by
  have hblanks := length_skipBlanks text
  unfold readColon at h
  split at h
  · cases h
  · rename_i heq
    cases h
    simp only [heq, List.length_cons] at hblanks
    omega
  · cases h

end Coinage.Json
