import Coinage.Text

-- Texts as JSON strings.
namespace Coinage.Json

-- Why a text is not read as JSON of the expected shape: it ends too early, it is
-- not JSON, or it is JSON of another shape.
inductive Failure
  | truncated
  | illFormed
  | wrongShape
deriving DecidableEq

def hexDigit (n : Nat) : Char :=
  if n < 10 then Char.ofNat ('0'.toNat + n) else Char.ofNat ('a'.toNat + (n - 10))

-- A character inside a JSON string. What must be escaped is written in its
-- short form if there is one.
def escape (c : Char) : Text :=
  if c = '"' then ['\\', '"']
  else if c = '\\' then ['\\', '\\']
  else if c = '\x08' then ['\\', 'b']
  else if c = '\t' then ['\\', 't']
  else if c = '\n' then ['\\', 'n']
  else if c = '\x0c' then ['\\', 'f']
  else if c = '\r' then ['\\', 'r']
  else if c.toNat < 0x20 then
    ['\\', 'u', '0', '0', hexDigit (c.toNat / 16), hexDigit (c.toNat % 16)]
  else [c]

def quote (text : Text) : Text :=
  '"' :: text.flatMap escape ++ ['"']

def shortEscape? (c : Char) : Option Char :=
  if c = '"' ∨ c = '\\' ∨ c = '/' then some c
  else if c = 'b' then some '\x08'
  else if c = 'f' then some '\x0c'
  else if c = 'n' then some '\n'
  else if c = 'r' then some '\r'
  else if c = 't' then some '\t'
  else none

def hexValue? (c : Char) : Option Nat :=
  if '0' ≤ c ∧ c ≤ '9' then some (c.toNat - '0'.toNat)
  else if 'a' ≤ c ∧ c ≤ 'f' then some (c.toNat - 'a'.toNat + 10)
  else if 'A' ≤ c ∧ c ≤ 'F' then some (c.toNat - 'A'.toNat + 10)
  else none

-- Four hexadecimal digits. The text ends too early if fewer than four bytes are
-- left.
def readHex : Text → Except Failure (Nat × Text)
  | a :: b :: c :: d :: rest =>
    match hexValue? a, hexValue? b, hexValue? c, hexValue? d with
    | some a, some b, some c, some d => .ok (((a * 16 + b) * 16 + c) * 16 + d, rest)
    | _, _, _, _ => .error .illFormed
  | text => .error (if text.utf8Length < 4 then .truncated else .illFormed)

-- The second half of a surrogate pair, and the character that both make up.
def readLowSurrogate (high : Nat) : Text → Except Failure (Char × Text)
  | [] => .error .truncated
  | '\\' :: [] => .error .truncated
  | '\\' :: 'u' :: text => do
    let (low, rest) ← readHex text
    if 0xDC00 ≤ low ∧ low ≤ 0xDFFF then
      .ok (Char.ofNat (0x10000 + (high - 0xD800) * 0x400 + (low - 0xDC00)), rest)
    else
      .error .illFormed
  | _ => .error .illFormed

def readEscape : Text → Except Failure (Char × Text)
  | [] => .error .truncated
  | 'u' :: text => do
    let (unit, rest) ← readHex text
    if 0xD800 ≤ unit ∧ unit ≤ 0xDBFF then
      readLowSurrogate unit rest
    else if 0xDC00 ≤ unit ∧ unit ≤ 0xDFFF then
      .error .illFormed
    else
      .ok (Char.ofNat unit, rest)
  | c :: rest =>
    match shortEscape? c with
    | some c => .ok (c, rest)
    | none => .error .illFormed

-- A sequence of two steps succeeds through a result of the first one.
theorem bind_eq_ok {α β : Type} {first : Except Failure α} {next : α → Except Failure β}
    {value : β} (h : first >>= next = .ok value) :
    ∃ middle, first = .ok middle ∧ next middle = .ok value := by
  cases first with
  | error failure => cases h
  | ok middle => exact ⟨middle, rfl, h⟩

theorem length_readHex {text rest : Text} {value : Nat} (h : readHex text = .ok (value, rest)) :
    rest.length ≤ text.length := by
  unfold readHex at h
  split at h
  · split at h
    · cases h
      simp only [List.length_cons]
      omega
    · cases h
  · cases h

theorem length_readLowSurrogate {high : Nat} {text rest : Text} {c : Char}
    (h : readLowSurrogate high text = .ok (c, rest)) : rest.length ≤ text.length := by
  unfold readLowSurrogate at h
  split at h
  · cases h
  · cases h
  · obtain ⟨⟨low, after⟩, hhex, hafter⟩ := bind_eq_ok h
    have hlen := length_readHex hhex
    simp only at hafter
    split at hafter
    · obtain ⟨-, rfl⟩ := Prod.mk.inj (Except.ok.inj hafter)
      simp only [List.length_cons]
      omega
    · cases hafter
  · cases h

theorem length_readEscape {text rest : Text} {c : Char} (h : readEscape text = .ok (c, rest)) :
    rest.length ≤ text.length := by
  unfold readEscape at h
  split at h
  · cases h
  · obtain ⟨⟨unit, after⟩, hhex, hafter⟩ := bind_eq_ok h
    have hlen := length_readHex hhex
    simp only at hafter
    simp only [List.length_cons]
    split at hafter
    · have := length_readLowSurrogate hafter
      omega
    · split at hafter
      · cases hafter
      · obtain ⟨-, rfl⟩ := Prod.mk.inj (Except.ok.inj hafter)
        omega
  · split at h
    · obtain ⟨-, rfl⟩ := Prod.mk.inj (Except.ok.inj h)
      simp
    · cases h

-- The text of a JSON string whose opening quote has been read, and what follows
-- its closing quote.
def unquote (text : Text) : Except Failure (Text × Text) :=
  match text with
  | [] => .error .truncated
  | c :: rest =>
    if c = '"' then
      .ok ([], rest)
    else if c = '\\' then
      match _h : readEscape rest with
      | .error failure => .error failure
      | .ok (c, rest) => (unquote rest).map fun (text, rest) => (c :: text, rest)
    else if c.toNat < 0x20 then
      .error .illFormed
    else
      (unquote rest).map fun (text, rest) => (c :: text, rest)
termination_by text.length
decreasing_by
  · have := length_readEscape _h
    simp only [List.length_cons]
    omega
  · simp

private theorem length_of_map {result : Except Failure (Text × Text)} {c : Char}
    {value rest : Text}
    (h : (result.map fun (text, rest) => (c :: text, rest)) = .ok (value, rest)) :
    ∃ value', result = .ok (value', rest) := by
  cases result with
  | error failure => cases h
  | ok pair =>
    obtain ⟨-, rfl⟩ := Prod.mk.inj (Except.ok.inj h)
    exact ⟨pair.1, rfl⟩

theorem length_unquote {text value rest : Text} (h : unquote text = .ok (value, rest)) :
    rest.length < text.length := by
  fun_induction unquote text generalizing value rest with
  | case1 => cases h
  | case2 =>
    obtain ⟨-, rfl⟩ := Prod.mk.inj (Except.ok.inj h)
    simp
  | case3 => cases h
  | case4 rest' c after hescape _ ih =>
    obtain ⟨value', hvalue⟩ := length_of_map h
    have := ih hvalue
    have := length_readEscape hescape
    simp only [List.length_cons]
    omega
  | case5 => cases h
  | case6 c rest' _ _ _ ih =>
    obtain ⟨value', hvalue⟩ := length_of_map h
    have := ih hvalue
    simp only [List.length_cons]
    omega

end Coinage.Json
