import Coinage.Json.Skip

-- The members of a JSON object.
namespace Coinage.Json

variable {α : Type}

def readKey : Text → Except Failure (Option Text × Text)
  | [] => .error .truncated
  | '"' :: rest => do
    let (key, rest) ← unquote rest
    .ok (some key, rest)
  | _ => .error .illFormed

-- The next key of an object, or its end. A comma stands between members.
def nextKey (first : Bool) (text : Text) : Except Failure (Option Text × Text) :=
  match skipBlanks text with
  | [] => .error .truncated
  | c :: rest =>
    if c = '\x7d' then
      .ok (none, rest)
    else if first then
      readKey (c :: rest)
    else if c = ',' then
      readKey (skipBlanks rest)
    else
      .error .illFormed

theorem length_readKey {text rest : Text} {key : Option Text}
    (h : readKey text = .ok (key, rest)) : rest.length < text.length := by
  unfold readKey at h
  split at h
  · cases h
  · obtain ⟨⟨_, _⟩, hunquote, hrest⟩ := bind_eq_ok h
    have := length_unquote hunquote
    obtain ⟨-, rfl⟩ := Prod.mk.inj (Except.ok.inj hrest)
    simp only [List.length_cons]
    omega
  · cases h

theorem length_nextKey {first : Bool} {text rest : Text} {key : Option Text}
    (h : nextKey first text = .ok (key, rest)) : rest.length < text.length := by
  have hblanks := length_skipBlanks text
  unfold nextKey at h
  split at h
  · cases h
  · rename_i c after heq
    simp only [heq, List.length_cons] at hblanks
    split at h
    · cases h
      omega
    split at h
    · have := length_readKey h
      simp only [List.length_cons] at this
      omega
    split at h
    · have := length_readKey h
      have := length_skipBlanks after
      omega
    · cases h

-- How a member changes a value: a function of the value, the key and the text
-- after the key. What it leaves of the text is no longer than it was.
structure Member (α : Type) where
  read : α → Text → Text → Except Failure (α × Text)
  length_read {value next : α} {key text rest : Text}
    (h : read value key text = .ok (next, rest)) : rest.length ≤ text.length

-- All members of an object whose opening brace has been read, in order.
def Member.readAll (member : Member α) (first : Bool) (value : α) (text : Text) :
    Except Failure (α × Text) :=
  match _hkey : nextKey first text with
  | .error failure => .error failure
  | .ok (none, rest) => .ok (value, rest)
  | .ok (some key, after) =>
    match _hread : member.read value key after with
    | .error failure => .error failure
    | .ok (value, rest) => member.readAll false value rest
termination_by text.length
decreasing_by
  have := length_nextKey _hkey
  have := member.length_read _hread
  omega

theorem Member.length_readAll {member : Member α} {first : Bool} {value result : α}
    {text rest : Text} (h : member.readAll first value text = .ok (result, rest)) :
    rest.length < text.length := by
  fun_induction Member.readAll member first value text with
  | case1 => cases h
  | case2 =>
    obtain ⟨-, rfl⟩ := Prod.mk.inj (Except.ok.inj h)
    exact length_nextKey ‹_›
  | case3 => cases h
  | case4 first value text key after hkey value' rest' hread ih =>
    have := ih h
    have := length_nextKey hkey
    have := member.length_read hread
    omega

end Coinage.Json
