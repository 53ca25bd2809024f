import Coinage.Json.Value

-- Values that are not wanted. They must be JSON, but an escape in their strings
-- need not stand for a character and their numbers may have any size.
namespace Coinage.Json

def skipEscape : Text → Except Failure Text
  | [] => .error .truncated
  | 'u' :: text => (readHex text).map Prod.snd
  | c :: rest => if (shortEscape? c).isSome then .ok rest else .error .illFormed

theorem length_skipEscape {text rest : Text} (h : skipEscape text = .ok rest) :
    rest.length ≤ text.length := by
  unfold skipEscape at h
  split at h
  · cases h
  · rename_i text
    cases hhex : readHex text with
    | error failure =>
      rw [hhex] at h
      cases h
    | ok pair =>
      have := length_readHex hhex
      rw [hhex] at h
      cases h
      simp only [List.length_cons]
      omega
  · split at h
    · cases h
      simp
    · cases h

-- A string whose opening quote has been read.
def skipQuoted (text : Text) : Except Failure Text :=
  match text with
  | [] => .error .truncated
  | c :: rest =>
    if c = '"' then
      .ok rest
    else if c = '\\' then
      match _h : skipEscape rest with
      | .error failure => .error failure
      | .ok rest => skipQuoted rest
    else if c.toNat < 0x20 then
      .error .illFormed
    else
      skipQuoted rest
termination_by text.length
decreasing_by
  · have := length_skipEscape _h
    simp only [List.length_cons]
    omega
  · simp

theorem length_skipQuoted {text rest : Text} (h : skipQuoted text = .ok rest) :
    rest.length < text.length := by
  fun_induction skipQuoted text with
  | case1 => cases h
  | case2 =>
    cases h
    simp
  | case3 => cases h
  | case4 rest' after hescape _ ih =>
    have := ih h
    have := length_skipEscape hescape
    simp only [List.length_cons]
    omega
  | case5 => cases h
  | case6 c rest' _ _ _ ih =>
    have := ih h
    simp only [List.length_cons]
    omega

inductive Container
  | array
  | object
deriving DecidableEq

def Container.closer : Container → Char
  | array => ']'
  | object => '\x7d'

-- The start of a value: all of it, or the opener of a container.
def skipStart : Text → Except Failure (Option Container × Text)
  | [] => .error .truncated
  | c :: rest =>
    if c = '[' then
      .ok (some .array, rest)
    else if c = '\x7b' then
      .ok (some .object, rest)
    else if c = '"' then do
      let rest ← skipQuoted rest
      .ok (none, rest)
    else if startsNumber c then do
      let (_, rest) ← readNumeral .illFormed (dropMinus (c :: rest))
      .ok (none, rest)
    else
      match wordRest? c with
      | none => .error .illFormed
      | some letters => do
        let rest ← readWord letters rest
        .ok (none, rest)

-- What stands in a container before each of its values.
def skipKey : Container → Text → Except Failure Text
  | .array, text => .ok text
  | .object, text =>
    match skipBlanks text with
    | [] => .error .truncated
    | '"' :: text => do
      let text ← skipQuoted text
      readColon text
    | _ => .error .illFormed

theorem length_skipStart {text rest : Text} {opened : Option Container}
    (h : skipStart text = .ok (opened, rest)) : rest.length < text.length := by
  unfold skipStart at h
  split at h
  · cases h
  · rename_i c after
    simp only [List.length_cons]
    split at h
    · cases h
      omega
    split at h
    · cases h
      omega
    split at h
    · obtain ⟨_, hquoted, hrest⟩ := bind_eq_ok h
      have := length_skipQuoted hquoted
      cases hrest
      omega
    split at h
    · obtain ⟨⟨_, _⟩, hnumeral, hrest⟩ := bind_eq_ok h
      have := length_readNumeral hnumeral
      have := length_dropMinus (c :: after)
      simp only [List.length_cons] at this
      cases hrest
      omega
    split at h
    · cases h
    · obtain ⟨_, hword, hrest⟩ := bind_eq_ok h
      have := length_readWord hword
      cases hrest
      omega

theorem length_skipKey {container : Container} {text rest : Text}
    (h : skipKey container text = .ok rest) : rest.length ≤ text.length := by
  have hblanks := length_skipBlanks text
  unfold skipKey at h
  split at h
  · cases h
    exact Nat.le_refl _
  · split at h
    · cases h
    · rename_i heq
      obtain ⟨_, hquoted, hcolon⟩ := bind_eq_ok h
      have := length_skipQuoted hquoted
      have := length_readColon hcolon
      simp only [heq, List.length_cons] at hblanks
      omega
    · cases h

mutual

-- A value inside open containers, the innermost one first, and what follows it
-- up to the end of the outermost container.
def skipValue (containers : List Container) (text : Text) : Except Failure Text :=
  match _h : skipStart (skipBlanks text) with
  | .error failure => .error failure
  | .ok (none, rest) => skipRest containers rest
  | .ok (some container, inside) =>
    match _hblanks : skipBlanks inside with
    | [] => .error .truncated
    | c :: after =>
      if c = container.closer then
        skipRest containers after
      else
        match _hkey : skipKey container (c :: after) with
        | .error failure => .error failure
        | .ok rest => skipValue (container :: containers) rest
termination_by text.length
decreasing_by
  all_goals
    have hstart := length_skipStart _h
    have htext := length_skipBlanks text
  · omega
  · have hrest := length_skipBlanks inside
    simp only [_hblanks, List.length_cons] at hrest
    omega
  · have hrest := length_skipBlanks inside
    have hkey := length_skipKey _hkey
    rw [_hblanks] at hrest
    omega

def skipRest (containers : List Container) (text : Text) : Except Failure Text :=
  match containers with
  | [] => .ok text
  | container :: outer =>
    match _hblanks : skipBlanks text with
    | [] => .error .truncated
    | c :: rest =>
      if c = ',' then
        match _hkey : skipKey container rest with
        | .error failure => .error failure
        | .ok rest => skipValue (container :: outer) rest
      else if c = container.closer then
        skipRest outer rest
      else
        .error .illFormed
termination_by text.length
decreasing_by
  all_goals
    have htext := length_skipBlanks text
    simp only [_hblanks, List.length_cons] at htext
  · have hkey := length_skipKey _hkey
    omega
  · omega

end

mutual

theorem length_skipValue {containers : List Container} {text rest : Text}
    (h : skipValue containers text = .ok rest) : rest.length ≤ text.length := by
  have htext := length_skipBlanks text
  rw [skipValue] at h
  split at h
  · cases h
  · rename_i hstart
    have := length_skipStart hstart
    have := length_skipRest h
    omega
  · rename_i container inside hstart
    have := length_skipStart hstart
    have hinside := length_skipBlanks inside
    split at h
    · cases h
    · rename_i c after hblanks
      rw [hblanks] at hinside
      simp only [List.length_cons] at hinside
      have hafter : after.length < text.length := by omega
      split at h
      · have := length_skipRest h
        omega
      · split at h
        · cases h
        · rename_i next hkey
          have hlen := length_skipKey hkey
          simp only [List.length_cons] at hlen
          have hnext : next.length < text.length := by omega
          have := length_skipValue h
          omega
termination_by text.length

theorem length_skipRest {containers : List Container} {text rest : Text}
    (h : skipRest containers text = .ok rest) : rest.length ≤ text.length := by
  have htext := length_skipBlanks text
  rw [skipRest.eq_def] at h
  split at h
  · cases h
    exact Nat.le_refl _
  · split at h
    · cases h
    · rename_i c after hblanks
      simp only [hblanks, List.length_cons] at htext
      have hafter : after.length < text.length := by omega
      split at h
      · split at h
        · cases h
        · rename_i next hkey
          have hlen := length_skipKey hkey
          have hnext : next.length < text.length := by omega
          have := length_skipValue h
          omega
      · split at h
        · have := length_skipRest h
          omega
        · cases h
termination_by text.length

end

end Coinage.Json
