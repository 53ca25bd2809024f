import Coinage.Json.Quoted

-- Numbers. They are never wanted, so only their form and size matter.
namespace Coinage.Json

-- Appends digits to a significand as long as it stays below 2 ^ 64. The second
-- number counts the digits left over.
def gather (significand : Nat) : Text → Nat × Nat
  | [] => (significand, 0)
  | digit :: digits =>
    let next := 10 * significand + (digit.toNat - '0'.toNat)
    if next < 0x10000000000000000 then gather next digits else (significand, digits.length + 1)

-- Whether a number lies beyond the doubles. Its parts are the digits before the
-- point, those after it, the sign of the exponent and its digits.
def tooLarge (whole fraction : Text) (negative : Bool) (digits : Text) : Bool :=
  let (significand, dropped) := gather 0 whole
  let (significand, unread) := gather significand fraction
  let written := Text.digitsValue digits
  let shift : Int := (dropped + unread : Int) - fraction.length
  let exponent : Int := if negative then shift - written else shift + written
  if significand = 0 then
    false
  else if written < 0x80000000 then
    308 < exponent ||
      (0 ≤ exponent &&
        (significand.toUInt64.toFloat * Float.ofScientific 1 false exponent.toNat).isInf)
  else
    !negative

def spanDigits (text : Text) : Text × Text :=
  (text.takeWhile Char.isDigit, text.dropWhile Char.isDigit)

def spanSign : Text → Bool × Text
  | '-' :: rest => (true, rest)
  | '+' :: rest => (false, rest)
  | text => (false, text)

-- A number without its sign: the digits before the point, those after it, the
-- sign of the exponent and its digits.
structure Numeral where
  whole : Text
  fraction : Text
  negative : Bool
  exponent : Text

-- At least one digit. `ended` is the failure where the text ends.
def readDigits (ended : Failure) (text : Text) : Except Failure (Text × Text) :=
  match spanDigits text with
  | ([], []) => .error ended
  | ([], _) => .error .illFormed
  | digits => .ok digits

-- Digits without a leading zero, or a single zero.
def readWhole (ended : Failure) (text : Text) : Except Failure (Text × Text) := do
  let (digits, rest) ← readDigits ended text
  match digits with
  | '0' :: _ :: _ => .error .illFormed
  | _ => .ok (digits, rest)

def readFraction (ended : Failure) : Text → Except Failure (Text × Text)
  | '.' :: rest => readDigits ended rest
  | text => .ok ([], text)

def readExponent (ended : Failure) : Text → Except Failure (Bool × Text × Text)
  | c :: rest =>
    if c = 'e' ∨ c = 'E' then do
      let (digits, after) ← readDigits ended (spanSign rest).2
      .ok ((spanSign rest).1, digits, after)
    else
      .ok (false, [], c :: rest)
  | [] => .ok (false, [], [])

def readNumeral (ended : Failure) (text : Text) : Except Failure (Numeral × Text) := do
  let (whole, rest) ← readWhole ended text
  let (fraction, rest) ← readFraction ended rest
  let (negative, exponent, rest) ← readExponent ended rest
  .ok (⟨whole, fraction, negative, exponent⟩, rest)

-- The numeral after the minus sign, if there is one.
def dropMinus : Text → Text
  | '-' :: rest => rest
  | text => text

-- The failure of a number that stands where something else is wanted.
def numberFailure (text : Text) : Failure :=
  match readNumeral .truncated (dropMinus text) with
  | .error failure => failure
  | .ok (numeral, _) =>
    if tooLarge numeral.whole numeral.fraction numeral.negative numeral.exponent then
      .illFormed
    else
      .wrongShape

theorem length_dropMinus (text : Text) : (dropMinus text).length ≤ text.length := by
  unfold dropMinus
  split <;> simp

theorem length_dropWhile (keep : Char → Bool) (text : Text) :
    (text.dropWhile keep).length ≤ text.length :=
  (List.dropWhile_suffix keep).length_le

theorem length_readDigits {ended : Failure} {text digits rest : Text}
    (h : readDigits ended text = .ok (digits, rest)) : rest.length < text.length := by
  unfold readDigits at h
  split at h
  · cases h
  · cases h
  · rename_i hnone hsome
    have hspan : spanDigits text = (digits, rest) := Except.ok.inj h
    have hne : digits ≠ [] := by
      rintro rfl
      exact hsome rest hspan
    have htext : digits ++ rest = text := by
      simp only [spanDigits, Prod.mk.injEq] at hspan
      obtain ⟨rfl, rfl⟩ := hspan
      exact List.takeWhile_append_dropWhile
    have := List.length_pos_iff.mpr hne
    rw [← htext, List.length_append]
    omega

theorem length_readWhole {ended : Failure} {text digits rest : Text}
    (h : readWhole ended text = .ok (digits, rest)) : rest.length < text.length := by
  obtain ⟨⟨_, after⟩, hdigits, hafter⟩ := bind_eq_ok h
  have hlen := length_readDigits hdigits
  simp only at hafter
  split at hafter
  · cases hafter
  · obtain ⟨-, rfl⟩ := Prod.mk.inj (Except.ok.inj hafter)
    exact hlen

theorem length_readFraction {ended : Failure} {text digits rest : Text}
    (h : readFraction ended text = .ok (digits, rest)) : rest.length ≤ text.length := by
  unfold readFraction at h
  split at h
  · have := length_readDigits h
    simp only [List.length_cons]
    omega
  · obtain ⟨-, rfl⟩ := Prod.mk.inj (Except.ok.inj h)
    exact Nat.le_refl _

theorem length_spanSign (text : Text) : (spanSign text).2.length ≤ text.length := by
  unfold spanSign
  split <;> simp

theorem length_readExponent {ended : Failure} {text digits rest : Text} {negative : Bool}
    (h : readExponent ended text = .ok (negative, digits, rest)) :
    rest.length ≤ text.length := by
  unfold readExponent at h
  split at h
  · rename_i after
    split at h
    · obtain ⟨⟨_, _⟩, hdigits, hafter⟩ := bind_eq_ok h
      have hlen := length_readDigits hdigits
      have hsign := length_spanSign after
      simp only [Except.ok.injEq, Prod.mk.injEq] at hafter
      obtain ⟨-, -, rfl⟩ := hafter
      simp only [List.length_cons]
      omega
    · simp only [Except.ok.injEq, Prod.mk.injEq] at h
      obtain ⟨-, -, rfl⟩ := h
      exact Nat.le_refl _
  · simp only [Except.ok.injEq, Prod.mk.injEq] at h
    obtain ⟨-, -, rfl⟩ := h
    exact Nat.le_refl _

theorem length_readNumeral {ended : Failure} {text rest : Text} {numeral : Numeral}
    (h : readNumeral ended text = .ok (numeral, rest)) : rest.length < text.length := by
  obtain ⟨⟨whole, rest1⟩, hwhole, h⟩ := bind_eq_ok h
  obtain ⟨⟨fraction, rest2⟩, hfraction, h⟩ := bind_eq_ok h
  obtain ⟨⟨negative, exponent, rest3⟩, hexponent, h⟩ := bind_eq_ok h
  obtain ⟨-, rfl⟩ := Prod.mk.inj (Except.ok.inj h)
  have h1 := length_readWhole hwhole
  have h2 := length_readFraction hfraction
  have h3 := length_readExponent hexponent
  omega

end Coinage.Json
