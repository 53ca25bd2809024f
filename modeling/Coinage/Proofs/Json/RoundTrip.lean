import Coinage.Json.Object
import Coinage.Proofs.Text.Row
import Mathlib.Tactic.SplitIfs

namespace Coinage.Json

theorem hexValue?_hexDigit {n : Nat} (h : n < 16) : hexValue? (hexDigit n) = some n := by
  have hdigits : ∀ digit < 16, hexValue? (hexDigit digit) = some digit := by decide
  exact hdigits n h

theorem readHex_hexDigit {n : Nat} (h : n < 0x20) (rest : Text) :
    readHex ('0' :: '0' :: hexDigit (n / 16) :: hexDigit (n % 16) :: rest) = .ok (n, rest) := by
  have hhigh := hexValue?_hexDigit (n := n / 16) (by omega)
  have hlow := hexValue?_hexDigit (n := n % 16) (by omega)
  have hzero : hexValue? '0' = some 0 := by decide
  have hvalue : ((0 * 16 + 0) * 16 + n / 16) * 16 + n % 16 = n := by omega
  simp only [readHex, hzero, hhigh, hlow, hvalue]

theorem readEscape_control {c : Char} (h : c.toNat < 0x20) (rest : Text) :
    readEscape ('u' :: '0' :: '0' :: hexDigit (c.toNat / 16) :: hexDigit (c.toNat % 16) :: rest) =
      .ok (c, rest) := by
  have hhigh : ¬(0xD800 ≤ c.toNat ∧ c.toNat ≤ 0xDBFF) := by omega
  have hlow : ¬(0xDC00 ≤ c.toNat ∧ c.toNat ≤ 0xDFFF) := by omega
  rw [readEscape, readHex_hexDigit h]
  change (if 0xD800 ≤ c.toNat ∧ c.toNat ≤ 0xDBFF then readLowSurrogate c.toNat rest
    else if 0xDC00 ≤ c.toNat ∧ c.toNat ≤ 0xDFFF then .error .illFormed
    else .ok (Char.ofNat c.toNat, rest)) = _
  rw [if_neg hhigh, if_neg hlow, Char.ofNat_toNat]

-- A character in front of what an unquoted text yields.
def consRead (c : Char) (result : Except Failure (Text × Text)) : Except Failure (Text × Text) :=
  result.map fun (text, rest) => (c :: text, rest)

theorem unquote_escaped {c : Char} {text rest : Text} (h : readEscape text = .ok (c, rest)) :
    unquote ('\\' :: text) = consRead c (unquote rest) := by
  rw [unquote, if_neg (by decide), if_pos rfl]
  split
  · rename_i hread
    rw [h] at hread
    cases hread
  · rename_i hread
    rw [h] at hread
    cases hread
    rfl

theorem unquote_verbatim {c : Char} (hquote : c ≠ '"') (hslash : c ≠ '\\') (h : ¬c.toNat < 0x20)
    (rest : Text) : unquote (c :: rest) = consRead c (unquote rest) := by
  rw [unquote, if_neg hquote, if_neg hslash, if_neg h]
  rfl

theorem unquote_escape (c : Char) (rest : Text) :
    unquote (escape c ++ rest) = consRead c (unquote rest) := by
  unfold escape
  split_ifs with hquote hslash hback htab hline hfeed hreturn hcontrol
  · subst hquote
    exact unquote_escaped rfl
  · subst hslash
    exact unquote_escaped rfl
  · subst hback
    exact unquote_escaped rfl
  · subst htab
    exact unquote_escaped rfl
  · subst hline
    exact unquote_escaped rfl
  · subst hfeed
    exact unquote_escaped rfl
  · subst hreturn
    exact unquote_escaped rfl
  · exact unquote_escaped (readEscape_control hcontrol rest)
  · exact unquote_verbatim hquote hslash hcontrol rest

-- The closing quote is found whatever the text holds.
theorem unquote_flatMap_escape (text rest : Text) :
    unquote (text.flatMap escape ++ '"' :: rest) = .ok (text, rest) := by
  induction text with
  | nil => rw [List.flatMap_nil, List.nil_append, unquote, if_pos rfl]
  | cons c text ih =>
    rw [List.flatMap_cons, List.append_assoc, unquote_escape, ih]
    rfl

theorem quote_append (text rest : Text) :
    quote text ++ rest = '"' :: (text.flatMap escape ++ '"' :: rest) := by
  simp [quote]

theorem skipBlanks_cons {c : Char} (h : isBlank c = false) (rest : Text) :
    skipBlanks (c :: rest) = c :: rest :=
  List.dropWhile_cons_of_neg (by simp [h])

theorem readString_quote (text rest : Text) :
    readString (quote text ++ rest) = .ok (text, rest) := by
  rw [quote_append, readString, skipBlanks_cons (by decide)]
  exact unquote_flatMap_escape text rest

theorem readColon_cons (rest : Text) : readColon (':' :: rest) = .ok rest := by
  rw [readColon, skipBlanks_cons (by decide)]
  rfl

theorem readKey_quote (key rest : Text) : readKey (quote key ++ rest) = .ok (some key, rest) := by
  rw [quote_append, readKey, unquote_flatMap_escape]
  rfl

theorem nextKey_quote (key rest : Text) :
    nextKey true (quote key ++ rest) = .ok (some key, rest) := by
  rw [quote_append, nextKey, skipBlanks_cons (by decide)]
  exact (quote_append key rest) ▸ readKey_quote key rest

theorem nextKey_comma (key rest : Text) :
    nextKey false (',' :: (quote key ++ rest)) = .ok (some key, rest) := by
  have hblanks : skipBlanks (quote key ++ rest) = quote key ++ rest := by
    rw [quote_append, skipBlanks_cons (by decide)]
  rw [nextKey, skipBlanks_cons (by decide)]
  exact hblanks.symm ▸ readKey_quote key rest

theorem nextKey_end (first : Bool) (rest : Text) :
    nextKey first ('\x7d' :: rest) = .ok (none, rest) := by
  rw [nextKey, skipBlanks_cons (by decide)]
  rfl

namespace Member

variable {α ι : Type} {member : Member α}

theorem readAll_end (member : Member α) (first : Bool) (value : α) (rest : Text) :
    member.readAll first value ('\x7d' :: rest) = .ok (value, rest) := by
  rw [readAll]
  split
  · rename_i hkey
    rw [nextKey_end] at hkey
    cases hkey
  · rename_i hkey
    rw [nextKey_end] at hkey
    cases hkey
    rfl
  · rename_i hkey
    rw [nextKey_end] at hkey
    cases hkey

theorem readAll_of_read {first : Bool} {value next : α} {text key after rest : Text}
    (hkey : nextKey first text = .ok (some key, after))
    (hread : member.read value key after = .ok (next, rest)) :
    member.readAll first value text = member.readAll false next rest := by
  rw [readAll]
  split
  · rename_i hother
    rw [hkey] at hother
    cases hother
  · rename_i hother
    rw [hkey] at hother
    cases hother
  · rename_i hother
    rw [hkey] at hother
    cases hother
    split
    · rename_i hfailure
      rw [hread] at hfailure
      cases hfailure
    · rename_i hnext
      rw [hread] at hnext
      cases hnext
      rfl

section Items

variable {step : α → ι → α} {key body : ι → Text}
  (h : ∀ value item rest, member.read value (key item) (body item ++ rest) =
    .ok (step value item, rest))

include h

theorem readAll_row (items : List ι) (value : α) (rest : Text) :
    member.readAll false value
        (Text.row [','] ('\x7d' :: rest) (items.map fun item => quote (key item) ++ body item)) =
      .ok (items.foldl step value, rest) := by
  induction items generalizing value with
  | nil => exact readAll_end member false value rest
  | cons item items ih =>
    rw [List.map_cons, Text.row, List.append_assoc, List.append_assoc]
    rw [List.singleton_append, readAll_of_read (nextKey_comma _ _) (h value item _), ih]
    rfl

-- Members with commas between them are read one after the other.
theorem readAll_intercalate (items : List ι) (value : α) (rest : Text) :
    member.readAll true value
        ([','].intercalate (items.map fun item => quote (key item) ++ body item) ++
          '\x7d' :: rest) =
      .ok (items.foldl step value, rest) := by
  cases items with
  | nil => exact readAll_end member true value rest
  | cons item items =>
    rw [List.map_cons, Text.intercalate_cons_append, List.append_assoc,
      readAll_of_read (nextKey_quote _ _) (h value item _), readAll_row h]
    rfl

end Items

end Member

end Coinage.Json
