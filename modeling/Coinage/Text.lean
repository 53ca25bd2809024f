namespace Coinage

-- A text is a list of Unicode scalar values.
abbrev Text := List Char

-- The number of bytes that the text takes in UTF-8.
def Text.utf8Length (text : Text) : Nat :=
  text.foldr (fun c length => c.utf8Size + length) 0

-- The decimal digits of a number, most significant first and without leading zeros.
def Text.ofNat (n : Nat) : Text :=
  Nat.toDigits 10 n

-- The number that a run of ASCII digits writes. The empty run writes zero.
def Text.digitsValue (digits : Text) : Nat :=
  digits.foldl (fun value c => 10 * value + (c.toNat - '0'.toNat)) 0

end Coinage
