import Coinage.Text

-- Doubles written in decimal with the fewest digits that read back.
namespace Coinage.Decimal

-- A positive number `significand * 2 ^ exponent` among the doubles. The gap
-- to the next smaller double is half the gap to the next larger one exactly
-- if `narrow` holds.
structure Positive where
  significand : Nat
  exponent : Int
  narrow : Bool

inductive Parts
  | notANumber
  | infinite (negative : Bool)
  | zero (negative : Bool)
  | finite (negative : Bool) (value : Positive)

def Parts.ofBits (bits : Nat) : Parts :=
  let negative : Bool := bits / 0x8000000000000000 % 2 = 1
  let exponent : Nat := bits / 0x10000000000000 % 0x800
  let fraction : Nat := bits % 0x10000000000000
  if exponent = 0x7FF then
    if fraction = 0 then .infinite negative else .notANumber
  else if exponent = 0 then
    if fraction = 0 then .zero negative else .finite negative ⟨fraction, -1074, false⟩
  else
    .finite negative
      ⟨0x10000000000000 + fraction, (exponent : Int) - 1075, fraction = 0 && exponent != 1⟩

-- The value, and the ends of the interval of reals that round to it, over a
-- common denominator. The ends belong to the interval if `closed` holds.
structure Interval where
  low : Nat
  value : Nat
  high : Nat
  denominator : Nat
  closed : Bool

-- The ends lie halfway to the neighbouring doubles. A tie goes to the even
-- significand, so the ends belong to an even one.
def Positive.interval (x : Positive) : Interval :=
  let unit := Nat.pow 2 (x.exponent - 2).toNat
  { low := (4 * x.significand - (if x.narrow then 1 else 2)) * unit
    value := 4 * x.significand * unit
    high := (4 * x.significand + 2) * unit
    denominator := Nat.pow 2 (2 - x.exponent).toNat
    closed := x.significand % 2 = 0 }

-- The numerator and the denominator are multiplied so that the grid of
-- multiples of `10 ^ exponent` becomes the grid of multiples of the
-- denominator.
def Interval.scale (i : Interval) (exponent : Int) : Interval :=
  let up := Nat.pow 10 (-exponent).toNat
  { low := i.low * up
    value := i.value * up
    high := i.high * up
    denominator := i.denominator * Nat.pow 10 exponent.toNat
    closed := i.closed }

-- Whether `count` denominators lie in the interval.
def Interval.holds (i : Interval) (count : Nat) : Bool :=
  let point := count * i.denominator
  if i.closed then i.low ≤ point && point ≤ i.high else i.low < point && point < i.high

-- The multiple of the denominator nearest to the value among its two
-- neighbours that lie in the interval. A tie goes to the upper one.
def Interval.nearest? (i : Interval) : Option Nat :=
  let below := i.value / i.denominator
  match i.holds below, i.holds (below + 1) with
  | true, true => if 2 * (i.value % i.denominator) < i.denominator then below else some (below + 1)
  | true, false => some below
  | false, true => some (below + 1)
  | false, false => none

-- A decimal `digits * 10 ^ exponent`.
structure Digits where
  digits : Nat
  exponent : Int

-- Tries the grids of multiples of `10 ^ exponent` from a coarse one to finer
-- ones. If none of them has a point in the interval, the value itself is
-- written out.
def Positive.search (x : Positive) : Nat → Int → Digits
  | 0, _ =>
    let whole := x.significand * Nat.pow 2 x.exponent.toNat
    ⟨whole * Nat.pow 5 (-x.exponent).toNat, -(-x.exponent).toNat⟩
  | steps + 1, exponent =>
    match (x.interval.scale exponent).nearest? with
    | some digits => ⟨digits, exponent⟩
    | none => x.search steps (exponent - 1)

-- No multiple of a coarser power of ten than the first one is in the interval
-- of the value, and the value is a multiple of the last one.
def Positive.shortest (x : Positive) : Digits :=
  let whole := x.significand * Nat.pow 2 x.exponent.toNat / Nat.pow 2 (-x.exponent).toNat
  let coarsest := whole.log2 / 3 + 1
  x.search (coarsest + (-x.exponent).toNat + 1) coarsest

-- Positional notation, without an exponent however large or small the value.
def Digits.positional (d : Digits) : Text :=
  let digits := Text.ofNat d.digits
  let places := (-d.exponent).toNat
  if places = 0 then
    digits ++ List.replicate d.exponent.toNat '0'
  else if places < digits.length then
    digits.take (digits.length - places) ++ '.' :: digits.drop (digits.length - places)
  else
    '0' :: '.' :: List.replicate (places - digits.length) '0' ++ digits

def signed (negative : Bool) (text : Text) : Text :=
  if negative then '-' :: text else text

def Parts.text : Parts → Text
  | notANumber => ['N', 'a', 'N']
  | infinite negative => signed negative ['i', 'n', 'f']
  | zero negative => signed negative ['0']
  | finite negative value => signed negative value.shortest.positional

def text (x : Float) : Text :=
  (Parts.ofBits x.toBits.toNat).text

end Coinage.Decimal
