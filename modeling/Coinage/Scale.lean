import Coinage.Fault
import Coinage.Source

namespace Coinage

-- Weights laid end to end from zero. Each is kept as the place where it ends,
-- so a number from zero up to the total picks out one of them.
structure Scale where
  marks : Array Float
  total : Float

namespace Scale

def empty : Scale :=
  ⟨#[], 0⟩

def size (scale : Scale) : Nat :=
  scale.marks.size

-- A weight can follow `total` if it is positive and the new total is finite and
-- differs from the old one, so that the marks keep increasing.
def fits (total weight : Float) : Bool :=
  0 < weight && (total + weight).isFinite && total < total + weight

-- The total grows first. The new mark is where it has got to.
def push (scale : Scale) (weight : Float) : Scale :=
  let total := scale.total + weight
  ⟨scale.marks.push total, total⟩

def add (scale : Scale) (weight : Float) : Except Fault Scale :=
  if fits scale.total weight then .ok (scale.push weight) else .error (.invalidWeight weight)

-- Whether the same weight can follow a running total `count` times.
def fitsTimes (weight : Float) : Nat → Float → Bool
  | 0, _ => true
  | count + 1, total => fits total weight && fitsTimes weight count (total + weight)

theorem size_push (scale : Scale) (weight : Float) :
    (scale.push weight).size = scale.size + 1 := by
  simp [push, size]

theorem total_push (scale : Scale) (weight : Float) :
    (scale.push weight).total = scale.total + weight := rfl

theorem size_add {scale next : Scale} {weight : Float} (h : scale.add weight = .ok next) :
    next.size = scale.size + 1 := by
  simp only [add] at h
  split at h
  · cases h
    exact size_push scale weight
  · cases h

-- The differences of successive numbers, the first one to `start`.
def differences (start : Float) : List Float → List Float
  | [] => []
  | mark :: marks => (mark - start) :: differences mark marks

def weights (scale : Scale) : List Float :=
  differences 0 scale.marks.toList

-- Binary search between two positions for the first mark above `value`.
def search (marks : Array Float) (value : Float) (low high : Nat) (hhigh : high ≤ marks.size) :
    Nat :=
  if hlow : low < high then
    let middle := low + (high - low) / 2
    have hmiddle : middle < high := by omega
    have hsize : middle < marks.size := by omega
    if marks[middle] ≤ value then
      search marks value (middle + 1) high hhigh
    else
      search marks value low middle (by omega)
  else
    low
termination_by high - low

-- Which weight a number falls into: the first one that ends above it.
def locate (scale : Scale) (value : Float) : Option Nat :=
  let position := search scale.marks value 0 scale.size (Nat.le_refl _)
  if position < scale.size then some position else none

def pick (scale : Scale) (word : UInt64) : Option Nat :=
  scale.locate (Source.portion word scale.total)

-- A random position, each as likely as its weight says. An empty scale makes no
-- call on the source.
def draw {σ : Type} [Source σ] (scale : Scale) (source : σ) : Option Nat × σ :=
  if scale.size = 0 then
    (none, source)
  else
    let (word, source) := Source.next64 source
    (scale.pick word, source)

def display (scale : Scale) (texts : List Text) : Text :=
  let items := List.zipWith (fun text weight => text ++ '*' :: Decimal.text weight) texts
    scale.weights
  '[' :: ['/'].intercalate items ++ [']']

end Scale

end Coinage
