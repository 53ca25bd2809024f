namespace Coinage

-- A source of random words. A call gives a word and the source after it.
class Source (σ : Type) where
  next32 : σ → UInt32 × σ
  next64 : σ → UInt64 × σ

namespace Source

variable {σ τ : Type}

-- The words that indices are drawn with.
inductive Width
  | word32
  | word64

-- How many words there are.
def Width.size : Width → Nat
  | word32 => 0x100000000
  | word64 => 0x10000000000000000

-- Counts that do not fit 32 bits take wide words.
def Width.ofCount (count : Nat) : Width :=
  if count < 0x100000000 then word32 else word64

def next [Source σ] (source : σ) : Width → Nat × σ
  | .word32 => (next32 source).map UInt32.toNat id
  | .word64 => (next64 source).map UInt64.toNat id

-- A uniform index below `count`, from the widened product of a word and `count`.
-- The high half is the index. A low half so large that the words further down
-- could carry into the index is corrected by one more word.
def index [Source σ] (count : Nat) (source : σ) : Nat × σ :=
  let width := Width.ofCount count
  let (word, source) := next source width
  let product := word * count
  let high := product / width.size
  let low := product % width.size
  if width.size - count < low then
    let (word, source) := next source width
    let carried := width.size ≤ low + word * count / width.size
    (if carried then high + 1 else high, source)
  else
    (high, source)

-- The double 2 ^ -52.
def unit : Float :=
  Float.ofBits 0x3CB0000000000000

-- The double that a word picks from 0 up to `total`: one of 2 ^ 52 equidistant
-- fractions of it, rounded.
def portion (word : UInt64) (total : Float) : Float :=
  (word >>> 12).toFloat * unit * total

instance [Source σ] [Source τ] : Source (σ ⊕ τ) where
  next32
    | .inl source => (next32 source).map id .inl
    | .inr source => (next32 source).map id .inr
  next64
    | .inl source => (next64 source).map id .inl
    | .inr source => (next64 source).map id .inr

end Source

-- A source together with the number of calls of each width made on it.
structure Counted (σ : Type) where
  source : σ
  calls32 : Nat
  calls64 : Nat

namespace Counted

variable {σ : Type}

def start (source : σ) : Counted σ :=
  ⟨source, 0, 0⟩

instance [Source σ] : Source (Counted σ) where
  next32 counted :=
    let (word, source) := Source.next32 counted.source
    (word, { counted with source := source, calls32 := counted.calls32 + 1 })
  next64 counted :=
    let (word, source) := Source.next64 counted.source
    (word, { counted with source := source, calls64 := counted.calls64 + 1 })

end Counted

end Coinage
