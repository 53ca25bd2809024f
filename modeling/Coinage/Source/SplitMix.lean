import Coinage.Source

namespace Coinage

-- The SplitMix64 generator. Its state is a counter with a fixed odd step.
structure SplitMix where
  state : UInt64

namespace SplitMix

def mix (z : UInt64) : UInt64 :=
  let z := (z ^^^ (z >>> 30)) * 0xBF58476D1CE4E5B9
  let z := (z ^^^ (z >>> 27)) * 0x94D049BB133111EB
  z ^^^ (z >>> 31)

def next (generator : SplitMix) : UInt64 × SplitMix :=
  let state := generator.state + 0x9E3779B97F4A7C15
  (mix state, ⟨state⟩)

end SplitMix

-- Given words first, and SplitMix64 when they are used up. Every call takes
-- one 64-bit word, of which a 32-bit call gives the high half.
structure Scripted where
  words : List UInt64
  fallback : SplitMix

namespace Scripted

def next (source : Scripted) : UInt64 × Scripted :=
  match source.words with
  | word :: words => (word, { source with words := words })
  | [] =>
    let (word, fallback) := source.fallback.next
    (word, { source with fallback := fallback })

instance : Source Scripted where
  next32 source :=
    let (word, source) := source.next
    ((word >>> 32).toUInt32, source)
  next64 := next

end Scripted

end Coinage
