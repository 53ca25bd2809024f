import Coinage.Source

namespace Coinage

-- The ChaCha stream with 8 rounds, as a sequence of 32-bit words. The words of
-- the current block that are not used yet are at hand.
structure ChaCha where
  key : List UInt32
  counter : UInt64
  ready : List UInt32

namespace ChaCha

abbrev Block := Vector UInt32 16

def rotateLeft (word : UInt32) (count : UInt32) : UInt32 :=
  (word <<< count) ||| (word >>> (32 - count))

def rotateRight (word : UInt32) (count : UInt32) : UInt32 :=
  (word >>> (count % 32)) ||| (word <<< ((32 - count) % 32))

def quarterRound (s : Block) (a b c d : Fin 16) : Block :=
  let s := s.set a (s[a] + s[b])
  let s := s.set d (rotateLeft (s[d] ^^^ s[a]) 16)
  let s := s.set c (s[c] + s[d])
  let s := s.set b (rotateLeft (s[b] ^^^ s[c]) 12)
  let s := s.set a (s[a] + s[b])
  let s := s.set d (rotateLeft (s[d] ^^^ s[a]) 8)
  let s := s.set c (s[c] + s[d])
  s.set b (rotateLeft (s[b] ^^^ s[c]) 7)

-- Four columns, then four diagonals.
def doubleRound (s : Block) : Block :=
  let s := quarterRound s 0 4 8 12
  let s := quarterRound s 1 5 9 13
  let s := quarterRound s 2 6 10 14
  let s := quarterRound s 3 7 11 15
  let s := quarterRound s 0 5 10 15
  let s := quarterRound s 1 6 11 12
  let s := quarterRound s 2 7 8 13
  quarterRound s 3 4 9 14

-- The words of "expand 32-byte k", which open every block.
def constants : List UInt32 :=
  [0x61707865, 0x3320646e, 0x79622d32, 0x6b206574]

-- The constants, the key, the block counter with its low word first, and a
-- stream number of zero.
def input (key : List UInt32) (counter : UInt64) : Block :=
  let words := constants ++ key ++ [counter.toUInt32, (counter >>> 32).toUInt32, 0, 0]
  Vector.ofFn fun i => words.getD i 0

def block (key : List UInt32) (counter : UInt64) : Block :=
  let start := input key counter
  Vector.zipWith (· + ·) (doubleRound (doubleRound (doubleRound (doubleRound start)))) start

-- One step of the congruential generator that spreads a seed over a key, and
-- the key word it yields.
def spread (state : UInt64) : UInt32 × UInt64 :=
  let state := state * 6364136223846793005 + 11634580027462260723
  let word := (((state >>> 18) ^^^ state) >>> 27).toUInt32
  (rotateRight word (state >>> 59).toUInt32, state)

def keyWords : Nat → UInt64 → List UInt32
  | 0, _ => []
  | count + 1, state =>
    let (word, state) := spread state
    word :: keyWords count state

def ofSeed (seed : UInt64) : ChaCha :=
  ⟨keyWords 8 seed, 0, []⟩

def next (generator : ChaCha) : UInt32 × ChaCha :=
  match generator.ready with
  | word :: ready => (word, { generator with ready := ready })
  | [] =>
    let words := block generator.key generator.counter
    (words[0], ⟨generator.key, generator.counter + 1, words.toList.tail⟩)

-- A 64-bit word is two words of the stream, the low half first.
instance : Source ChaCha where
  next32 := next
  next64 generator :=
    let (low, generator) := generator.next
    let (high, generator) := generator.next
    ((high.toUInt64 <<< 32) ||| low.toUInt64, generator)

end ChaCha

end Coinage
