import DurativePlanning.Random.Draw

/-!
# The ChaCha Stream

The words of the program come from the ChaCha stream cipher with eight rounds. The key is expanded
from a seed of sixty-four bits, the nonce is zero, and the words of each block are used in order.

* `ChaCha.keyOf`: the key of a seed.
* `ChaCha.block`: one block of sixteen words.
* `ChaCha.ofSeed`: the stream of a seed, as a `WordSource`.
-/

namespace DurativePlanning.ChaCha

/-- A word turned left by a number of bits between one and thirty-one. -/
def rotateLeft (w : UInt32) (bits : UInt32) : UInt32 := (w <<< bits) ||| (w >>> (32 - bits))

/-- A word turned right by a number of bits below thirty-two. -/
def rotateRight (w : UInt32) (bits : UInt32) : UInt32 :=
  if bits = 0 then w else rotateLeft w (32 - bits)

/-! ### The key -/

/-- One step of the congruential generator that expands a seed. -/
def nextSeed (s : UInt64) : UInt64 := s * 6364136223846793005 + 11634580027462260723

/-- The key word of one state of that generator: the state is folded, and turned by
`rotateRight`. -/
def keyWord (s : UInt64) : UInt32 :=
  rotateRight (((s >>> 18) ^^^ s) >>> 27).toUInt32 (s >>> 59).toUInt32

/-- The key words that follow a state, each after one `nextSeed`. -/
def keyFrom : (count : Nat) → UInt64 → List UInt32
  | 0, _ => []
  | count + 1, s => keyWord (nextSeed s) :: keyFrom count (nextSeed s)

/-- The key of a seed: the first eight words of `keyFrom`. -/
def keyOf (seed : UInt64) : List UInt32 := keyFrom 8 seed

/-! ### The block function -/

/-- The sixteen words that the rounds work on. -/
abbrev Words := Array UInt32

/-- The word at a place below sixteen. -/
def word (x : Words) (i : Nat) : UInt32 := x.getD i 0

/-- The four words at places `a`, `b`, `c`, `d` mixed with each other. -/
def quarterRound (x : Words) (a b c d : Nat) : Words :=
  let xa := word x a + word x b
  let xd := rotateLeft (word x d ^^^ xa) 16
  let xc := word x c + xd
  let xb := rotateLeft (word x b ^^^ xc) 12
  let xa := xa + xb
  let xd := rotateLeft (xd ^^^ xa) 8
  let xc := xc + xd
  let xb := rotateLeft (xb ^^^ xc) 7
  (((x.setIfInBounds a xa).setIfInBounds b xb).setIfInBounds c xc).setIfInBounds d xd

/-- One round down the columns and one along the diagonals, four times `quarterRound` each. -/
def doubleRound (x : Words) : Words :=
  let x := quarterRound x 0 4 8 12
  let x := quarterRound x 1 5 9 13
  let x := quarterRound x 2 6 10 14
  let x := quarterRound x 3 7 11 15
  let x := quarterRound x 0 5 10 15
  let x := quarterRound x 1 6 11 12
  let x := quarterRound x 2 7 8 13
  quarterRound x 3 4 9 14

/-- The words before the rounds: four constants, the key, a block counter with its low word first,
and a nonce of zero. -/
def initial (key : List UInt32) (counter : UInt64) : Words :=
  (#[0x61707865, 0x3320646e, 0x79622d32, 0x6b206574] ++ key.toArray).append
    #[counter.toUInt32, (counter >>> 32).toUInt32, 0, 0]

/-- One block of the stream: four times `doubleRound`, and the words before them added at the
end. -/
def block (key : List UInt32) (counter : UInt64) : Words :=
  let start := initial key counter
  let mixed := doubleRound (doubleRound (doubleRound (doubleRound start)))
  start.zipWith (· + ·) mixed

/-! ### The stream -/

/-- A place in the stream: the current block, and which of its eight pairs of words comes next. -/
structure Stream where
  key : List UInt32
  /-- The number of the block after the current one. -/
  counter : UInt64
  current : Words
  position : Nat

/-- The beginning of a seed's stream. -/
def ofSeed (seed : UInt64) : Stream :=
  let key := keyOf seed
  ⟨key, 1, block key 0, 0⟩

/-- The next pair of words, the low one first, as one word of sixty-four bits; after the eighth pair
of a `block` the next one begins. -/
def Stream.next (s : Stream) : UInt64 × Stream :=
  let s := if s.position < 8 then s else
    { s with counter := s.counter + 1, current := block s.key s.counter, position := 0 }
  let low := word s.current (2 * s.position)
  let high := word s.current (2 * s.position + 1)
  (low.toUInt64 ||| (high.toUInt64 <<< 32), { s with position := s.position + 1 })

instance : WordSource Stream := ⟨Stream.next⟩

instance : SeededSource Stream := ⟨ofSeed⟩

end DurativePlanning.ChaCha
