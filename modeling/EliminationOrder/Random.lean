/-
A reproducible stream of random words.

The stream is the ChaCha cipher with twelve rounds, run on an all-zero message: a block
function turns a key of eight words and a block number into sixteen words, and the
blocks follow one another. The key is spread from a seed of 64 bits by a small
generator, so one seed always gives one stream.
-/

namespace EliminationOrder.Random

/-! ### Spreading a seed -/

/-- The next state of the generator that spreads a seed. -/
def spreadStep (state : UInt64) : UInt64 :=
  state * 6364136223846793005 + 11634580027462260723

/-- Turns a word to the right by `k` places. -/
def rotateRight (x : UInt32) (k : UInt32) : UInt32 :=
  (x >>> k) ||| (x <<< ((32 - k) % 32))

/-- The word that a state of the spreading generator shows. -/
def spreadWord (state : UInt64) : UInt32 :=
  rotateRight (((state >>> 18) ^^^ state) >>> 27).toUInt32 (state >>> 59).toUInt32

/-- The first words that the spreading generator shows after `state`. -/
def spread (state : UInt64) : Nat → List UInt32
  | 0 => []
  | count + 1 =>
    let state := spreadStep state
    spreadWord state :: spread state count

/-! ### The block function -/

/-- Turns a word to the left by `k` places. -/
def rotateLeft (x : UInt32) (k : UInt32) : UInt32 :=
  (x <<< k) ||| (x >>> (32 - k))

/-- The sixteen words that a block is computed on. -/
abbrev Block : Type :=
  Vector UInt32 16

/-- Mixes the words at four positions of a block. -/
def quarterRound (s : Block) (a b c d : Fin 16) : Block :=
  let s := s.set a (s[a] + s[b])
  let s := s.set d (rotateLeft (s[d] ^^^ s[a]) 16)
  let s := s.set c (s[c] + s[d])
  let s := s.set b (rotateLeft (s[b] ^^^ s[c]) 12)
  let s := s.set a (s[a] + s[b])
  let s := s.set d (rotateLeft (s[d] ^^^ s[a]) 8)
  let s := s.set c (s[c] + s[d])
  s.set b (rotateLeft (s[b] ^^^ s[c]) 7)

/-- One round over the columns of a block and one over its diagonals. -/
def doubleRound (s : Block) : Block :=
  let s := quarterRound s 0 4 8 12
  let s := quarterRound s 1 5 9 13
  let s := quarterRound s 2 6 10 14
  let s := quarterRound s 3 7 11 15
  let s := quarterRound s 0 5 10 15
  let s := quarterRound s 1 6 11 12
  let s := quarterRound s 2 7 8 13
  quarterRound s 3 4 9 14

/-- The words with which a block starts: constants, the key, the block's number and zeros. -/
def startBlock (key : Vector UInt32 8) (number : UInt64) : Block :=
  #v[0x61707865, 0x3320646e, 0x79622d32, 0x6b206574,
    key[0], key[1], key[2], key[3], key[4], key[5], key[6], key[7],
    number.toUInt32, (number >>> 32).toUInt32, 0, 0]

/-- The sixteen words of block `number`: six double rounds, added to the start. -/
def block (key : Vector UInt32 8) (number : UInt64) : Block :=
  let start := startBlock key number
  let mixed := Nat.repeat doubleRound 6 start
  Vector.zipWith (· + ·) start mixed

/-! ### The stream -/

/-- A place in the stream: the words of the current block that are left, and the next block's number. -/
structure Stream where
  key : Vector UInt32 8
  next : UInt64
  left : List UInt32

namespace Stream

/-- The start of the stream of a seed. -/
def ofSeed (seed : UInt64) : Stream :=
  let words := spread seed 8
  ⟨Vector.ofFn fun i => words[i]?.getD 0, 0, []⟩

/-- The next 64 bits, from two words with the low one first. -/
def word (s : Stream) : UInt64 × Stream :=
  match s.left with
  | low :: high :: left => (low.toUInt64 ||| (high.toUInt64 <<< 32), { s with left })
  | _ =>
    let b := block s.key s.next
    (b[0].toUInt64 ||| (b[1].toUInt64 <<< 32), { s with next := s.next + 1, left := b.toList.drop 2 })

/--
An event of probability `p`, decided by comparing the next word with `p` of the whole
range. A sure event draws nothing.
-/
def event (p : Float) (s : Stream) : Bool × Stream :=
  if p == 1.0 then (true, s)
  else
    let (w, s) := s.word
    (w < (p * 18446744073709551616.0).toUInt64, s)

end Stream

end EliminationOrder.Random
