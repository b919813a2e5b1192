/-!
# Random bytes

A reproducible stream of bytes for each key of eight words. The key drives the ChaCha block
function with twelve rounds and a block counter, and each word of the key stream gives one byte,
its lowest. Any words make up a key, and a 64-bit seed is stretched to one by a permuted
congruential generator.

The byte at a place depends on the key and the place alone (`byteAt`), so a stream is a key
together with the number of bytes drawn so far.
-/

namespace Chip8.Random

/-! ## Keys -/

abbrev Key := Vector UInt32 8

/-- The next state of the congruential generator. -/
def nextState (s : UInt64) : UInt64 := s * 6364136223846793005 + 11634580027462260723

/-- Rotation to the right; a rotation by 0 changes nothing. -/
def rotateRight (x n : UInt32) : UInt32 := (x >>> n) ||| (x <<< (32 - n))

/-- The output word of a state: its high bits are folded and rotated by the highest five. -/
def permute (s : UInt64) : UInt32 :=
  rotateRight (((s >>> 18) ^^^ s) >>> 27).toUInt32 (s >>> 59).toUInt32

/-- The key of a seed: the outputs of the eight states after it. -/
def Key.ofSeed (seed : UInt64) : Key :=
  Vector.ofFn fun i => permute (Nat.repeat nextState (i + 1) seed)

/-! ## Blocks of key stream -/

/-- The sixteen words that the block function works on. -/
abbrev Block := Vector UInt32 16

def rotateLeft (x n : UInt32) : UInt32 := (x <<< n) ||| (x >>> (32 - n))

/-- Adds word `b` to word `a`, and the sum to word `d`, which is then rotated. -/
def mix (a b d : Fin 16) (n : UInt32) (s : Block) : Block :=
  let sum := s[a] + s[b]
  (s.set a sum).set d (rotateLeft (s[d] ^^^ sum) n)

def quarterRound (s : Block) : Fin 16 × Fin 16 × Fin 16 × Fin 16 → Block
  | (a, b, c, d) => mix c d b 7 (mix a b d 8 (mix c d b 12 (mix a b d 16 s)))

/-- The columns of the words as a square, and then its diagonals. -/
def lanes : List (Fin 16 × Fin 16 × Fin 16 × Fin 16) :=
  [(0, 4, 8, 12), (1, 5, 9, 13), (2, 6, 10, 14), (3, 7, 11, 15),
   (0, 5, 10, 15), (1, 6, 11, 12), (2, 7, 8, 13), (3, 4, 9, 14)]

/-- Two rounds: one over the columns and one over the diagonals. -/
def doubleRound (s : Block) : Block := lanes.foldl quarterRound s

/-- The four words that begin each block. -/
def constants : Vector UInt32 4 := #v[0x61707865, 0x3320646e, 0x79622d32, 0x6b206574]

/-- The counter of a block in two words, low word first, and two zeros. -/
def position (counter : Nat) : Vector UInt32 4 :=
  #v[counter.toUInt32, (counter >>> 32).toUInt32, 0, 0]

/-- The words of a block before the rounds. -/
def startBlock (key : Key) (counter : Nat) : Block :=
  constants ++ key ++ position counter

/-- A block of the key stream: the words after twelve rounds added to those before. -/
def block (key : Key) (counter : Nat) : Block :=
  let start := startBlock key counter
  Vector.zipWith (· + ·) (Nat.repeat doubleRound 6 start) start

/-! ## The stream -/

/-- The byte at place `k` of the stream of a key. -/
def byteAt (key : Key) (k : Nat) : UInt8 :=
  (block key (k / 16))[k % 16].toUInt8

/-- A stream of bytes, of which some have been drawn. -/
structure Stream where
  key : Key
  drawn : Nat := 0
deriving DecidableEq, Repr

def Stream.peek (s : Stream) : UInt8 := byteAt s.key s.drawn

def Stream.advance (s : Stream) : Stream := { s with drawn := s.drawn + 1 }

end Chip8.Random
