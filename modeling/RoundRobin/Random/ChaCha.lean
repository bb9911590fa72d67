/-!
# The ChaCha stream

A stream of pseudo-random 64-bit words. A seed is stretched to a key of eight 32-bit words; the
ChaCha block function with twelve rounds turns the key and a block number into sixteen words of 32
bits, and each two of them in a row make one word of the stream, the first being its low half.
-/

namespace RoundRobin.Random

/-- The state of the ChaCha block function. -/
abbrev Block := Vector UInt32 16

namespace Block

/-- The words turned to the left by a number of bits below 32. -/
def rotateLeft (x n : UInt32) : UInt32 :=
  (x <<< n) ||| (x >>> (32 - n))

/-- The quarter round on four words of the state. -/
def quarterRound (s : Block) (i j k l : Fin 16) : Block :=
  let a := s[i] + s[j]
  let d := rotateLeft (s[l] ^^^ a) 16
  let c := s[k] + d
  let b := rotateLeft (s[j] ^^^ c) 12
  let a := a + b
  let d := rotateLeft (d ^^^ a) 8
  let c := c + d
  let b := rotateLeft (b ^^^ c) 7
  (((s.set i a).set j b).set k c).set l d

/-- A column round and a diagonal round. -/
def doubleRound (s : Block) : Block :=
  let s := s.quarterRound 0 4 8 12
  let s := s.quarterRound 1 5 9 13
  let s := s.quarterRound 2 6 10 14
  let s := s.quarterRound 3 7 11 15
  let s := s.quarterRound 0 5 10 15
  let s := s.quarterRound 1 6 11 12
  let s := s.quarterRound 2 7 8 13
  s.quarterRound 3 4 9 14

/-- Twelve rounds, and then the words added to those of the start. -/
def scramble (s : Block) : Block :=
  s.zipWith (· + ·) (Nat.repeat doubleRound 6 s)

end Block

/-- A key of eight words. -/
abbrev Key := Vector UInt32 8

namespace Key

/-- The seed after one step of the generator that stretches it. -/
def nextSeed (seed : UInt64) : UInt64 :=
  seed * 6364136223846793005 + 11634580027462260723

/-- The word that a stretched seed gives: its high bits folded, and turned by its highest five. -/
def seedWord (seed : UInt64) : UInt32 :=
  let x := (((seed >>> 18) ^^^ seed) >>> 27).toUInt32
  let turn := (seed >>> 59).toUInt32
  (x >>> turn) ||| (x <<< ((32 - turn) % 32))

/-- The key of a seed. -/
def ofSeed (seed : UInt64) : Key :=
  Vector.ofFn fun i => seedWord (Nat.repeat nextSeed (i.val + 1) seed)

/-- The start of a block: four constants, the key, and the number of the block. -/
def start (key : Key) (number : UInt64) : Block :=
  #v[0x61707865, 0x3320646e, 0x79622d32, 0x6b206574,
    key[0], key[1], key[2], key[3], key[4], key[5], key[6], key[7],
    number.toUInt32, (number >>> 32).toUInt32, 0, 0]

/-- A block of the stream. -/
def block (key : Key) (number : UInt64) : Block :=
  (key.start number).scramble

/-- The word at a position of the stream. Each block holds eight. -/
def word (key : Key) (position : Nat) : UInt64 :=
  let block := key.block (UInt64.ofNat (position / 8))
  let low := block[2 * (position % 8)]
  let high := block[2 * (position % 8) + 1]
  low.toUInt64 ||| (high.toUInt64 <<< 32)

end Key

end RoundRobin.Random
