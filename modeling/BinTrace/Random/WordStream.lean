import BinTrace.Arithmetic

/-!
Streams of 32-bit words, and drawing numbers below a bound from them. A seed gives a stream of
pseudorandom words: the ChaCha key stream with twelve rounds, for a key that is spread from the
seed.
-/

namespace BinTrace.Random

/-- The word at each position, and the position of the next word. -/
structure WordStream where
  word : Nat → UInt32
  position : Nat := 0

namespace WordStream

def rotateLeft (x : UInt32) (n : UInt32) : UInt32 := (x <<< n) ||| (x >>> (32 - n))

def rotateRight (x : UInt32) (n : UInt32) : UInt32 := rotateLeft x ((32 - n) % 32)

/-- A step of the linear congruence that spreads a seed. -/
def advanceSeed (s : UInt64) : UInt64 := s * 6364136223846793005 + 11634580027462260723

/-- The word of a state: its upper bits, rotated by an amount that its highest bits give. -/
def seedWord (s : UInt64) : UInt32 := rotateRight (((s >>> 18) ^^^ s) >>> 27).toUInt32 (s >>> 59).toUInt32

def seedWords : Nat → UInt64 → List UInt32
  | 0, _ => []
  | n + 1, s =>
    let s := advanceSeed s
    seedWord s :: seedWords n s

/-- Adds, mixes and rotates four words of a block. -/
def quarterRound (s : Array UInt32) (a b c d : Nat) : Array UInt32 :=
  let step (s : Array UInt32) (x y z : Nat) (n : UInt32) : Array UInt32 :=
    let s := s.setIfInBounds x (s.getD x 0 + s.getD y 0)
    s.setIfInBounds z (rotateLeft (s.getD z 0 ^^^ s.getD x 0) n)
  step (step (step (step s a b d 16) c d b 12) a b d 8) c d b 7

/-- A round on the columns and one on the diagonals. -/
def doubleRound (s : Array UInt32) : Array UInt32 :=
  let s := quarterRound s 0 4 8 12
  let s := quarterRound s 1 5 9 13
  let s := quarterRound s 2 6 10 14
  let s := quarterRound s 3 7 11 15
  let s := quarterRound s 0 5 10 15
  let s := quarterRound s 1 6 11 12
  let s := quarterRound s 2 7 8 13
  quarterRound s 3 4 9 14

def doubleRounds : Nat → Array UInt32 → Array UInt32
  | 0, s => s
  | n + 1, s => doubleRounds n (doubleRound s)

/-- The words that begin every block: "expand 32-byte k". -/
def constants : List UInt32 := [0x61707865, 0x3320646e, 0x79622d32, 0x6b206574]

/-- The sixteen words of the block with a number. -/
def block (key : List UInt32) (number : Nat) : Array UInt32 :=
  let counter := [UInt32.ofNat number, UInt32.ofNat (number / 2 ^ 32)]
  let start := (constants ++ key ++ counter ++ [0, 0]).toArray
  (start.zip (doubleRounds 6 start)).map fun (a, b) => a + b

/-- The word at a position of the stream that belongs to a key. -/
def wordAt (key : List UInt32) (position : Nat) : UInt32 :=
  (block key (position / 16)).getD (position % 16) 0

def ofSeed (seed : Nat) : WordStream := { word := wordAt (seedWords 8 (UInt64.ofNat seed)) }

def next (s : WordStream) : UInt32 × WordStream :=
  (s.word s.position, { s with position := s.position + 1 })

/-- The greatest low half of a product that is accepted when a number below `n` is drawn. -/
def zone (n : Nat) : Nat := n * 2 ^ (31 - n.log2) - 1

/-- Draws words until one is accepted, at most `attempts` of them. Each is accepted with a chance
above one half. -/
def drawWithin (n : Nat) : Nat → WordStream → Nat × WordStream
  | 0, s => (0, s)
  | attempts + 1, s =>
    let (word, s) := s.next
    let product := word.toNat * n
    if product % 2 ^ 32 ≤ zone n then (product / 2 ^ 32, s) else drawWithin n attempts s

/-- Words are drawn in vain this often before zero is taken, which does not happen. -/
def attempts : Nat := 256

/-- A number below `n`, each with the same chance. -/
def draw (s : WordStream) (n : Nat) : Nat × WordStream := s.drawWithin n attempts

end WordStream

end BinTrace.Random
