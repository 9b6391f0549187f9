import NeuralDispatch.Bytes

/-!
# SHA-256

The secure hash with eight words of state.  A message is padded to whole blocks of 64 bytes, and
each block is mixed into the state in 64 rounds, one for each word of its schedule.
-/

namespace NeuralDispatch.Sha256

/-- The state: one word for each of the eight registers. -/
structure Registers where
  a : UInt32
  b : UInt32
  c : UInt32
  d : UInt32
  e : UInt32
  f : UInt32
  g : UInt32
  h : UInt32
  deriving DecidableEq, Inhabited, Repr

/-- The state before the first block. -/
def start : Registers where
  a := 0x6a09e667
  b := 0xbb67ae85
  c := 0x3c6ef372
  d := 0xa54ff53a
  e := 0x510e527f
  f := 0x9b05688c
  g := 0x1f83d9ab
  h := 0x5be0cd19

/-- The constants of the 64 rounds. -/
def roundConstants : List UInt32 :=
  [0x428a2f98, 0x71374491, 0xb5c0fbcf, 0xe9b5dba5, 0x3956c25b, 0x59f111f1, 0x923f82a4, 0xab1c5ed5,
    0xd807aa98, 0x12835b01, 0x243185be, 0x550c7dc3, 0x72be5d74, 0x80deb1fe, 0x9bdc06a7, 0xc19bf174,
    0xe49b69c1, 0xefbe4786, 0x0fc19dc6, 0x240ca1cc, 0x2de92c6f, 0x4a7484aa, 0x5cb0a9dc, 0x76f988da,
    0x983e5152, 0xa831c66d, 0xb00327c8, 0xbf597fc7, 0xc6e00bf3, 0xd5a79147, 0x06ca6351, 0x14292967,
    0x27b70a85, 0x2e1b2138, 0x4d2c6dfc, 0x53380d13, 0x650a7354, 0x766a0abb, 0x81c2c92e, 0x92722c85,
    0xa2bfe8a1, 0xa81a664b, 0xc24b8b70, 0xc76c51a3, 0xd192e819, 0xd6990624, 0xf40e3585, 0x106aa070,
    0x19a4c116, 0x1e376c08, 0x2748774c, 0x34b0bcb5, 0x391c0cb3, 0x4ed8aa4a, 0x5b9cca4f, 0x682e6ff3,
    0x748f82ee, 0x78a5636f, 0x84c87814, 0x8cc70208, 0x90befffa, 0xa4506ceb, 0xbef9a3f7, 0xc67178f2]

def rotateRight (x n : UInt32) : UInt32 := (x >>> n) ||| (x <<< (32 - n))

def bigSigma0 (x : UInt32) : UInt32 := rotateRight x 2 ^^^ rotateRight x 13 ^^^ rotateRight x 22

def bigSigma1 (x : UInt32) : UInt32 := rotateRight x 6 ^^^ rotateRight x 11 ^^^ rotateRight x 25

def smallSigma0 (x : UInt32) : UInt32 := rotateRight x 7 ^^^ rotateRight x 18 ^^^ (x >>> 3)

def smallSigma1 (x : UInt32) : UInt32 := rotateRight x 17 ^^^ rotateRight x 19 ^^^ (x >>> 10)

def choose (x y z : UInt32) : UInt32 := (x &&& y) ^^^ (~~~x &&& z)

def majority (x y z : UInt32) : UInt32 := (x &&& y) ^^^ (x &&& z) ^^^ (y &&& z)

/-- One round, with the constant and the schedule word that it adds. -/
def round (r : Registers) (constant word : UInt32) : Registers :=
  let t1 := r.h + bigSigma1 r.e + choose r.e r.f r.g + constant + word
  let t2 := bigSigma0 r.a + majority r.a r.b r.c
  ⟨t1 + t2, r.a, r.b, r.c, r.d + t1, r.e, r.f, r.g⟩

/-- Adds `n` words to a schedule.  The words are listed latest first, and each new one is made of
those 2, 7, 15 and 16 places back. -/
def extend : Nat → List UInt32 → List UInt32
  | 0, words => words
  | n + 1, words =>
    let back (k : Nat) := words.getD (k - 1) 0
    extend n ((smallSigma1 (back 2) + back 7 + smallSigma0 (back 15) + back 16) :: words)

/-- The big-endian words of a byte string. -/
def words : Bytes → List UInt32
  | a :: b :: c :: d :: rest => Bytes.word d c b a :: words rest
  | _ => []

/-- Mixes one block into the state. -/
def mixBlock (r : Registers) (block : Bytes) : Registers :=
  let schedule := (extend 48 (words block).reverse).reverse
  let s := (roundConstants.zip schedule).foldl (fun s (constant, word) => round s constant word) r
  ⟨r.a + s.a, r.b + s.b, r.c + s.c, r.d + s.d, r.e + s.e, r.f + s.f, r.g + s.g, r.h + s.h⟩

/-- The message with a one bit, zeros up to the last eight bytes of a block, and its length in bits
as a big-endian number in those. -/
def pad (message : Bytes) : Bytes :=
  let zeros := (119 - message.length % 64) % 64
  let bits := UInt64.ofNat (8 * message.length)
  let length := (List.range 8).map fun i => (bits >>> UInt64.ofNat (56 - 8 * i)).toUInt8
  message ++ [0x80] ++ List.replicate zeros 0 ++ length

/-- Mixes blocks of 64 bytes into the state, `count` of them. -/
def mixBlocks : (count : Nat) → Registers → Bytes → Registers
  | 0, r, _ => r
  | count + 1, r, bytes => mixBlocks count (mixBlock r (bytes.take 64)) (bytes.drop 64)

/-- The eight registers in order. -/
def Registers.toVector (r : Registers) : Vector UInt32 8 :=
  #v[r.a, r.b, r.c, r.d, r.e, r.f, r.g, r.h]

/-- The 32 bytes of the state, the high byte of each word first. -/
def Registers.digest (r : Registers) : Vector UInt8 32 :=
  Vector.ofFn fun i =>
    (r.toVector[i.val / 4] >>> UInt32.ofNat (24 - 8 * (i.val % 4))).toUInt8

/-- The hash of a message. -/
def hash (message : Bytes) : Vector UInt8 32 :=
  let padded := pad message
  (mixBlocks (padded.length / 64) start padded).digest

end NeuralDispatch.Sha256
