/-!
# FNV-1a

The 32-bit hash that takes in a byte before each multiplication.
-/

namespace NeuralDispatch.Fnv

/-- The hash of no bytes. -/
def offsetBasis : UInt32 := 0x811c9dc5

def prime : UInt32 := 0x01000193

/-- Takes one more byte in. -/
def step (hash : UInt32) (byte : UInt8) : UInt32 := (hash ^^^ byte.toUInt32) * prime

def hash (bytes : List UInt8) : UInt32 := bytes.foldl step offsetBasis

end NeuralDispatch.Fnv
