import NeuralDispatch.Cache.Wire
import NeuralDispatch.Hash.Sha256

/-!
# The frame of a model cache

A model cache is the header, the token that the caller has chosen, the length of the payload, the
payload, and a tag that only the holder of the key can make.  `Frame.verify` gives the payload of
an intact file and looks at no byte of it before.
-/

namespace NeuralDispatch.Cache

/-- What a caller names a compiled model by (`CacheToken`). -/
abbrev Token := Vector UInt8 32

/-- The secret of a driver (`CacheKey`). -/
abbrev Key := Vector UInt8 32

namespace Frame

/-- The first eight bytes of a model cache, `TSRAMC01` (`MAGIC`). -/
def header : Bytes := [0x54, 0x53, 0x52, 0x41, 0x4d, 0x43, 0x30, 0x31]

/-- The tag of a payload: a hash under the key of a hash of payload and token. -/
def tag (key : Key) (payload : Bytes) (token : Token) : Vector UInt8 32 :=
  Sha256.hash (key.toList ++ (Sha256.hash (payload ++ token.toList)).toList)

/-- The model cache that holds a payload. -/
def write (payload : Bytes) (token : Token) (key : Key) : Bytes :=
  header ++ token.toList ++ Bytes.le32 (UInt32.ofNat payload.length) ++ payload ++
    (tag key payload token).toList

/-- The parts of a frame with this token. -/
def read (token : Token) : Reader (Bytes × Bytes) := do
  if (← Reader.take 8) ≠ header then throw .unknownHeader
  if (← Reader.take 32) ≠ token.toList then throw .tokenMismatch
  let payload ← Reader.take (← Reader.number)
  let tag ← Reader.take 32
  return (payload, tag)

/-- The payload of a model cache, if the cache is whole and was sealed with this token and key
(`verify_model_cache`). -/
def verify (bytes : Bytes) (token : Token) (key : Key) : Except CacheError Bytes := do
  let ((payload, stored), rest) ← read token bytes
  if !rest.isEmpty then throw .integrityCheckFailed
  if stored ≠ (tag key payload token).toList then throw .integrityCheckFailed
  return payload

end Frame

end NeuralDispatch.Cache
