import NeuralDispatch.Cache.Wire
import NeuralDispatch.Model.Builder

/-!
# The bytes of constants as a data cache

A data cache lists the bytes of a model's constants, each with the operand they belong to.  It
carries no tag, so reading accepts it only if it fills every constant of the model exactly once and
nothing else.
-/

namespace NeuralDispatch.Cache

namespace Constants

/-- One record: operand, length and bytes. -/
def writeRecord (record : Nat × Bytes) : Bytes :=
  Bytes.le32 (UInt32.ofNat record.1) ++ Bytes.le32 (UInt32.ofNat record.2.length) ++ record.2

/-- The operands of a model that hold bytes, with those. -/
def records (m : Model) : List (Nat × Bytes) :=
  m.operands.zipIdx.filterMap fun (o, i) => o.value.map (i, ·)

/-- The data cache of a model (`encode_data_cache`). -/
def write (m : Model) : Bytes :=
  let records := records m
  Bytes.le32 (UInt32.ofNat records.length) ++ records.flatMap writeRecord

/-- Gives a constant that has no bytes yet the ones that are stored for it. -/
def fill (m : Model) (i : Nat) (bytes : Bytes) : Except CacheError Model :=
  match m.operand i with
  | .error e => .error (.mismatch (.model e))
  | .ok o =>
    if !o.isConstant then .error (.mismatch (.notConstant i))
    else if o.value.isSome then .error (.mismatch (.storedTwice i))
    else
      match m.setConstant i bytes o.lifetime with
      | .error e => .error (.mismatch (.model e))
      | .ok m => .ok m

/-- `n` records, filled into a model one by one. -/
def readRecords : Nat → Model → Reader Model
  | 0, m => return m
  | n + 1, m => do
    let i ← Reader.number
    let bytes ← Reader.take (← Reader.number)
    readRecords n (← fill m i bytes)

/-- The model with its constants filled from a data cache (`attach_constants`). -/
def attach (m : Model) (bytes : Bytes) : Except CacheError Model := do
  let (m, rest) ← (do readRecords (← Reader.number) m : Reader Model) bytes
  if !rest.isEmpty then throw (.mismatch .trailingBytes)
  match m.operands.findIdx? fun o => o.isConstant && o.value.isNone with
  | some i => throw (.mismatch (.constantWithoutValue i))
  | none => return m

end Constants

end NeuralDispatch.Cache
