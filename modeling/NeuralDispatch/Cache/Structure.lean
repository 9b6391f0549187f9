import NeuralDispatch.Cache.Wire
import NeuralDispatch.Model.Builder

/-!
# The structure of a model as a payload

The payload of a model cache describes a model without the bytes of its constants.  Reading builds
the model again: constants get their lifetime when they are added, inputs and outputs when they are
identified, and operands left out at the very end.
-/

namespace NeuralDispatch

namespace Lifetime

def code : Lifetime → UInt8
  | temporary => 0
  | modelInput => 1
  | modelOutput => 2
  | constantCopy => 3
  | constantReference => 4
  | noValue => 5

def ofCode? (c : UInt8) : Option Lifetime := all.find? fun l => l.code == c

theorem ofCode?_code (l : Lifetime) : ofCode? l.code = some l := by cases l <;> rfl

end Lifetime

namespace Cache

namespace Structure

/-! ## Writing -/

def writeOperand (o : Operand) : Bytes :=
  Bytes.le32 o.type.code ++ writeWords o.dimensions ++ Bytes.le32 o.scale.bits ++
    Bytes.le32 o.zeroPoint.toUInt32 ++ [o.lifetime.code]

def writeOperation (op : Operation) : Bytes :=
  Bytes.le32 op.type.code ++ writePositions op.inputs ++ writePositions op.outputs

/-- The payload that describes a model (`encode_structure`). -/
def write (m : Model) : Bytes :=
  Bytes.le32 (UInt32.ofNat m.operands.length) ++ m.operands.flatMap writeOperand ++
    Bytes.le32 (UInt32.ofNat m.operations.length) ++ m.operations.flatMap writeOperation ++
    writePositions m.inputs ++ writePositions m.outputs ++ [if m.relaxed then 1 else 0]

/-! ## Reading -/

/-- One operand, with the lifetime that is stored for it. -/
def readOperand : Reader Operand := do
  let code ← Reader.word
  let some type := OperandType.ofCode? code | throw (.unknownCode .operandType code)
  let dimensions ← Reader.words
  let scale := ⟨← Reader.word⟩
  let zeroPoint := (← Reader.word).toInt32
  let code ← Reader.byte
  let some lifetime := Lifetime.ofCode? code | throw (.unknownCode .lifetime code.toUInt32)
  return { type, dimensions, scale, zeroPoint, lifetime }

/-- An operand as it enters the model: only constants have their lifetime from the start. -/
def provisional (o : Operand) : Operand :=
  if o.isConstant then o else { o with lifetime := .temporary }

/-- The answer to a call on the model, as an answer to reading. -/
def accept {α : Type} (x : Except ModelError α) : Reader α :=
  match x with
  | .ok a => pure a
  | .error e => throw (.mismatch (.model e))

/-- `n` operations, added to a model one by one. -/
def readOperations : Nat → Model → Reader Model
  | 0, m => return m
  | n + 1, m => do
    let code ← Reader.word
    let some type := OperationType.ofCode? code | throw (.unknownCode .operationType code)
    let inputs ← Reader.positions
    let outputs ← Reader.positions
    readOperations n (← accept (m.addOperation type inputs outputs))

/-- Leaves out the operands that are stored as left out. -/
def leaveOut (m : Model) (stored : List Operand) : Except ModelError Model :=
  stored.zipIdx.foldlM (fun m (o, i) =>
    if o.lifetime = .noValue then m.setNoValue i else return m) m

/-- The model that a payload describes, all constants still without their bytes
(`decode_structure`).  Bytes behind the last field are not looked at. -/
def read : Reader Model := do
  let stored ← Reader.times readOperand (← Reader.number)
  let m : Model := { operands := stored.map provisional }
  let m ← readOperations (← Reader.number) m
  let inputs ← Reader.positions
  let outputs ← Reader.positions
  let (m, answer) := m.identify inputs outputs
  accept answer
  let m := m.setRelaxed ((← Reader.byte) != 0)
  accept (leaveOut m stored)

end Structure

end Cache

end NeuralDispatch
