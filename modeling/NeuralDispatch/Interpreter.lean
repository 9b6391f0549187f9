import NeuralDispatch.Execution
import NeuralDispatch.Model.Order
import NeuralDispatch.Request

/-!
# Interpretation

Runs a whole model on a request, operation by operation, in single precision.  Five elementwise
operations are known: sum, difference and product of two tensors of the same size, and rounding
down and rectification of one.

`run` binds the constants and the inputs, evaluates the operations in topological order, and then
writes the outputs one after the other; an output that cannot be bound ends the run there, and what
was written before it stays written.
-/

namespace NeuralDispatch

/-- A value during interpretation (`Value`). -/
structure Tensor where
  dimensions : List UInt32
  data : List Single
  deriving DecidableEq, Inhabited, Repr

namespace Tensor

/-- The combination of two tensors of the same size, with the extents of the first (`binary`). -/
def zipWith? (f : Single → Single → Single) (a b : Tensor) : Option Tensor :=
  if a.data.length = b.data.length then some ⟨a.dimensions, List.zipWith f a.data b.data⟩ else none

def map (f : Single → Single) (a : Tensor) : Tensor := ⟨a.dimensions, a.data.map f⟩

end Tensor

namespace OperationType

/-- The result of an operation on its inputs, if the operation is known and the inputs are as many
and as long as it needs. -/
def apply : OperationType → List Tensor → Option Tensor
  | add, [a, b] => a.zipWith? Single.add b
  | sub, [a, b] => a.zipWith? Single.sub b
  | mul, [a, b] => a.zipWith? Single.mul b
  | floor, [a] => some (a.map Single.floor)
  | relu, [a] => some (a.map Single.relu)
  | _, _ => none

end OperationType

/-- The values of a model's operands, as far as they are known. -/
abbrev Valuation := Nat → Option Tensor

namespace Valuation

def empty : Valuation := fun _ => none

def bind (v : Valuation) (o : Nat) (t : Tensor) : Valuation :=
  fun other => if other = o then some t else v other

end Valuation

namespace Interpreter

/-- The signatures that the interpreter can run (`executable_tuples`). -/
def signatures : List Signature :=
  [.add, .sub, .mul, .floor, .relu].map fun op => ⟨op, .tensorFloat32⟩

/-- Binds the operands that hold bytes.  Fails on bytes that are not a whole number of words. -/
def bindConstants (m : Model) : Option Valuation :=
  m.operands.zipIdx.foldlM (fun v (operand, o) =>
    match operand.value with
    | none => some v
    | some bytes => bytes.toSingles?.map fun data => v.bind o ⟨operand.dimensions, data⟩) .empty

/-- The value of one input.  Extents that the argument states win over those of the model. -/
def readInput (m : Model) (r : Request) (o : Nat) (position : Nat) : Option Tensor := do
  let argument ← r.inputs[position]?
  let data ← (← r.read argument).toSingles?
  let operand ← m.operands[o]?
  return ⟨if argument.dimensions.isEmpty then operand.dimensions else argument.dimensions, data⟩

/-- Binds the inputs of the model to what the request holds for them. -/
def bindInputs (m : Model) (r : Request) (v : Valuation) : Option Valuation :=
  m.inputs.zipIdx.foldlM (fun v (o, position) => (readInput m r o position).map (v.bind o)) v

/-- Evaluates one operation and binds its first output. -/
def evaluate (m : Model) (v : Valuation) (i : Nat) : Option Valuation := do
  let op ← m.operations[i]?
  let result ← op.type.apply (← op.inputs.mapM v)
  return v.bind (← op.outputs.head?) result

/-- Writes the outputs in order, up to the first that has no argument or no value.  An output that
does not fit its region is left out and reported as such. -/
def writeOutputs (v : Valuation) : List (Nat × Nat) → Request → Request × Option (List OutputShape)
  | [], r => (r, some [])
  | (o, position) :: rest, r =>
    match r.outputs[position]?, v o with
    | some argument, some tensor =>
      let written := r.write? argument (Bytes.ofSingles tensor.data)
      let (r, shapes) := writeOutputs v rest (written.getD r)
      (r, shapes.map (⟨tensor.dimensions, written.isSome⟩ :: ·))
    | _, _ => (r, none)

/-- The values of all operands after the operations have run, or why they did not. -/
def values (m : Model) (r : Request) : Except Status Valuation := do
  let some v := bindConstants m | throw .generalFailure
  let some v := bindInputs m r v | throw .invalidArgument
  let .ok order := m.topologicalOrder | throw .generalFailure
  let some v := order.foldlM (evaluate m) v | throw .generalFailure
  return v

/-- Runs a model on a request: the request with its outputs filled, and the report. -/
def run (m : Model) (r : Request) : Request × Execution :=
  match values m r with
  | .error status => (r, { status })
  | .ok v =>
    match writeOutputs v m.outputs.zipIdx r with
    | (r, none) => (r, { status := .invalidArgument })
    | (r, some shapes) =>
      let status := if shapes.all (·.isSufficient) then .success else .outputInsufficientSize
      (r, { status, shapes })

end Interpreter

end NeuralDispatch
