import NeuralDispatch.OperandType
import NeuralDispatch.OperationType
import NeuralDispatch.Sorted

/-!
# Signatures

Drivers declare what they can run by pairs of an operation type and an operand type.
-/

namespace NeuralDispatch

/-- An operation on operands of one type (`OperationTuple`). -/
structure Signature where
  operation : OperationType
  operand : OperandType
  deriving DecidableEq, Inhabited, Repr

namespace Signature

def text (s : Signature) : String := "(" ++ s.operation.name ++ ", " ++ s.operand.name ++ ")"

/-- The order of signatures: by operation, then by operand type. -/
def le (a b : Signature) : Bool :=
  decide (a.operation.code < b.operation.code) ||
    (a.operation.code == b.operation.code && decide (a.operand.code ≤ b.operand.code))

/-- The signatures in ascending order, repetitions kept. -/
def sort (xs : List Signature) : List Signature := xs.mergeSort le

/-- The signatures in ascending order, each once. -/
def toSet (xs : List Signature) : List Signature := Sorted.ofList le xs

end Signature

end NeuralDispatch
