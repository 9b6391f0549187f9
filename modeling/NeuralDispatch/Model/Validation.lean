import NeuralDispatch.Model.Order

/-!
# Well-formed models

`Model.validate` refuses a model that no driver could run and names the first fault it finds: first
in the operations, then in the operands, then in the outputs, and last in the dependencies as a
whole.
-/

namespace NeuralDispatch

namespace Model

/-- Checks that an operation may write an operand, given what is written before it, and notes it as
written. -/
def checkOutput (m : Model) (i : Nat) (written : List Nat) (o : Nat) :
    Except ModelError (List Nat) := do
  let operand ← m.operand o
  if !operand.lifetime.needsProducer then throw (.writesGiven i o operand.lifetime)
  if o ∈ written then throw (.severalProducers o)
  return o :: written

/-- Checks one operation: the operands exist, and each output is its own to write. -/
def checkOperation (m : Model) (written : List Nat) (entry : Operation × Nat) :
    Except ModelError (List Nat) := do
  let (op, i) := entry
  (op.inputs ++ op.outputs).forM fun o => do let _ ← m.operand o
  op.outputs.foldlM (m.checkOutput i) written

/-- Checks that an operand has its value from somewhere. -/
def checkOperand (written : List Nat) (entry : Operand × Nat) : Except ModelError Unit := do
  let (operand, o) := entry
  if operand.lifetime.needsProducer && operand.consumers != 0 && !written.contains o then
    throw (.readNeverWritten o)
  if operand.isConstant && operand.value.isNone then throw (.constantWithoutValue o)

/-- Succeeds on a model that can be run, and names the first fault of any other. -/
def validate (m : Model) : Except ModelError Unit := do
  if m.operations.isEmpty then throw .noOperations
  if m.outputs.isEmpty then throw .noOutputs
  let written ← m.operations.zipIdx.foldlM m.checkOperation []
  m.operands.zipIdx.forM (checkOperand written)
  m.outputs.forM fun o => if o ∈ written then pure () else throw (.outputNeverWritten o)
  let _ ← m.topologicalOrder

/-! ## Revisions -/

/-- The oldest revision that can express the model (`min_version`). -/
def minRevision (m : Model) : Revision :=
  let needs := m.operations.map (·.type.introducedIn) ++ m.operands.map (·.type.introducedIn)
  needs.foldl Revision.newer (if m.relaxed then .v1_1 else .v1_0)

/-- Whether a driver of a revision can be handed the model (`is_compliant_with`). -/
def isCompliantWith (m : Model) (r : Revision) : Bool := decide (m.minRevision ≤ r)

end Model

end NeuralDispatch
