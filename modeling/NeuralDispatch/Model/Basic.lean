import NeuralDispatch.Bytes
import NeuralDispatch.Signature

/-!
# Computation graphs

A model holds the operands (values) and operations (nodes) of one graph, and names its inputs and
outputs.  Operands and operations are referred to by their position.
-/

namespace NeuralDispatch

/-- Where the value of an operand comes from (`OperandLifetime`). -/
inductive Lifetime where
  /-- Computed by one operation and read inside the same model. -/
  | temporary
  /-- Given by the caller of an execution. -/
  | modelInput
  /-- Returned to the caller of an execution. -/
  | modelOutput
  /-- A constant whose bytes the model holds. -/
  | constantCopy
  /-- A constant whose bytes lie in shared memory. -/
  | constantReference
  /-- An optional argument that is left out. -/
  | noValue
  deriving DecidableEq, Inhabited, Repr

namespace Lifetime

def all : List Lifetime :=
  [temporary, modelInput, modelOutput, constantCopy, constantReference, noValue]

def isConstant : Lifetime → Bool
  | constantCopy | constantReference => true
  | temporary | modelInput | modelOutput | noValue => false

/-- Whether only an operation can give the operand its value. -/
def needsProducer : Lifetime → Bool
  | temporary | modelOutput => true
  | modelInput | constantCopy | constantReference | noValue => false

def name : Lifetime → String
  | temporary => "TemporaryVariable"
  | modelInput => "ModelInput"
  | modelOutput => "ModelOutput"
  | constantCopy => "ConstantCopy"
  | constantReference => "ConstantReference"
  | noValue => "NoValue"

end Lifetime

/-- One value of the graph: a tensor or a scalar. -/
structure Operand where
  type : OperandType
  /-- The extents, of which 0 stands for one that is not known yet. -/
  dimensions : List UInt32
  scale : Single := ⟨0⟩
  zeroPoint : Int32 := 0
  lifetime : Lifetime := .temporary
  /-- How often operations read the operand (`number_of_consumers`). -/
  consumers : Nat := 0
  /-- The bytes of a constant. -/
  value : Option Bytes := none
  deriving DecidableEq, Inhabited, Repr

namespace Operand

def rank (o : Operand) : Nat := o.dimensions.length

/-- The number of elements, unless an extent is unknown (`element_count`).  It is counted in 64 bits
and wraps around. -/
def elementCount (o : Operand) : Option Nat :=
  if 0 ∈ o.dimensions then none
  else some (o.dimensions.foldr (fun d n => d.toNat * n) 1 % UInt64.size)

/-- The bytes that the value takes, unless an extent is unknown (`byte_len`).  They are counted like
the elements. -/
def byteLength (o : Operand) : Option Nat :=
  o.elementCount.map fun n => n * o.type.elementSize % UInt64.size

def isConstant (o : Operand) : Bool := o.lifetime.isConstant

end Operand

/-- One node of the graph. -/
structure Operation where
  type : OperationType
  inputs : List Nat
  outputs : List Nat
  deriving DecidableEq, Inhabited, Repr

/-- Why a model is refused (`HalError`). -/
inductive ModelError where
  | unknownOperand (operand : Nat)
  | unknownOperation (operation : Nat)
  /-- A constant of another length than its operand takes. -/
  | wrongLength (operand expected actual : Nat)
  /-- An operation that computes nothing. -/
  | idleOperation (type : OperationType)
  /-- An operation that touches no operand, so that it has no signature. -/
  | bareOperation (operation : Nat)
  | noOperations
  | noOutputs
  /-- An operation writes what is given from elsewhere. -/
  | writesGiven (operation operand : Nat) (lifetime : Lifetime)
  | severalProducers (operand : Nat)
  | readNeverWritten (operand : Nat)
  | constantWithoutValue (operand : Nat)
  | outputNeverWritten (operand : Nat)
  | cycle
  deriving DecidableEq, Repr

namespace ModelError

def reason : ModelError → String
  | unknownOperand i => s!"Operand {i} not found"
  | unknownOperation i => s!"Operation {i} not found"
  | wrongLength i expected actual => s!"Operand {i} expects {expected} bytes, got {actual}"
  | idleOperation type => type.name ++ " operation has no outputs"
  | bareOperation i => s!"Operation {i} has no operands"
  | noOperations => "Model has no operations"
  | noOutputs => "Model has no outputs"
  | writesGiven i o lifetime => s!"Operation {i} writes operand {o} with lifetime " ++ lifetime.name
  | severalProducers o => s!"Operand {o} has more than one producer"
  | readNeverWritten o => s!"Operand {o} is read but never written"
  | constantWithoutValue o => s!"Constant operand {o} has no value"
  | outputNeverWritten o => s!"Model output {o} is never written"
  | cycle => "Model contains a cycle"

def message (e : ModelError) : String := "Invalid model: " ++ e.reason

end ModelError

/-- The operands and operations of one graph. -/
structure Model where
  operands : List Operand := []
  operations : List Operation := []
  inputs : List Nat := []
  outputs : List Nat := []
  /-- Whether single precision may be computed in half precision. -/
  relaxed : Bool := false
  deriving DecidableEq, Inhabited, Repr

namespace Model

/-! ## Look-up -/

def operand (m : Model) (i : Nat) : Except ModelError Operand :=
  match m.operands[i]? with
  | some o => .ok o
  | none => .error (.unknownOperand i)

def operation (m : Model) (i : Nat) : Except ModelError Operation :=
  match m.operations[i]? with
  | some op => .ok op
  | none => .error (.unknownOperation i)

/-- The signature of an operation (`operation_tuple`).  Its operand type is that of the first input,
or of the first output where there is no input. -/
def signature (m : Model) (i : Nat) : Except ModelError Signature := do
  let op ← m.operation i
  match op.inputs ++ op.outputs with
  | [] => throw (.bareOperation i)
  | first :: _ => return ⟨op.type, (← m.operand first).type⟩

/-! ## Producers and consumers -/

/-- The position of the last operation of a list that writes an operand. -/
def lastWriter (o : Nat) : List Operation → Option Nat
  | [] => none
  | op :: rest =>
    match lastWriter o rest with
    | some i => some (i + 1)
    | none => if o ∈ op.outputs then some 0 else none

/-- The operation that computes an operand, the last one if there are several. -/
def producer? (m : Model) (o : Nat) : Option Nat := lastWriter o m.operations

/-- The operands that operations compute, each with the operation that does, in ascending order. -/
def producers (m : Model) : List (Nat × Nat) :=
  (List.range m.operands.length).filterMap fun o => (m.producer? o).map (o, ·)

/-- The operations that read an operand, each as often as it does. -/
def readers (m : Model) (o : Nat) : List Nat :=
  m.operations.zipIdx.flatMap fun (op, i) => List.replicate (op.inputs.count o) i

end Model

end NeuralDispatch
