import NeuralDispatch.Model.Basic

/-!
# Building a model

A model grows by calls: operands are added, given constant values or left out, operations are added
between operands that exist, and at last the inputs and outputs are named.

A refused call gives no model, so the caller still holds the one it had, with one exception:
`identify` marks operands in the order in which they are listed and stops at the first one that
does not exist, and what it marked before stays marked.  `perform` therefore shows the model after a
call together with the answer to it.
-/

namespace NeuralDispatch

namespace Model

def setOperand (m : Model) (i : Nat) (o : Operand) : Model :=
  { m with operands := m.operands.set i o }

/-- Adds an operand.  Its position is the number of operands before. -/
def addOperand (m : Model) (o : Operand) : Model := { m with operands := m.operands ++ [o] }

/-- Makes an operand a constant (`set_constant`).  The bytes must be as many as the operand takes,
if that is known. -/
def setConstant (m : Model) (i : Nat) (bytes : Bytes) (lifetime : Lifetime) :
    Except ModelError Model := do
  let o ← m.operand i
  match o.byteLength with
  | some expected =>
    if expected ≠ bytes.length then throw (.wrongLength i expected bytes.length)
  | none => pure ()
  return m.setOperand i { o with lifetime, value := some bytes }

/-- Gives an operand a constant value that the model holds (`set_operand_value`). -/
def setValue (m : Model) (i : Nat) (bytes : Bytes) : Except ModelError Model :=
  m.setConstant i bytes .constantCopy

/-- Gives an operand a constant value that lies in shared memory (`set_operand_reference`). -/
def setReference (m : Model) (i : Nat) (bytes : Bytes) : Except ModelError Model :=
  m.setConstant i bytes .constantReference

/-- Leaves an optional operand out (`set_operand_no_value`). -/
def setNoValue (m : Model) (i : Nat) : Except ModelError Model := do
  let o ← m.operand i
  return m.setOperand i { o with lifetime := .noValue, value := none }

/-- Counts one more reader of an operand. -/
def addReader (m : Model) (i : Nat) : Model :=
  { m with operands := m.operands.modify i fun o => { o with consumers := o.consumers + 1 } }

/-- Adds an operation (`add_operation`).  Every operand it names must exist, and it must compute
something.  Its position is the number of operations before. -/
def addOperation (m : Model) (type : OperationType) (inputs outputs : List Nat) :
    Except ModelError Model := do
  (inputs ++ outputs).forM fun i => do let _ ← m.operand i
  if outputs.isEmpty then throw (.idleOperation type)
  let m := inputs.foldl addReader m
  return { m with operations := m.operations ++ [⟨type, inputs, outputs⟩] }

/-- Marks the listed operands with a lifetime, up to the first that does not exist. -/
def mark (lifetime : Lifetime) : List Nat → Model → Model × Except ModelError Unit
  | [], m => (m, .ok ())
  | i :: rest, m =>
    match m.operand i with
    | .error e => (m, .error e)
    | .ok o => mark lifetime rest (m.setOperand i { o with lifetime })

/-- Names the inputs and the outputs of the model and marks them as such
(`identify_inputs_and_outputs`). -/
def identify (m : Model) (inputs outputs : List Nat) : Model × Except ModelError Unit :=
  match mark .modelInput inputs m with
  | (m, .error e) => (m, .error e)
  | (m, .ok ()) =>
    match mark .modelOutput outputs m with
    | (m, .error e) => (m, .error e)
    | (m, .ok ()) => ({ m with inputs, outputs }, .ok ())

def setRelaxed (m : Model) (relaxed : Bool) : Model := { m with relaxed }

/-- A call on a model under construction. -/
inductive Call where
  | addOperand (operand : Operand)
  | setValue (operand : Nat) (bytes : Bytes)
  | setReference (operand : Nat) (bytes : Bytes)
  | setNoValue (operand : Nat)
  | addOperation (type : OperationType) (inputs outputs : List Nat)
  | identify (inputs outputs : List Nat)
  | setRelaxed (relaxed : Bool)
  deriving DecidableEq, Repr

/-- The model after a call that either gives a new model or leaves the old one. -/
def settle (m : Model) : Except ModelError Model → Model × Except ModelError Unit
  | .ok m' => (m', .ok ())
  | .error e => (m, .error e)

/-- The model after a call, and the answer to it. -/
def perform (m : Model) : Call → Model × Except ModelError Unit
  | .addOperand o => (m.addOperand o, .ok ())
  | .setValue i bytes => m.settle (m.setValue i bytes)
  | .setReference i bytes => m.settle (m.setReference i bytes)
  | .setNoValue i => m.settle (m.setNoValue i)
  | .addOperation type inputs outputs => m.settle (m.addOperation type inputs outputs)
  | .identify inputs outputs => m.identify inputs outputs
  | .setRelaxed relaxed => (m.setRelaxed relaxed, .ok ())

/-- The model after a sequence of calls, whether they are accepted or refused. -/
def performAll (m : Model) (calls : List Call) : Model :=
  calls.foldl (fun m call => (m.perform call).1) m

/-- Performs calls up to the first that is refused. -/
def build (m : Model) : List Call → Model × Except ModelError Unit
  | [] => (m, .ok ())
  | call :: rest =>
    match m.perform call with
    | (m, .error e) => (m, .error e)
    | (m, .ok ()) => m.build rest

end Model

end NeuralDispatch
