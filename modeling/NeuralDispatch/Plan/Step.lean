import NeuralDispatch.Device.Basic
import NeuralDispatch.Model.Builder
import NeuralDispatch.Plan.Error

/-!
# Steps

A step is a part of a model that runs on one device.  It is filled with operands and operations of
the model, which get new positions in the step's own model, and is frozen when the plan is finished.

An operand keeps what it has been first added as.  What the step exchanges with the outside is
noted then: inputs and outputs of the whole model, and operands that other steps compute.
-/

namespace NeuralDispatch

/-- What an operation does with an operand (`OperandKind`). -/
inductive Role where
  | input
  | output
  deriving DecidableEq, Inhabited, Repr

/-- An operand of the whole model and its place in the model of a step (`OperandPair`). -/
structure Link where
  operand : Nat
  place : Nat
  deriving DecidableEq, Inhabited, Repr

/-- A part of a model, bound to one device (`ExecutionStep`). -/
structure Step where
  /-- The place of the step in its plan. -/
  index : Nat := 0
  device : Device
  /-- The model of the step (`sub_model`). -/
  model : Model := {}
  /-- The operations of the whole model that the step runs, in the order of its own. -/
  operations : List Nat := []
  /-- The operands of the whole model that the step knows, in the order of its own
  (`operand_map`). -/
  operands : List Nat := []
  /-- Inputs of the whole model that the step reads. -/
  modelInputs : List Link := []
  /-- Outputs of the whole model that the step computes. -/
  modelOutputs : List Link := []
  /-- Operands that the step reads and other steps compute (`sub_model_inputs`). -/
  crossInputs : List Link := []
  /-- Operands that the step computes and other steps read (`sub_model_outputs`). -/
  crossOutputs : List Link := []
  frozen : Bool := false

namespace Step

/-- The place of an operand of the whole model in the step (`local_index`). -/
def place? (s : Step) (o : Nat) : Option Nat := s.operands.idxOf? o

/-- The operands of the whole model with their places in the step, in ascending order. -/
def operandMap (s : Step) : List Link :=
  (s.operands.zipIdx.map fun (operand, place) => ⟨operand, place⟩).mergeSort
    fun a b => decide (a.operand ≤ b.operand)

/-- Everything that is passed in, in the order of the step model's inputs. -/
def inputs (s : Step) : List Link := s.modelInputs ++ s.crossInputs

/-- Everything that is passed out, in the order of the step model's outputs. -/
def outputs (s : Step) : List Link := s.modelOutputs ++ s.crossOutputs

/-- Refuses a call once the step is frozen (`assert_mutable`). -/
def requireMutable (s : Step) (call : StepCall) : Except PlanError Unit :=
  if s.frozen then .error (.misuse (.frozenStep call s.index s.device.name)) else .ok ()

/-! ## Filling -/

/-- An operand as it enters a step: constants and left-out operands keep their value, all others
are temporary until the step is finished. -/
def importOperand (o : Operand) : Operand :=
  let fresh : Operand :=
    { type := o.type, dimensions := o.dimensions, scale := o.scale, zeroPoint := o.zeroPoint }
  if o.lifetime.isConstant || o.lifetime = .noValue then
    { fresh with lifetime := o.lifetime, value := o.value }
  else fresh

/-- Notes what an operand means to the outside. -/
def note (s : Step) (link : Link) (role : Role) (lifetime : Lifetime) : Step :=
  match role, lifetime with
  | .input, .modelInput => { s with modelInputs := s.modelInputs ++ [link] }
  | .output, .modelOutput => { s with modelOutputs := s.modelOutputs ++ [link] }
  | .input, .temporary | .input, .modelOutput => { s with crossInputs := s.crossInputs ++ [link] }
  | _, _ => s

/-- Adds an operand of the whole model, unless the step knows it: the step, and the place of the
operand in it (`ExecutionStep.add_operand`). -/
def addOperand (s : Step) (whole : Model) (o : Nat) (role : Role) :
    Except PlanError (Step × Nat) := do
  s.requireMutable .addOperand
  match s.place? o with
  | some place => return (s, place)
  | none =>
    let source ← PlanError.ofModel (whole.operand o)
    let place := s.model.operands.length
    let s :=
      { s with model := s.model.addOperand (importOperand source), operands := s.operands ++ [o] }
    return (s.note ⟨o, place⟩ role source.lifetime, place)

/-- The place of an operand that an operation to be added touches. -/
def requirePlace (s : Step) (i o : Nat) : Except PlanError Nat :=
  match s.place? o with
  | some place => .ok place
  | none => .error (.misuse (.unmappedOperand o i s.index))

/-- Adds an operation of the whole model, all operands of which the step must know
(`ExecutionStep.add_operation`). -/
def addOperation (s : Step) (whole : Model) (i : Nat) : Except PlanError Step := do
  s.requireMutable .addOperation
  let op ← PlanError.ofModel (whole.operation i)
  let inputs ← op.inputs.mapM (s.requirePlace i)
  let outputs ← op.outputs.mapM (s.requirePlace i)
  let model ← PlanError.ofModel (s.model.addOperation op.type inputs outputs)
  return { s with model, operations := s.operations ++ [i] }

/-! ## Finishing -/

/-- Completes the step with what other steps read of it, and freezes it if its model is well formed
(`ExecutionStep.finish`).  What has been set before a fault is found stays set. -/
def finish (s : Step) (crossOutputs : List Link) (relaxed : Bool) : Step × Except PlanError Unit :=
  match s.requireMutable .finish with
  | .error e => (s, .error e)
  | .ok () =>
    let s := { s with crossOutputs }
    match s.model.identify (s.inputs.map (·.place)) (s.outputs.map (·.place)) with
    | (model, .error e) => ({ s with model }, .error (.invalidModel e))
    | (model, .ok ()) =>
      let s := { s with model := model.setRelaxed relaxed }
      match s.model.validate with
      | .error e => (s, .error (.invalidModel e))
      | .ok () => ({ s with frozen := true }, .ok ())

end Step

end NeuralDispatch
