import NeuralDispatch.Driver.Prepared
import NeuralDispatch.Plan.Basic

/-!
# Running a plan

The models of the steps are prepared on their devices, and then run in order.  Values are kept by
operand of the whole model: the caller gives those of the inputs, each step reads what it needs and
adds what it computes, and at the end the outputs are among them.
-/

namespace NeuralDispatch

/-- A plan with a prepared model for each of its steps (`PlanExecutor`). -/
structure PreparedPlan where
  plan : Plan
  models : List PreparedModel

/-- The values that are known of a model's operands, the latest first. -/
abbrev KnownValues := List (Nat × Bytes)

namespace Step

/-- The error of a step that its device does not prepare. -/
def prepareError (s : Step) (status : Status) : RunError :=
  .prepare s.index s.device.name (if status.isOk then .generalFailure else status)

/-- Prepares the model of a step on its device and waits for the outcome. -/
def prepare (s : Step) (preference : Preference) : Except RunError PreparedModel :=
  match s.device.handle.prepare s.model preference .new with
  | (.success, ⟨none⟩) => .error (.fault .neverCompleted)
  | (.success, ⟨some ⟨.success, some model⟩⟩) => .ok model
  | (.success, ⟨some ⟨status, _⟩⟩) => .error (s.prepareError status)
  | (status, _) => .error (s.prepareError status)

/-- The value that a step reads. -/
def readValue (s : Step) (values : KnownValues) (link : Link) : Except RunError Bytes :=
  match values.lookup link.operand with
  | some bytes => .ok bytes
  | none => .error (.invalidValue (.missing link.operand s.index))

/-- The bytes that an output of a step takes. -/
def outputLength (s : Step) (link : Link) : Except RunError Nat :=
  match s.model.operands[link.place]?.bind (·.byteLength) with
  | some length => .ok length
  | none => .error (.invalidValue (.unsized link.operand))

/-- The request that runs a step on known values. -/
def request (s : Step) (values : KnownValues) : Except RunError Request := do
  let inputs ← s.inputs.mapM (s.readValue values)
  let lengths ← s.outputs.mapM s.outputLength
  return .ofBuffers inputs lengths

/-- The value that a step has computed for its output at a position (`read_output`). -/
def outputValue (s : Step) (r : Request) (entry : Link × Nat) : Except RunError (Nat × Bytes) :=
  match r.output entry.2 with
  | some bytes => .ok (entry.1.operand, bytes)
  | none => .error (.invalidValue (.unreadable s.index entry.1.operand))

/-- Runs a step: the values afterwards, and how long it took. -/
def run (s : Step) (model : PreparedModel) (measure : Bool) (values : KnownValues) :
    Except RunError (KnownValues × Timing) := do
  let request ← s.request values
  let (request, report) := model.executeSynchronously request measure
  let report ← report.mapError .fault
  if !report.status.isOk then throw (.execute s.index s.device.name report.status)
  let computed ← s.outputs.zipIdx.mapM (s.outputValue request)
  return (computed.reverse ++ values, report.timing)

end Step

namespace Plan

/-- Prepares every step of a finished plan (`PlanExecutor.prepare`). -/
def prepare (p : Plan) (preference : Preference) : Except RunError PreparedPlan :=
  if p.finished then do
    let models ← p.steps.mapM (·.prepare preference)
    return ⟨p, models⟩
  else .error (.invalidValue .unfinishedPlan)

end Plan

namespace PreparedPlan

/-- Runs steps one after the other: the values afterwards, and how long each step took. -/
def runSteps (measure : Bool) : List (Step × PreparedModel) → KnownValues →
    Except RunError (KnownValues × List Timing)
  | [], values => return (values, [])
  | (s, model) :: rest, values => do
    let (values, timing) ← s.run model measure values
    let (values, timings) ← runSteps measure rest values
    return (values, timing :: timings)

/-- The value of an output of the whole model. -/
def outputValue (values : KnownValues) (o : Nat) : Except RunError Bytes :=
  match values.lookup o with
  | some bytes => .ok bytes
  | none => .error (.invalidValue (.outputNeverWritten o))

/-- Runs the plan on values for its inputs: the values of its outputs, and how long each step took
(`execute_timed`). -/
def executeTimed (p : PreparedPlan) (inputs : List Bytes) (measure : Bool) :
    Except RunError (List Bytes × List Timing) := do
  let expected := p.plan.modelInputs.length
  if inputs.length ≠ expected then throw (.invalidValue (.inputCount expected inputs.length))
  let known := (p.plan.modelInputs.zip inputs).reverse
  let (values, timings) ← runSteps measure (p.plan.steps.zip p.models) known
  return (← p.plan.modelOutputs.mapM (outputValue values), timings)

/-- Runs the plan on values for its inputs: the values of its outputs (`PlanExecutor.execute`). -/
def execute (p : PreparedPlan) (inputs : List Bytes) (measure : Bool) :
    Except RunError (List Bytes) := do
  return (← p.executeTimed inputs measure).1

end PreparedPlan

end NeuralDispatch
