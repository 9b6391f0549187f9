import NeuralDispatch.Plan.Step

/-!
# Plans

A plan is a sequence of steps that together run a model.  Finishing a plan checks that the steps
cover every operation exactly once and that whatever a step reads is computed by an earlier one,
tells each step what others read of it, and freezes the steps one after the other.

A plan that does not hold together is refused.  The checks on the whole come first and change
nothing; a fault in the model of a step is found when that step is finished, with the steps before
it frozen already.
-/

namespace NeuralDispatch

/-- A sequence of steps that together run a model (`ExecutionPlan`). -/
structure Plan where
  steps : List Step := []
  /-- Which step computes something that which other step reads, once for each such operand. -/
  dependencies : List (Nat × Nat) := []
  modelInputs : List Nat := []
  modelOutputs : List Nat := []
  finished : Bool := false

namespace Plan

/-- Appends a step (`add_step`). -/
def addStep (p : Plan) (s : Step) : Except PlanError Plan :=
  if p.finished then .error (.misuse .finishedPlan)
  else .ok { p with steps := p.steps ++ [{ s with index := p.steps.length }] }

/-- The steps that compute something which a step reads, in ascending order (`dependencies_of`). -/
def dependenciesOf (p : Plan) (step : Nat) : List Nat :=
  Sorted.ofList (fun a b => decide (a ≤ b)) ((p.dependencies.filter (·.2 == step)).map (·.1))

/-! ## Finishing -/

/-- Checks that the steps hold operations of the model only, and each of those once. -/
def checkCoverage (steps : List Step) (whole : Model) : Except PlanError Unit := do
  steps.forM fun s => s.operations.forM fun i =>
    if i < whole.operations.length then pure ()
    else throw (.invalidPlan (.unknownOperation s.index i))
  let held := steps.flatMap (·.operations)
  (List.range whole.operations.length).forM fun i =>
    if held.count i = 1 then pure () else throw (.invalidPlan (.covered i (held.count i)))

/-- The operands that a step computes. -/
def computed (whole : Model) (s : Step) : List Nat :=
  s.operations.flatMap fun i => (whole.operations[i]?.map (·.outputs)).getD []

/-- The operands that each step computes. -/
def computedBySteps (steps : List Step) (whole : Model) : List (Nat × List Nat) :=
  steps.map fun s => (s.index, computed whole s)

/-- The last step that computes an operand (`producer_step`). -/
def producingStep? (computed : List (Nat × List Nat)) (o : Nat) : Option Nat :=
  (computed.filter fun entry => entry.2.contains o).getLast?.map (·.1)

/-- What is known of the data that passes between steps. -/
structure Flow where
  dependencies : List (Nat × Nat) := []
  /-- For each step what others read of it. -/
  crossOutputs : List (List Link)

/-- Takes into account that a step reads an operand which another one computes. -/
def Flow.add (steps : List Step) (whole : Model) (computed : List (Nat × List Nat)) (flow : Flow)
    (read : Nat × Nat) : Except PlanError Flow := do
  let (consumer, o) := read
  let some producer := producingStep? computed o
    | throw (.invalidPlan (.unproduced o consumer))
  if consumer ≤ producer then throw (.invalidPlan (.producedLater consumer o producer))
  let flow := { flow with dependencies := flow.dependencies ++ [(producer, consumer)] }
  let operand ← PlanError.ofModel (whole.operand o)
  let outputs := flow.crossOutputs.getD producer []
  if operand.lifetime ≠ .temporary || outputs.any (·.operand == o) then return flow
  let some place := steps[producer]?.bind (·.place? o)
    | throw (.invalidPlan (.unmapped o producer))
  return { flow with crossOutputs := flow.crossOutputs.set producer (outputs ++ [⟨o, place⟩]) }

/-- The data that passes between the steps of a plan. -/
def flow (steps : List Step) (whole : Model) : Except PlanError Flow :=
  let reads := steps.flatMap fun s => s.crossInputs.map fun link => (s.index, link.operand)
  reads.foldlM (Flow.add steps whole (computedBySteps steps whole))
    { crossOutputs := steps.map fun _ => [] }

/-- Finishes steps one after the other, up to the first that is refused. -/
def finishSteps (relaxed : Bool) : List (Step × List Link) → List Step × Except PlanError Unit
  | [] => ([], .ok ())
  | (s, crossOutputs) :: rest =>
    match s.finish crossOutputs relaxed with
    | (s, .error e) => (s :: rest.map (·.1), .error e)
    | (s, .ok ()) =>
      let (steps, answer) := finishSteps relaxed rest
      (s :: steps, answer)

/-- The data that passes between the steps, if they make up the model. -/
def check (p : Plan) (whole : Model) : Except PlanError Flow := do
  if p.finished then throw (.invalidPlan .alreadyFinished)
  checkCoverage p.steps whole
  flow p.steps whole

/-- Completes the plan of a model (`ExecutionPlan.finish`). -/
def finish (p : Plan) (whole : Model) : Plan × Except PlanError Unit :=
  match p.check whole with
  | .error e => (p, .error e)
  | .ok flow =>
    match finishSteps whole.relaxed (p.steps.zip flow.crossOutputs) with
    | (steps, .error e) => ({ p with steps }, .error e)
    | (steps, .ok ()) =>
      ({ steps
         dependencies := flow.dependencies
         modelInputs := whole.inputs
         modelOutputs := whole.outputs
         finished := true }, .ok ())

end Plan

end NeuralDispatch
