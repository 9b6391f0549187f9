import NeuralDispatch.Plan.Assignment
import NeuralDispatch.Plan.Basic
import NeuralDispatch.Plan.Schedule

/-!
# Partitioning

A model is split over devices in three stages: every operation is assigned to a device, the
operations are scheduled in groups, and each group becomes a step of the plan.
-/

namespace NeuralDispatch

namespace Step

/-- Adds operands in one role. -/
def addOperands (whole : Model) (role : Role) : List Nat → Step → Except PlanError Step
  | [], s => .ok s
  | o :: rest, s => do
    let (s, _) ← s.addOperand whole o role
    addOperands whole role rest s

/-- Adds an operation with its operands. -/
def addWithOperands (whole : Model) (s : Step) (i : Nat) : Except PlanError Step := do
  let op ← PlanError.ofModel (whole.operation i)
  let s ← addOperands whole .input op.inputs s
  let s ← addOperands whole .output op.outputs s
  s.addOperation whole i

/-- The step that runs a group of operations on a device. -/
def ofOperations (whole : Model) (device : Device) (operations : List Nat) :
    Except PlanError Step :=
  operations.foldlM (addWithOperands whole) { device }

end Step

namespace Plan

/-- The steps for a list of groups. -/
def stepsOf (m : Model) (devices : List Device) (groups : List Group) :
    Except PlanError (List Step) :=
  groups.filterMapM fun g =>
    match devices[g.device]? with
    | some device => return some (← Step.ofOperations m device g.operations)
    | none => return none

/-- The plan that runs a model on the devices best suited for its operations
(`ExecutionPlan.partition`). -/
def partition (m : Model) (devices : List Device) (preference : Preference) :
    Except PlanError Plan := do
  PlanError.ofModel m.validate
  let assignment ← Assignment.ofModel m devices preference
  let steps ← stepsOf m devices (schedule m assignment devices.length)
  let plan ← steps.foldlM addStep {}
  let (plan, answer) := plan.finish m
  answer
  return plan

end Plan

end NeuralDispatch
