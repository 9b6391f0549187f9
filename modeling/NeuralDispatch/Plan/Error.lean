import NeuralDispatch.Driver.Basic

/-!
# Refused plans and failed executions

Why a model cannot be planned, why a plan does not hold together, and why a plan does not run.
-/

namespace NeuralDispatch

/-- How the steps of a plan fail to make up the model (`InvalidPlan`). -/
inductive PlanFlaw where
  | alreadyFinished
  | unknownOperation (step operation : Nat)
  | covered (operation count : Nat)
  /-- No step computes what a step reads. -/
  | unproduced (operand step : Nat)
  | producedLater (step operand producer : Nat)
  /-- The step that computes an operand has never been told of it. -/
  | unmapped (operand step : Nat)
  deriving DecidableEq, Repr

def PlanFlaw.text : PlanFlaw → String
  | alreadyFinished => "Plan is already finished"
  | unknownOperation s i => s!"Step {s} holds unknown operation {i}"
  | covered i count => s!"Operation {i} is covered {count} times"
  | unproduced o s => s!"Operand {o} read by step {s} has no producing step"
  | producedLater s o p => s!"Step {s} reads operand {o} produced by later step {p}"
  | unmapped o s => s!"Operand {o} is not mapped in step {s}"

/-- The calls that a finished step takes no more. -/
inductive StepCall where
  | addOperand
  | addOperation
  | finish
  deriving DecidableEq, Repr

def StepCall.text : StepCall → String
  | addOperand => "add_operand"
  | addOperation => "add_operation"
  | finish => "finish"

/-- A call that a correct planner never makes. -/
inductive Misuse where
  | unmappedOperand (operand operation step : Nat)
  | frozenStep (call : StepCall) (step : Nat) (device : String)
  | finishedPlan
  deriving DecidableEq, Repr

def Misuse.message : Misuse → String
  | unmappedOperand o i s => s!"Operand {o} of operation {i} is not mapped in step {s}"
  | frozenStep call s device => call.text ++ s!" called on frozen step {s} (" ++ device ++ ")"
  | finishedPlan => "add_step called on a finished plan"

/-- Why there is no plan. -/
inductive PlanError where
  | noDevice (operation : Nat) (signature : Signature)
  | invalidModel (e : ModelError)
  | invalidPlan (flaw : PlanFlaw)
  | misuse (m : Misuse)
  | fault (f : Fault)
  deriving DecidableEq, Repr

namespace PlanError

def message : PlanError → String
  | noDevice i s => s!"No device supports operation {i} " ++ s.text
  | invalidModel e => e.message
  | invalidPlan flaw => "Invalid plan: " ++ flaw.text
  | misuse m => m.message
  | fault f => f.message

/-- The answer to a question about a model, as an answer to one about a plan. -/
def ofModel {α : Type} (x : Except ModelError α) : Except PlanError α := x.mapError invalidModel

end PlanError

/-- What is wrong with the values that go into a plan or come out of it (`InvalidInputOutput`). -/
inductive ValueError where
  | unfinishedPlan
  | inputCount (expected actual : Nat)
  | missing (operand step : Nat)
  /-- An output whose extents are not all known. -/
  | unsized (operand : Nat)
  | unreadable (step operand : Nat)
  | outputNeverWritten (operand : Nat)
  deriving DecidableEq, Repr

def ValueError.text : ValueError → String
  | unfinishedPlan => "Plan must be finished before it is prepared"
  | inputCount expected actual => s!"Expected {expected} inputs, got {actual}"
  | missing o s => s!"No value for operand {o} read by step {s}"
  | unsized o => s!"Operand {o} has no fully specified size"
  | unreadable s o => s!"Step {s} did not return a readable value for operand {o}"
  | outputNeverWritten o => s!"Model output {o} was never written"

/-- Why a plan does not run (`ExecutionError`). -/
inductive RunError where
  | prepare (step : Nat) (device : String) (status : Status)
  | execute (step : Nat) (device : String) (status : Status)
  | invalidValue (e : ValueError)
  | fault (f : Fault)
  deriving DecidableEq, Repr

def RunError.message : RunError → String
  | prepare s device status =>
    s!"Step {s} failed to prepare on '" ++ device ++ "': " ++ status.text
  | execute s device status =>
    s!"Step {s} failed to execute on '" ++ device ++ "': " ++ status.text
  | invalidValue e => "Invalid input or output: " ++ e.text
  | fault f => f.message

end NeuralDispatch
