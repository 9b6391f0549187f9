import NeuralDispatch.Driver.Prepared

/-!
# Bursts

A burst keeps a worker ready for many executions of one prepared model.  The controller puts jobs
into one queue and takes results from another; the worker serves the jobs in order.  A driver that
dies takes the worker with it, and from then on every call is a general failure.
-/

namespace NeuralDispatch

namespace Burst

/-- One execution to be done (`BurstJob`). -/
structure Job where
  request : Request
  measure : Bool
  deriving DecidableEq, Inhabited, Repr

/-- What has become of a job: its memory, and the report unless the worker died over it
(`BurstResult`). -/
structure Result where
  request : Request
  report? : Option Execution
  deriving DecidableEq, Repr

end Burst

/-- The queues between a controller and its worker (`ExecutionBurstController`). -/
structure Burst where
  model : PreparedModel.V1_2
  /-- Whether the controller sleeps while it waits or keeps asking. -/
  blocking : Bool
  workerAlive : Bool := true
  jobs : List Burst.Job := []
  results : List Burst.Result := []

namespace Burst

/-- Opens a burst, which needs revision 1.2 (`configure_execution_burst`).  Its worker is taken to
start. -/
def configure (p : PreparedModel) (blocking : Bool) : Option Burst :=
  p.v1_2?.map fun model => { model, blocking }

/-- Puts a job into the queue, unless there is no one left to serve it. -/
def submit (b : Burst) (job : Job) : Option Burst :=
  if b.workerAlive then some { b with jobs := b.jobs ++ [job] } else none

/-- The worker serves the next job. -/
def work (b : Burst) : Burst :=
  match b.workerAlive, b.jobs with
  | true, job :: jobs =>
    match b.model.report job.request job.measure with
    | (request, .ok report) => { b with jobs, results := b.results ++ [⟨request, some report⟩] }
    | (request, .error _) =>
      { b with jobs, results := b.results ++ [⟨request, none⟩], workerAlive := false }
  | _, _ => b

/-- Takes the next result from the queue, if there is one. -/
def collect (b : Burst) : Burst × Option Result :=
  match b.results with
  | [] => (b, none)
  | result :: results => ({ b with results }, some result)

/-- The report of a call that the worker cannot serve. -/
def failure : Execution := { status := .generalFailure }

/-- Has one execution done by the worker. -/
def compute (b : Burst) (r : Request) (measure : Bool) : Burst × Request × Execution :=
  match b.submit ⟨r, measure⟩ with
  | none => (b, r, failure)
  | some b =>
    match b.work.collect with
    | (b, some ⟨r, some report⟩) => (b, r, report.sanitize measure)
    | (b, some ⟨r, none⟩) => (b, r, failure)
    | (b, none) => (b, r, failure)

end Burst

end NeuralDispatch
