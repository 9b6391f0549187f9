import NeuralDispatch.Driver.Basic

/-!
# Running prepared models

Executions of a prepared model through the newest revision that it offers.  The caller of
`executeSynchronously` gets a report that has been cleaned: shapes only where outputs were computed,
durations only where they were asked for.
-/

namespace NeuralDispatch.PreparedModel

/-- The revision that the model is used through: only the oldest and the newest differ. -/
def revision (p : PreparedModel) : Revision := if p.v1_2?.isSome then .v1_2 else .v1_0

/-- Hands a request to the prepared model. -/
def launch (p : PreparedModel) (r : Request) (measure : Bool) : ExecutionLaunch :=
  match p.v1_2? with
  | some v1_2 => v1_2.execute r measure
  | none => p.execute r

/-- Launches an execution and lets it run its course: the request with its memory afterwards, the
status that the call returns, and the callback (`VersionedPreparedModel.execute`).  A failed launch
is reported, if the driver did not do so. -/
def executeAsync (p : PreparedModel) (r : Request) (measure : Bool) (callback : ExecuteCallback) :
    Request × Status × ExecuteCallback :=
  let launch := p.launch r measure
  let callback := callback.notifyAll launch.notifications
  let callback :=
    if !launch.status.isOk && !callback.isNotified then
      (callback.notify { status := launch.status }).1
    else callback
  ({ r with pools := launch.pools }, launch.status, callback)

/-- The report of a synchronous execution through revision 1.2. -/
def V1_2.report (p : V1_2) (r : Request) (measure : Bool) : Request × Except Fault Execution :=
  let (pools, reply) := p.executeSynchronously r measure
  ({ r with pools }, reply.await.map fun (status, shapes, timing) => ⟨status, shapes, timing⟩)

/-- The report of a launched execution that the caller waits for. -/
def awaitLaunch (launch : ExecutionLaunch) : Except Fault Execution :=
  if launch.status.isOk then
    match (Callback.new.notifyAll launch.notifications).result? with
    | some report => .ok report
    | none => .error .neverCompleted
  else .ok { status := launch.status }

/-- Runs an execution to its end: the request with its memory afterwards, and the report
(`VersionedPreparedModel.execute_synchronously`).  Before revision 1.2 this is a launch and a
wait. -/
def executeSynchronously (p : PreparedModel) (r : Request) (measure : Bool) :
    Request × Except Fault Execution :=
  let (r, report) :=
    match p.v1_2? with
    | some v1_2 => v1_2.report r measure
    | none =>
      let launch := p.execute r
      ({ r with pools := launch.pools }, awaitLaunch launch)
  (r, report.map (·.sanitize measure))

/-- Saves the model to two cache files, which needs revision 1.2 (`save_to_cache`). -/
def saveToCache (p : PreparedModel) (store : FileStore) (model data : FileHandle)
    (token : Cache.Token) : FileStore × Status :=
  match p.v1_2? with
  | some v1_2 => v1_2.save store model data token
  | none => (store, .generalFailure)

end NeuralDispatch.PreparedModel
