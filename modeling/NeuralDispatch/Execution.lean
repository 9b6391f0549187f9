import NeuralDispatch.Status

/-!
# Results of an execution

A finished execution reports a status, the shapes of its outputs and how long it took.
-/

namespace NeuralDispatch

/-- The extents that an output turned out to have, and whether its memory could hold it. -/
structure OutputShape where
  dimensions : List UInt32
  isSufficient : Bool
  deriving DecidableEq, Inhabited, Repr

/-- Durations in microseconds. -/
structure Timing where
  onDevice : UInt64
  inDriver : UInt64
  deriving DecidableEq, Repr

namespace Timing

/-- The durations of an execution that was not measured: the greatest there are (`UNAVAILABLE`). -/
def unavailable : Timing := ⟨0xffffffffffffffff, 0xffffffffffffffff⟩

instance : Inhabited Timing := ⟨unavailable⟩

def isAvailable (t : Timing) : Bool := t != unavailable

end Timing

/-- What a finished execution reports. -/
structure Execution where
  status : Status
  shapes : List OutputShape := []
  timing : Timing := .unavailable
  deriving DecidableEq, Inhabited, Repr

namespace Execution

/-- The report as a caller gets to see it: shapes only where outputs were computed, durations only
where they were asked for and the execution succeeded (`sanitize_execution`). -/
def sanitize (e : Execution) (measure : Bool) : Execution where
  status := e.status
  shapes :=
    match e.status with
    | .success | .outputInsufficientSize => e.shapes
    | .deviceUnavailable | .generalFailure | .invalidArgument => []
  timing := if measure && e.status.isOk then e.timing else .unavailable

end Execution

end NeuralDispatch
