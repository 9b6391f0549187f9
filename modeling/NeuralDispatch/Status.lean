/-!
# Status codes and modes of work

What a driver reports of a call, of itself, and what a caller asks of an execution.
-/

namespace NeuralDispatch

/-- How a driver call ended (`ErrorStatus`). -/
inductive Status where
  | success
  | deviceUnavailable
  | generalFailure
  | outputInsufficientSize
  | invalidArgument
  deriving DecidableEq, Inhabited, Repr

namespace Status

def all : List Status :=
  [success, deviceUnavailable, generalFailure, outputInsufficientSize, invalidArgument]

/-- Whether the call succeeded. -/
def isOk (s : Status) : Bool := s == .success

def text : Status → String
  | success => "NONE"
  | deviceUnavailable => "DEVICE_UNAVAILABLE"
  | generalFailure => "GENERAL_FAILURE"
  | outputInsufficientSize => "OUTPUT_INSUFFICIENT_SIZE"
  | invalidArgument => "INVALID_ARGUMENT"

@[simp] theorem isOk_iff {s : Status} : s.isOk = true ↔ s = .success := by
  cases s <;> simp [isOk]

end Status

/-- Whether a device takes work at present. -/
inductive DeviceStatus where
  | available
  | busy
  | offline
  | unknown
  deriving DecidableEq, Inhabited, Repr

namespace DeviceStatus

def all : List DeviceStatus := [available, busy, offline, unknown]

def text : DeviceStatus → String
  | available => "Available"
  | busy => "Busy"
  | offline => "Offline"
  | unknown => "Unknown"

end DeviceStatus

/-- The kind of hardware behind a driver (`DeviceType`). -/
inductive DeviceKind where
  | unknown
  | other
  | cpu
  | gpu
  | accelerator
  deriving DecidableEq, Inhabited, Repr

namespace DeviceKind

def all : List DeviceKind := [unknown, other, cpu, gpu, accelerator]

/-- The number a kind is known by across the driver boundary. -/
def code : DeviceKind → Int
  | unknown => 0
  | other => 1
  | cpu => 2
  | gpu => 3
  | accelerator => 4

def name : DeviceKind → String
  | unknown => "Unknown"
  | other => "Other"
  | cpu => "Cpu"
  | gpu => "Gpu"
  | accelerator => "Accelerator"

end DeviceKind

/-- What a caller wants most of an execution (`ExecutionPreference`). -/
inductive Preference where
  | lowPower
  | fastSingleAnswer
  | sustainedSpeed
  deriving DecidableEq, Inhabited, Repr

namespace Preference

def all : List Preference := [lowPower, fastSingleAnswer, sustainedSpeed]

def name : Preference → String
  | lowPower => "LowPower"
  | fastSingleAnswer => "FastSingleAnswer"
  | sustainedSpeed => "SustainedSpeed"

end Preference

end NeuralDispatch
