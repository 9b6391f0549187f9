import NeuralDispatch.Cache.File
import NeuralDispatch.Cache.Frame
import NeuralDispatch.Callback
import NeuralDispatch.Capabilities
import NeuralDispatch.Model.Basic
import NeuralDispatch.Request

/-!
# The driver interface

A driver is known by what it does when it is called.  Every driver has the calls of the oldest
revision and may offer those of newer ones.

Queries are answered through a reply, which a driver may also drop, or it may die over the call.
Preparations and executions are launched: the call returns a status, and the driver notifies the
callback it was given as often as it likes.
-/

namespace NeuralDispatch

/-- What becomes of a query. -/
inductive Reply (α : Type) where
  | answered (status : Status) (value : α)
  /-- The driver lets go of the reply without answering. -/
  | dropped
  /-- The driver crashes while it handles the call. -/
  | died (message : String)

/-- Why a caller gets no result at all. -/
inductive Fault where
  /-- The driver crashed in the caller's thread. -/
  | driverDied (message : String)
  /-- The driver accepted the work and never reported its end, so that the caller waits for ever. -/
  | neverCompleted
  deriving DecidableEq, Repr

namespace Fault

def message : Fault → String
  | driverDied message => message
  | neverCompleted => "the driver never completed its work"

end Fault

/-- The answer to a query (`wait_for_reply`).  A dropped reply counts as a general failure. -/
def Reply.await {α : Type} [Inhabited α] : Reply α → Except Fault (Status × α)
  | .answered status value => .ok (status, value)
  | .dropped => .ok (.generalFailure, default)
  | .died message => .error (.driverDied message)

/-- What a driver does with an execution that is launched. -/
structure ExecutionLaunch where
  /-- The status that the call returns. -/
  status : Status
  /-- What the driver reports, in order. -/
  notifications : List Execution
  /-- The memory pools when the execution has ended. -/
  pools : List Bytes

/-- The calls that prepared models have from revision 1.2 on (`PreparedModelV1_2`). -/
structure PreparedModel.V1_2 where
  execute : Request → (measure : Bool) → ExecutionLaunch
  /-- Runs to the end in the caller's thread: the memory pools afterwards, and the reply. -/
  executeSynchronously : Request → (measure : Bool) → List Bytes × Reply (List OutputShape × Timing)
  /-- Writes the model to a model cache and a data cache. -/
  save : FileStore → (model data : FileHandle) → Cache.Token → FileStore × Status

/-- A model as its driver has prepared it (`PreparedModelV1_0`, `VersionedPreparedModel`). -/
structure PreparedModel where
  execute : Request → ExecutionLaunch
  v1_2? : Option PreparedModel.V1_2 := none

/-- What a driver does with a preparation that is launched. -/
structure PrepareLaunch (μ : Type) where
  /-- The status that the call returns. -/
  status : Status
  /-- What the driver reports, in order. -/
  notifications : List (Preparation μ)

/-- The same launch with another view of the prepared models. -/
def PrepareLaunch.map {μ ν : Type} (f : μ → ν) (launch : PrepareLaunch μ) : PrepareLaunch ν where
  status := launch.status
  notifications := launch.notifications.map fun p => ⟨p.status, p.model?.map f⟩

/-- The piece of an extension that describes one operand type. -/
structure ExtensionOperandType where
  code : UInt16
  isTensor : Bool
  byteSize : UInt32
  deriving DecidableEq, Inhabited, Repr

/-- A set of operand types that a vendor adds. -/
structure Extension where
  name : String
  operandTypes : List ExtensionOperandType
  deriving DecidableEq, Inhabited, Repr

namespace Driver

/-- The calls of revision 1.0 (`DeviceV1_0`). -/
structure V1_0 where
  capabilities : Reply Capabilities.V1_0
  supportedOperations : Model → Reply (List Bool)
  prepare : Model → PrepareLaunch PreparedModel
  status : DeviceStatus

/-- The calls that revision 1.1 adds (`DeviceV1_1`). -/
structure V1_1 where
  capabilities : Reply Capabilities.V1_1
  supportedOperations : Model → Reply (List Bool)
  prepare : Model → Preference → PrepareLaunch PreparedModel

/-- The calls that revision 1.2 adds (`DeviceV1_2`). -/
structure V1_2 where
  capabilities : Reply Capabilities
  supportedOperations : Model → Reply (List Bool)
  prepare : Model → Preference → PrepareLaunch PreparedModel
  versionString : Reply String
  kind : Reply DeviceKind
  extensions : Reply (List Extension)
  isCachingSupported : Reply Bool
  /-- Prepares the model that is kept in a model cache and a data cache. -/
  restore : FileStore → (model data : FileHandle) → Cache.Token → PrepareLaunch PreparedModel

end Driver

/-- A driver: the calls of the oldest revision, and those of the newer ones it offers. -/
structure Driver where
  base : Driver.V1_0
  v1_1? : Option Driver.V1_1 := none
  v1_2? : Option Driver.V1_2 := none

/-- The name under which drivers are published (`DEVICE_DESCRIPTOR`). -/
def Driver.descriptor : String := "tessera.hal.IDevice"

end NeuralDispatch
