import NeuralDispatch.Device.Coverage
import NeuralDispatch.Device.Properties
import NeuralDispatch.Driver.Handle

/-!
# Devices

A device is a driver under a name, together with what the driver has declared of itself and the
coverage mode that narrows it.
-/

namespace NeuralDispatch

/-- A named driver and what is known of it. -/
structure Device where
  name : String
  handle : DriverHandle
  coverage : CoverageMode
  capabilities : Capabilities := {}
  /-- The declared signatures that the coverage mode keeps, in order. -/
  signatures : List Signature := []
  activated : Bool := false

namespace Device

/-- A device whose driver has not been asked yet. -/
def new (name : String) (driver : Driver) (coverage : CoverageMode) : Device where
  name
  handle := .ofDriver driver
  coverage

def nameHash (d : Device) : UInt32 := Coverage.nameHash d.name

/-- The device with the declarations that its driver has made. -/
def declare (d : Device) (capabilities : Capabilities) : Device :=
  { d with
    capabilities
    signatures :=
      Signature.toSet (capabilities.signatures.filter (d.coverage.keepsSignature d.nameHash)) }

/-- Asks the driver for its declarations, once (`initialize`).  If it does not answer with success
the device keeps the figures of a driver that has not told; if it dies, the device still counts as
activated. -/
def activate (d : Device) : Device × Except Fault Unit :=
  if d.activated then (d, .ok ())
  else
    let d := { d with activated := true }
    match d.handle.capabilities with
    | .error fault => (d, .error fault)
    | .ok (status, capabilities) => (if status.isOk then d.declare capabilities else d, .ok ())

/-- An activated device, with the coverage mode that is set for its name. -/
def create (name : String) (driver : Driver) (properties : Properties) : Except Fault Device :=
  let mode := CoverageMode.ofValue (properties.coverageValue name)
  match (new name driver mode).activate with
  | (d, .ok ()) => .ok d
  | (_, .error fault) => .error fault

/-- Whether the device tells by declared signatures what it supports
(`has_supported_operation_tuples`). -/
def hasSignatures (d : Device) : Bool :=
  d.coverage.usesDeclared && !d.capabilities.signatures.isEmpty

def supportsSignature (d : Device) (s : Signature) : Bool := d.signatures.contains s

/-- Which operations of a model the device runs, by asking its driver (`get_supported_operations`).
A failed query means none; the mode that goes by occurrence takes some of the others away. -/
def supportedOperations (d : Device) (m : Model) : Except Fault (List Bool) := do
  let (status, flags) ← d.handle.supportedOperations m
  if !status.isOk then return List.replicate m.operations.length false
  if d.coverage = .occurrenceParity then
    return flags.zipIdx.map fun (flag, i) => flag && Coverage.keepsOccurrence d.nameHash m i
  return flags

/-- The figure of the device that counts for operations of a signature (`performance_for`). -/
def performance (d : Device) (s : Signature) (relaxed : Bool) (preference : Preference) : Single :=
  let performance :=
    if s.operand.isQuantized then d.capabilities.quantized8
    else if relaxed then d.capabilities.relaxed
    else d.capabilities.float32
  performance.figure preference

end Device

end NeuralDispatch
