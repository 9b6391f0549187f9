import NeuralDispatch.Device.Basic
import NeuralDispatch.Plan.Error

/-!
# Assignment

Every operation is assigned to the device that supports it and has the best figure for it.  A
device tells by its declared signatures what it supports, or is asked about the whole model.
-/

namespace NeuralDispatch.Assignment

/-- Which operations of a model a device supports (`supported_operations`). -/
def support (m : Model) (d : Device) : Except PlanError (List Bool) :=
  if d.hasSignatures then
    (List.range m.operations.length).mapM fun i => do
      return d.supportsSignature (← PlanError.ofModel (m.signature i))
  else (d.supportedOperations m).mapError .fault

/-- The better of two candidates, which is the earlier one unless the other is strictly smaller. -/
def better (best : Option (Nat × Single)) (candidate : Nat × Single) : Option (Nat × Single) :=
  match best with
  | none => some candidate
  | some b => if candidate.2.lt b.2 then some candidate else some b

/-- The devices that support an operation, with their figures for it. -/
def candidates (devices : List Device) (support : List (List Bool)) (i : Nat) (s : Signature)
    (relaxed : Bool) (preference : Preference) : List (Nat × Single) :=
  (devices.zip support).zipIdx.filterMap fun ((d, flags), position) =>
    if flags.getD i false then some (position, d.performance s relaxed preference) else none

/-- The position of the device that an operation is assigned to. -/
def assign (m : Model) (devices : List Device) (support : List (List Bool))
    (preference : Preference) (i : Nat) : Except PlanError Nat := do
  let s ← PlanError.ofModel (m.signature i)
  let relaxed := m.relaxed && s.operand.isFloat32
  match (candidates devices support i s relaxed preference).foldl better none with
  | some (position, _) => return position
  | none => throw (.noDevice i s)

/-- The positions of the devices that the operations are assigned to, in order
(`assign_devices`). -/
def ofModel (m : Model) (devices : List Device) (preference : Preference) :
    Except PlanError (List Nat) := do
  let support ← devices.mapM (support m)
  (List.range m.operations.length).mapM (assign m devices support preference)

end NeuralDispatch.Assignment
