import NeuralDispatch.Driver.Basic

/-!
# Scripted drivers

A driver whose every answer is written down beforehand, sound or not.  Scripts stand in for
hardware when callers are tried out against drivers that fail, fall silent or die.
-/

namespace NeuralDispatch

/-- The same reply with another value in it. -/
def Reply.map {α β : Type} (f : α → β) : Reply α → Reply β
  | .answered status value => .answered status (f value)
  | .dropped => .dropped
  | .died message => .died message

namespace Scripted

/-- The script of a prepared model. -/
structure Model where
  revision : Revision
  /-- The status that a launch returns, and what is reported of the execution. -/
  launchStatus : Status := .success
  notifications : List Execution := []
  /-- Whether callers of the oldest revision get full reports all the same. -/
  rich : Bool := false
  synchronous : Reply (List OutputShape × Timing)
  saveStatus : Status := .success

/-- The prepared model that follows a script.  It leaves all memory as it is. -/
def Model.toPrepared (s : Model) : PreparedModel where
  execute r :=
    { status := s.launchStatus
      notifications :=
        if s.rich then s.notifications else s.notifications.map fun e => { status := e.status }
      pools := r.pools }
  v1_2? :=
    if s.revision = .v1_2 then
      some {
        execute := fun r _ => ⟨s.launchStatus, s.notifications, r.pools⟩
        executeSynchronously := fun r _ => (r.pools, s.synchronous)
        save := fun store _ _ _ => (store, s.saveStatus) }
    else none

/-- The script of a driver. -/
structure Driver where
  revision : Revision
  capabilities : Reply Capabilities
  /-- The flags for a model, or none for a driver that supports everything. -/
  supported : Reply (Option (List Bool))
  prepare : PrepareLaunch PreparedModel
  restore : PrepareLaunch PreparedModel
  versionString : Reply String
  kind : Reply DeviceKind
  extensions : Reply (List Extension)
  isCachingSupported : Reply Bool
  status : DeviceStatus

/-- The flags that a script gives for a model. -/
def Driver.flags (s : Driver) (m : NeuralDispatch.Model) : Reply (List Bool) :=
  s.supported.map (·.getD (List.replicate m.operations.length true))

/-- The driver that follows a script. -/
def Driver.toDriver (s : Driver) : NeuralDispatch.Driver where
  base := {
    capabilities := s.capabilities.map (·.toV1_0)
    supportedOperations := s.flags
    prepare := fun _ => s.prepare
    status := s.status }
  v1_1? :=
    if Revision.v1_1 ≤ s.revision then
      some {
        capabilities := s.capabilities.map (·.toV1_1)
        supportedOperations := s.flags
        prepare := fun _ _ => s.prepare }
    else none
  v1_2? :=
    if Revision.v1_2 ≤ s.revision then
      some {
        capabilities := s.capabilities
        supportedOperations := s.flags
        prepare := fun _ _ => s.prepare
        versionString := s.versionString
        kind := s.kind
        extensions := s.extensions
        isCachingSupported := s.isCachingSupported
        restore := fun _ _ _ _ => s.restore }
    else none

end Scripted

end NeuralDispatch
