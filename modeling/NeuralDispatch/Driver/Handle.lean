import NeuralDispatch.Driver.Basic
import NeuralDispatch.Model.Validation

/-!
# Driver handles

A handle binds a driver to the newest revision that it offers and answers every question on that
basis: what an old driver cannot tell has a fixed answer, a model that its revision cannot express
is refused without asking it, and a preparation that fails always ends with a notified callback.
-/

namespace NeuralDispatch

/-- A driver bound to the newest revision it offers, or no driver at all (`VersionedDevice`). -/
inductive DriverHandle where
  | invalid
  | v1_0 (base : Driver.V1_0)
  | v1_1 (base : Driver.V1_0) (driver : Driver.V1_1)
  | v1_2 (base : Driver.V1_0) (driver : Driver.V1_2)

namespace DriverHandle

def ofDriver (d : Driver) : DriverHandle :=
  match d.v1_2?, d.v1_1? with
  | some driver, _ => .v1_2 d.base driver
  | none, some driver => .v1_1 d.base driver
  | none, none => .v1_0 d.base

def revision? : DriverHandle → Option Revision
  | invalid => none
  | v1_0 _ => some .v1_0
  | v1_1 _ _ => some .v1_1
  | v1_2 _ _ => some .v1_2

def isValid (h : DriverHandle) : Bool := h.revision?.isSome

/-- The feature level of the revision, -1 without a driver. -/
def featureLevel (h : DriverHandle) : Int :=
  match h.revision? with
  | some r => r.featureLevel
  | none => -1

/-! ## Queries -/

def capabilities : DriverHandle → Except Fault (Status × Capabilities)
  | invalid => .ok (.deviceUnavailable, {})
  | v1_0 base => do
    let (status, capabilities) ← base.capabilities.await
    return (status, capabilities.toLatest)
  | v1_1 _ driver => do
    let (status, capabilities) ← driver.capabilities.await
    return (status, capabilities.toLatest)
  | v1_2 _ driver => driver.capabilities.await

def extensions : DriverHandle → Except Fault (Status × List Extension)
  | invalid => .ok (.deviceUnavailable, [])
  | v1_0 _ | v1_1 _ _ => .ok (.success, [])
  | v1_2 _ driver => driver.extensions.await

def versionString : DriverHandle → Except Fault (Status × String)
  | invalid => .ok (.deviceUnavailable, "")
  | v1_0 _ | v1_1 _ _ => .ok (.success, "UNKNOWN")
  | v1_2 _ driver => driver.versionString.await

def isCachingSupported : DriverHandle → Except Fault (Status × Bool)
  | invalid => .ok (.deviceUnavailable, false)
  | v1_0 _ | v1_1 _ _ => .ok (.success, false)
  | v1_2 _ driver => driver.isCachingSupported.await

/-- The code of the kind of device, -1 where it cannot be told (`get_type`). -/
def kindCode : DriverHandle → Except Fault Int
  | invalid => .ok (-1)
  | v1_0 _ | v1_1 _ _ => .ok DeviceKind.unknown.code
  | v1_2 _ driver => do
    let (status, kind) ← driver.kind.await
    return if status.isOk then kind.code else -1

def status : DriverHandle → DeviceStatus
  | invalid => .unknown
  | v1_0 base | v1_1 base _ | v1_2 base _ => base.status

/-- Asks the driver which operations of a model it runs. -/
def askSupported (m : Model) : DriverHandle → Except Fault (Status × List Bool)
  | invalid => .ok (.deviceUnavailable, [])
  | v1_0 base => (base.supportedOperations m).await
  | v1_1 _ driver => (driver.supportedOperations m).await
  | v1_2 _ driver => (driver.supportedOperations m).await

/-- Which operations of a model the driver runs (`get_supported_operations`).  A model that the
revision cannot express, and an answer with the wrong number of flags, is a general failure. -/
def supportedOperations (h : DriverHandle) (m : Model) : Except Fault (Status × List Bool) :=
  match h.revision? with
  | none => .ok (.deviceUnavailable, [])
  | some r =>
    if !m.isCompliantWith r then .ok (.generalFailure, [])
    else do
      let (status, flags) ← h.askSupported m
      return if status.isOk && flags.length != m.operations.length then (.generalFailure, [])
        else (status, flags)

/-! ## Preparation -/

/-- Ends a preparation that is refused without asking the driver (`fail_preparation`). -/
def refuse (callback : PrepareCallback PreparedModel) (status : Status) :
    Status × PrepareCallback PreparedModel :=
  (status, (callback.report ⟨status, none⟩).1)

/-- Makes sure that a failed launch is reported, if the driver did not do so (`settle_launch`). -/
def settle (callback : PrepareCallback PreparedModel) (status : Status) :
    Status × PrepareCallback PreparedModel :=
  if !status.isOk && !callback.isNotified then refuse callback status else (status, callback)

/-- Lets a launched preparation run its course. -/
def follow (callback : PrepareCallback PreparedModel) (launch : PrepareLaunch PreparedModel) :
    Status × PrepareCallback PreparedModel :=
  settle (callback.reportAll launch.notifications) launch.status

/-- Hands a model to the driver. -/
def launchPrepare (m : Model) (preference : Preference) :
    DriverHandle → PrepareLaunch PreparedModel
  | invalid => ⟨.deviceUnavailable, []⟩
  | v1_0 base => base.prepare m
  | v1_1 _ driver => driver.prepare m preference
  | v1_2 _ driver => driver.prepare m preference

/-- Prepares a model: the status that the call returns, and the callback afterwards
(`prepare_model`). -/
def prepare (h : DriverHandle) (m : Model) (preference : Preference)
    (callback : PrepareCallback PreparedModel) : Status × PrepareCallback PreparedModel :=
  match h.revision? with
  | none => refuse callback .deviceUnavailable
  | some r =>
    if m.isCompliantWith r then follow callback (h.launchPrepare m preference)
    else refuse callback .generalFailure

/-- Prepares the model that is kept in two cache files, which needs revision 1.2
(`prepare_model_from_cache`). -/
def restore (h : DriverHandle) (store : FileStore) (model data : FileHandle) (token : Cache.Token)
    (callback : PrepareCallback PreparedModel) : Status × PrepareCallback PreparedModel :=
  match h with
  | .v1_2 _ driver => follow callback (driver.restore store model data token)
  | _ => refuse callback .generalFailure

end DriverHandle

end NeuralDispatch
