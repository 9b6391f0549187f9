import NeuralDispatch.Cache.Codec
import NeuralDispatch.Driver.Basic
import NeuralDispatch.Interpreter
import NeuralDispatch.Model.Validation

/-!
# The reference driver

A driver that interprets its models.  It is configured to declare whatever signatures and figures a
set-up calls for, to speak any revision, and to fail on purpose.  Preparation ends after the call
has returned, and so does an execution that is launched.
-/

namespace NeuralDispatch

/-- What a reference driver declares, and how it is to fail (`SampleConfig`). -/
structure ReferenceConfig where
  /-- The newest revision that the driver offers. -/
  revision : Revision := .v1_2
  kind : DeviceKind := .cpu
  versionString : String := "tessera-sample/0.1.0"
  float32 : Performance := ⟨⟨0x3f800000⟩, ⟨0x3f800000⟩⟩
  quantized8 : Performance := ⟨⟨0x3f800000⟩, ⟨0x3f800000⟩⟩
  relaxed : Performance := ⟨⟨0x3f800000⟩, ⟨0x3f800000⟩⟩
  signatures : List Signature := Interpreter.signatures
  extensions : List Extension := []
  caching : Bool := true
  status : DeviceStatus := .available
  /-- How queries that answer with declarations end. -/
  queryStatus : Status := .success
  /-- How preparations of sound models end. -/
  preparationStatus : Status := .success
  /-- How executions end; only with success are they computed at all. -/
  executionStatus : Status := .success
  deriving DecidableEq, Repr

/-- The same performance throughout. -/
def ReferenceConfig.withPerformance (c : ReferenceConfig) (p : Performance) : ReferenceConfig :=
  { c with float32 := p, quantized8 := p, relaxed := p }

def ReferenceConfig.capabilities (c : ReferenceConfig) : Capabilities where
  float32 := c.float32
  quantized8 := c.quantized8
  relaxed := c.relaxed
  caches := c.caching
  signatures := c.signatures

/-- A driver that interprets its models (`SampleDriver`). -/
structure ReferenceDriver where
  name : String
  config : ReferenceConfig
  /-- The secret under which the driver seals its caches. -/
  key : Cache.Key
  /-- How long an execution takes, in microseconds. -/
  duration : UInt64 := 0
  deriving DecidableEq

/-- A model as a reference driver prepares it (`SamplePreparedModel`). -/
structure ReferenceModel where
  driver : ReferenceDriver
  model : Model
  deriving DecidableEq

namespace ReferenceModel

/-- Whether a request has as many arguments as the model, all in pools that exist
(`check_request`). -/
def accepts (p : ReferenceModel) (r : Request) : Bool :=
  r.inputs.length == p.model.inputs.length && r.outputs.length == p.model.outputs.length &&
    (r.inputs ++ r.outputs).all fun a => decide (a.pool < r.pools.length)

/-- The execution of an accepted request (`compute`). -/
def compute (p : ReferenceModel) (r : Request) (measure : Bool) : Request × Execution :=
  if p.driver.config.executionStatus.isOk then
    let (r, report) := Interpreter.run p.model r
    let timing :=
      if measure && report.status.isOk then ⟨p.driver.duration, p.driver.duration⟩
      else Timing.unavailable
    (r, { report with timing })
  else (r, { status := p.driver.config.executionStatus })

/-- The execution of any request: one that is not accepted is an invalid argument. -/
def run (p : ReferenceModel) (r : Request) (measure : Bool) : Request × Execution :=
  if p.accepts r then p.compute r measure else (r, { status := .invalidArgument })

/-- Launches an execution, of which callers of the oldest revision learn the status only
(`SamplePreparedModel.launch`).  The thread that runs it is taken to start: one that does not start
would make the launch a general failure, which is reported. -/
def launch (p : ReferenceModel) (r : Request) (measure statusOnly : Bool) : ExecutionLaunch :=
  let (r', report) := p.run r measure
  { status := if p.accepts r then .success else .invalidArgument
    notifications := [if statusOnly then { status := report.status } else report]
    pools := r'.pools }

/-- Saves the model to two empty files (`save_to_cache`). -/
def save (p : ReferenceModel) (store : FileStore) (model data : FileHandle) (token : Cache.Token) :
    FileStore × Status :=
  if !p.driver.config.caching then (store, .generalFailure)
  else
    match store.file? model, store.file? data with
    | some modelFile, some dataFile =>
      if modelFile.isEmpty && dataFile.isEmpty then
        match store.write? model (Cache.encodeModel p.model token p.driver.key) with
        | none => (store, .generalFailure)
        | some store =>
          match store.write? data (Cache.encodeData p.model) with
          | none => (store, .generalFailure)
          | some store => (store, .success)
      else (store, .invalidArgument)
    | _, _ => (store, .generalFailure)

/-- The prepared model as callers see it. -/
def toPrepared (p : ReferenceModel) : PreparedModel where
  execute r := p.launch r false true
  v1_2? :=
    if Revision.v1_2 ≤ p.driver.config.revision then
      some {
        execute := fun r measure => p.launch r measure false
        executeSynchronously := fun r measure =>
          let (r, report) := p.run r measure
          (r.pools, .answered report.status (report.shapes, report.timing))
        save := p.save }
    else none

end ReferenceModel

namespace ReferenceDriver

/-- Whether the driver declares the signature of an operation. -/
def supports (d : ReferenceDriver) (m : Model) (i : Nat) : Bool :=
  match m.signature i with
  | .ok s => d.config.signatures.contains s
  | .error _ => false

/-- Which operations of a model the driver runs (`supported_operations`).  A model that is not well
formed is an invalid argument. -/
def supportedOperations (d : ReferenceDriver) (m : Model) : Reply (List Bool) :=
  match m.validate with
  | .error _ => .answered .invalidArgument []
  | .ok () => .answered .success ((List.range m.operations.length).map (d.supports m))

/-- Whether the driver can prepare a model: it is well formed and supported throughout
(`check_model`). -/
def accepts (d : ReferenceDriver) (m : Model) : Bool :=
  m.validate.isOk && (List.range m.operations.length).all (d.supports m)

/-- Launches the preparation of a model that has been accepted (`launch_preparation`).  Its thread
is taken to start, like that of an execution. -/
def launch (d : ReferenceDriver) (m : Model) : PrepareLaunch ReferenceModel where
  status := .success
  notifications :=
    if d.config.preparationStatus.isOk then [⟨.success, some ⟨d, m⟩⟩]
    else [⟨d.config.preparationStatus, none⟩]

/-- A launch that is refused with a status, which is also reported. -/
def refuse (status : Status) : PrepareLaunch ReferenceModel := ⟨status, [⟨status, none⟩]⟩

def prepare (d : ReferenceDriver) (m : Model) : PrepareLaunch ReferenceModel :=
  if d.accepts m then d.launch m else refuse .invalidArgument

/-- The model that two cache files hold, if the driver can take it from there. -/
def restorable? (d : ReferenceDriver) (store : FileStore) (model data : FileHandle)
    (token : Cache.Token) : Option Model := do
  if !d.config.caching then none
  let modelBytes ← store.read? model
  let dataBytes ← store.read? data
  let m ← (Cache.decode modelBytes dataBytes token d.key).toOption
  if d.accepts m then some m else none

def restore (d : ReferenceDriver) (store : FileStore) (model data : FileHandle)
    (token : Cache.Token) : PrepareLaunch ReferenceModel :=
  match d.restorable? store model data token with
  | some m => d.launch m
  | none => refuse .generalFailure

/-- The driver as callers see it. -/
def toDriver (d : ReferenceDriver) : Driver where
  base := {
    capabilities := .answered d.config.queryStatus d.config.capabilities.toV1_0
    supportedOperations := d.supportedOperations
    prepare := fun m => (d.prepare m).map (·.toPrepared)
    status := d.config.status }
  v1_1? :=
    if Revision.v1_1 ≤ d.config.revision then
      some {
        capabilities := .answered d.config.queryStatus d.config.capabilities.toV1_1
        supportedOperations := d.supportedOperations
        prepare := fun m _ => (d.prepare m).map (·.toPrepared) }
    else none
  v1_2? :=
    if Revision.v1_2 ≤ d.config.revision then
      some {
        capabilities := .answered d.config.queryStatus d.config.capabilities
        supportedOperations := d.supportedOperations
        prepare := fun m _ => (d.prepare m).map (·.toPrepared)
        versionString := .answered d.config.queryStatus d.config.versionString
        kind := .answered d.config.queryStatus d.config.kind
        extensions := .answered d.config.queryStatus d.config.extensions
        isCachingSupported := .answered d.config.queryStatus d.config.caching
        restore := fun store model data token =>
          (d.restore store model data token).map (·.toPrepared) }
    else none

end ReferenceDriver

end NeuralDispatch
