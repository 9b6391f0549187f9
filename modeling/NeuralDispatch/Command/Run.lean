import NeuralDispatch.Command.Arguments
import NeuralDispatch.Command.Chain
import NeuralDispatch.Command.Report
import NeuralDispatch.Device.Registry
import NeuralDispatch.Driver.Reference
import NeuralDispatch.Plan.Partition
import NeuralDispatch.Plan.Run

/-!
# Commands

The two commands work on two reference drivers: one that runs everything but rounding down, and a
faster one that runs nothing else.  `devices` shows them; `partition` splits a chain over them, runs
it, and compares what comes out with what must.
-/

namespace NeuralDispatch.Command

/-- What a command leaves behind. -/
structure Outcome where
  exitCode : Nat := 0
  /-- The lines of standard output. -/
  output : List String := []
  /-- The lines of standard error. -/
  errors : List String := []
  deriving DecidableEq, Inhabited, Repr

/-- Why a command fails: what it was about, and the cause. -/
structure Failure where
  context : Option String := none
  cause : String
  deriving DecidableEq, Repr

/-- The lines that report a failure.  A cause below its context is indented line by line. -/
def Failure.lines (f : Failure) : List String :=
  match f.context with
  | none => ["Error: " ++ f.cause]
  | some context =>
    ["Error: " ++ context, "", "Caused by:"] ++ (f.cause.splitOn "\n").map ("    " ++ ·)

/-- The answer to a part of a command, with what it was about. -/
def within {ε α : Type} (context : String) (message : ε → String) (x : Except ε α) :
    Except Failure α :=
  x.mapError fun e => { context := some context, cause := message e }

/-! ## Settings and devices -/

/-- A setting, `key=value` with a key that is not empty (`parse_props`). -/
def readProperty (s : String) : Except String (String × String) :=
  let cs := s.toList
  match cs.idxOf? '=' with
  | none => .error ("Invalid property format '" ++ s ++ "'. Expected format: key=value")
  | some 0 => .error ("Empty property key in '" ++ s ++ "'")
  | some i => .ok (String.ofList (cs.take i), String.ofList (cs.drop (i + 1)))

/-- The signatures of operations on single-precision tensors. -/
def onTensors (ops : List OperationType) : List Signature := ops.map fun op => ⟨op, .tensorFloat32⟩

/-- The driver that runs everything but rounding down. -/
def floatDriver (revision : Revision) : ReferenceDriver where
  name := "sample-float"
  config := { revision, signatures := onTensors [.add, .sub, .mul, .relu] }
  key := Vector.replicate 32 1

/-- The driver that rounds down, at half the cost. -/
def floorDriver (revision : Revision) : ReferenceDriver where
  name := "sample-floor"
  config := ({ revision, signatures := onTensors [.floor] } : ReferenceConfig).withPerformance
    ⟨⟨0x3f000000⟩, ⟨0x3f000000⟩⟩
  key := Vector.replicate 32 2

/-- The drivers under the names they are published by. -/
def services (revision : Revision) : List (String × Driver) :=
  [floatDriver revision, floorDriver revision].map fun d => (d.name, d.toDriver)

/-- The devices that the commands work on (`build_registry`). -/
def discover (options : DeviceOptions) (environment : String → Option String) :
    Except Failure Registry := do
  let overrides ←
    within "Failed to parse --prop arguments" id (options.properties.mapM readProperty)
  let properties := (Properties.ofList overrides).orElse (Properties.ofEnvironment environment)
  let manager := ServiceManager.ofServices (services (options.revision.getD .v1_2))
  let registry ←
    (Registry.discover (some manager) properties).mapError fun f => { cause := f.message }
  if registry.devices.isEmpty then throw { cause := "No devices discovered" }
  return registry

/-! ## The commands -/

/-- The lines that a command has written, and how it ended. -/
abbrev Transcript := List String × Except Failure Unit

/-- Shows the devices (`cmd_devices`). -/
def showDevices (r : Registry) : Transcript :=
  match r.devices.mapM Device.report with
  | .error f => ([], .error { cause := f.message })
  | .ok reports => (s!"Devices ({r.devices.length}):" :: reports.flatten, .ok ())

/-- The chain, if it has any operations. -/
def buildChain (length : Nat) : Except Failure Model :=
  let context := "Failed to build chain model"
  if length = 0 then .error { context, cause := "Chain length must be at least 1" }
  else within context ModelError.message (Chain.model length)

/-- The lines about a run of a chain. -/
def runLines (length : Nat) (output : List Single) (timings : List Timing) : List String :=
  ["",
    "Input:     " ++ Report.singles Chain.start,
    "Output:    " ++ Report.singles output,
    "Reference: " ++ Report.singles (Chain.expected length)] ++
    timings.zipIdx.filterMap fun (timing, i) =>
      if timing.isAvailable then some s!"  Step {i}: {timing.onDevice} us on device" else none

/-- Whether two lists hold the same numbers. -/
def sameNumbers (xs ys : List Single) : Bool :=
  xs.length == ys.length && (xs.zip ys).all fun (x, y) => x.sameNumber y

/-- Prepares and runs the plan of a chain: the output, and how long each step took. -/
def runChain (plan : Plan) (preference : Preference) :
    Except Failure (List Single × List Timing) := do
  let prepared ← within "Failed to prepare plan" RunError.message (plan.prepare preference)
  let (outputs, timings) ← within "Failed to execute plan" RunError.message
    (prepared.executeTimed [Bytes.ofSingles Chain.start] true)
  return ((outputs.head?.bind Bytes.toSingles?).getD [], timings)

/-- Splits a chain over the devices and runs it (`cmd_partition`). -/
def partitionChain (r : Registry) (length : Nat) (preference : Preference) : Transcript :=
  let planned := do
    let m ← buildChain length
    let plan ← within "Failed to partition model" PlanError.message
      (Plan.partition m r.devices preference)
    return (m, plan)
  match planned with
  | .error f => ([], .error f)
  | .ok (m, plan) =>
    let lines :=
      s!"Model: {m.operations.length} operations, {m.operands.length} operands" :: plan.report
    match runChain plan preference with
    | .error f => (lines, .error f)
    | .ok (output, timings) =>
      (lines ++ runLines length output timings,
        if sameNumbers output (Chain.expected length) then .ok ()
        else .error { cause := "Plan output does not match the reference" })

def Outcome.ofTranscript : Transcript → Outcome
  | (output, .ok ()) => { output }
  | (output, .error f) => { exitCode := 1, output, errors := f.lines }

/-- Runs a command with its options. -/
def runCommand (name : Name) (options : Options) (environment : String → Option String) :
    Transcript :=
  match discover options.devices environment with
  | .error f => ([], .error f)
  | .ok r =>
    match name with
    | .devices => showDevices r
    | .partition =>
      partitionChain r (options.length.getD 4) (options.preference.getD .fastSingleAnswer)

def versionLine : String := "tessera 0.1.0"

def usage : List String :=
  ["Inspect devices and partition models across them",
    "",
    "Usage: tessera [-v] devices [OPTIONS]",
    "       tessera [-v] partition [-l LENGTH] [--preference PREFERENCE] [OPTIONS]",
    "",
    "Options: [-p KEY=VALUE] [--revision REVISION]"]

/-- Runs the program on its arguments, with the environment variables that it can see. -/
def run (arguments : List String) (environment : String → Option String) : Outcome :=
  match read arguments with
  | none => { exitCode := 2, errors := usage }
  | some .version => { output := [versionLine] }
  | some .help => { output := usage }
  | some (.run name options) => .ofTranscript (runCommand name options environment)

/-- The environment variables that the program looks at. -/
def variableNames : List String :=
  (Properties.sharedName :: (services .v1_2).map (·.1)).map fun name =>
    Properties.variableName (Properties.coverageKey name)

end NeuralDispatch.Command
