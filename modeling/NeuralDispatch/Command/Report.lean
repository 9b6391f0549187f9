import NeuralDispatch.Decimal.Shortest
import NeuralDispatch.Device.Basic
import NeuralDispatch.Plan.Basic

/-!
# Reports

The lines in which devices and plans are shown.
-/

namespace NeuralDispatch

namespace Report

/-- Values in brackets. -/
def bracketed (texts : List String) : String := "[" ++ String.intercalate ", " texts ++ "]"

def numbers (ns : List Nat) : String := bracketed (ns.map toString)

def singles (xs : List Single) : String := bracketed (xs.map Decimal.text)

def links (ls : List Link) : String :=
  bracketed (ls.map fun l => s!"({l.operand}, {l.place})")

/-- Blanks that fill a text up to a width. -/
def blanks (width : Nat) (text : String) : String :=
  String.ofList (List.replicate (width - text.length) ' ')

def padLeft (width : Nat) (text : String) : String := blanks width text ++ text

def padRight (width : Nat) (text : String) : String := text ++ blanks width text

/-- A figure in a column of eight characters, with three places. -/
def figure (x : Single) : String := padLeft 8 (Decimal.fixed 3 x)

def performanceLine (label : String) (p : Performance) : String :=
  "  Performance " ++ padRight 10 label ++ " exec " ++ figure p.execTime ++ "  power " ++
    figure p.powerUsage

def yesNo (b : Bool) : String := if b then "true" else "false"

end Report

open Report

/-- What is shown of a device. -/
def Device.report (d : Device) : Except Fault (List String) := do
  let (_, version) ← d.handle.versionString
  let kind ← d.handle.kindCode
  let revision := (d.handle.revision?.map Revision.text).getD "invalid"
  let kept := d.signatures.length
  let declared := d.capabilities.signatures.length
  return ["",
      d.name,
      "  Revision: " ++ revision ++ s!" (feature level {d.handle.featureLevel})",
      s!"  Type: {kind}",
      "  Version: " ++ version,
      "  Status: " ++ d.handle.status.text,
      s!"  Coverage mode: {d.coverage.value}",
      "  Caches compilation: " ++ yesNo d.capabilities.caches,
      performanceLine "float32" d.capabilities.float32,
      performanceLine "quantized8" d.capabilities.quantized8,
      performanceLine "relaxed" d.capabilities.relaxed,
      s!"  Supported tuples ({kept} of {declared} declared):"]
    ++ d.signatures.map fun s => "    " ++ s.text

/-- What is shown of a step, with the steps it depends on. -/
def Step.report (s : Step) (dependencies : List Nat) : List String :=
  ["",
    s!"  Step {s.index} on " ++ s.device.name,
    "    Operations: " ++ numbers s.operations,
    "    Depends on: " ++ numbers dependencies,
    "    Model inputs: " ++ links s.modelInputs,
    "    Model outputs: " ++ links s.modelOutputs,
    "    Cross-step inputs: " ++ links s.crossInputs,
    "    Cross-step outputs: " ++ links s.crossOutputs]

/-- What is shown of a plan. -/
def Plan.report (p : Plan) : List String :=
  s!"Plan ({p.steps.length} steps):" ::
    p.steps.flatMap fun s => s.report (p.dependenciesOf s.index)

end NeuralDispatch
