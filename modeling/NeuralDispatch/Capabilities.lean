import NeuralDispatch.Signature
import NeuralDispatch.Single
import NeuralDispatch.Status

/-!
# Capabilities

What a driver declares of itself, in the form of each revision.  An older form says less; read as
the newest form it declares no signatures and no caching, and a figure that it lacks is taken from
the closest one it has.
-/

namespace NeuralDispatch

/-- How fast and how hungry a driver is, relative to a reference; smaller is better
(`PerformanceInfo`). -/
structure Performance where
  execTime : Single
  powerUsage : Single
  deriving DecidableEq, Repr

namespace Performance

/-- The figure of a driver that has not told (`UNKNOWN`). -/
def unknown : Performance := ⟨.largest, .largest⟩

instance : Inhabited Performance := ⟨unknown⟩

/-- The figure that counts for a preference. -/
def figure (p : Performance) : Preference → Single
  | .lowPower => p.powerUsage
  | .fastSingleAnswer | .sustainedSpeed => p.execTime

end Performance

/-- What a driver declares, in the newest form (`CapabilitiesV1_2`). -/
structure Capabilities where
  float32 : Performance := .unknown
  quantized8 : Performance := .unknown
  /-- The figure for single precision that may be computed in half precision. -/
  relaxed : Performance := .unknown
  /-- Whether compiled models can be kept in a cache. -/
  caches : Bool := false
  /-- The signatures that the driver runs. -/
  signatures : List Signature := []
  deriving DecidableEq, Inhabited, Repr

namespace Capabilities

/-- The form of the oldest revision (`CapabilitiesV1_0`). -/
structure V1_0 where
  float32 : Performance := .unknown
  quantized8 : Performance := .unknown
  deriving DecidableEq, Inhabited, Repr

/-- The form of the second revision (`CapabilitiesV1_1`). -/
structure V1_1 where
  float32 : Performance := .unknown
  quantized8 : Performance := .unknown
  relaxed : Performance := .unknown
  deriving DecidableEq, Inhabited, Repr

/-- Without a figure for relaxed computation, the one for single precision stands in. -/
def V1_0.toV1_1 (c : V1_0) : V1_1 := ⟨c.float32, c.quantized8, c.float32⟩

def V1_1.toLatest (c : V1_1) : Capabilities :=
  { float32 := c.float32, quantized8 := c.quantized8, relaxed := c.relaxed }

def V1_0.toLatest (c : V1_0) : Capabilities := c.toV1_1.toLatest

def toV1_1 (c : Capabilities) : V1_1 := ⟨c.float32, c.quantized8, c.relaxed⟩

def toV1_0 (c : Capabilities) : V1_0 := ⟨c.float32, c.quantized8⟩

end Capabilities

end NeuralDispatch
