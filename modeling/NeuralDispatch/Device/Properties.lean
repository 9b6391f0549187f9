import NeuralDispatch.Text.Blank
import NeuralDispatch.Text.Numeral

/-!
# Properties

Settings are looked up by key when devices are created.  The one setting there is chooses how much
of a device's declared support is used; devices whose name begins with `sample` share a setting.
-/

namespace NeuralDispatch

/-- A source of settings (`PropertySource`). -/
abbrev Properties := String → Option String

namespace Properties

/-- The source with the given settings, of which the last one for a key counts (`MapProperties`). -/
def ofList (settings : List (String × String)) : Properties :=
  fun key => settings.reverse.lookup key

/-- Settings of the first source, and where it has none those of the second. -/
def orElse (first second : Properties) : Properties := fun key => (first key).or (second key)

/-- The environment variable for a key: in capitals, with an underscore for every character that is
no ASCII letter or digit. -/
def variableName (key : String) : String :=
  String.ofList (key.toList.map fun c => if c.isAlphanum then c.toUpper else '_')

/-- Settings from environment variables (`EnvProperties`). -/
def ofEnvironment (environment : String → Option String) : Properties :=
  fun key => environment (variableName key)

/-! ## The coverage mode of a device -/

def coverageKey (deviceName : String) : String := "debug.nn." ++ deviceName ++ ".supported"

/-- What the names of devices that share a setting begin with. -/
def sharedName : String := "sample"

/-- The text that is set for a device. -/
def coverageText (properties : Properties) (deviceName : String) : Option String :=
  match properties (coverageKey deviceName) with
  | some text => some text
  | none =>
    if sharedName.toList.isPrefixOf deviceName.toList then properties (coverageKey sharedName)
    else none

/-- The number that is set for a device, 0 where there is none (`coverage_mode_value`). -/
def coverageValue (properties : Properties) (deviceName : String) : Int :=
  match coverageText properties deviceName with
  | none => 0
  | some text => (Text.readSigned 0x8000000000000000 (Text.trim text.toList)).getD 0

end Properties

end NeuralDispatch
