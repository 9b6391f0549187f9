import NeuralDispatch.Revision
import NeuralDispatch.Status
import NeuralDispatch.Text.Numeral

/-!
# Command lines

The grammar of the command line.  A long option is `--name value` or `--name=value`, a short one
`-n value`, `-nvalue` or `-n=value`; short flags can be run together, and `-v` may stand before or
behind the name of the command, any number of times.  A value that stands by itself must not begin
with a dash, unless it is just that.  An option that takes one value may be given once.  After `--`
nothing is an option, and as no command takes plain arguments, nothing may follow.
-/

namespace NeuralDispatch.Command

/-- How the drivers are set up. -/
structure DeviceOptions where
  /-- The settings, as they are given. -/
  properties : List String := []
  revision : Option Revision := none
  deriving DecidableEq, Inhabited, Repr

/-- The options of a command, as far as they are given. -/
structure Options where
  devices : DeviceOptions := {}
  length : Option Nat := none
  preference : Option Preference := none
  deriving DecidableEq, Inhabited, Repr

/-- The names of the commands. -/
inductive Name where
  | devices
  | partition
  deriving DecidableEq, Inhabited, Repr

/-- What a command line asks for. -/
inductive Invocation where
  | run (name : Name) (options : Options)
  | version
  | help
  deriving DecidableEq, Repr

/-- The options that take a value. -/
inductive ValueOption where
  | property
  | revision
  | length
  | preference
  deriving DecidableEq, Repr

/-- What a word on the command line means by itself. -/
inductive Meaning where
  | verbose
  | version
  | help
  | option (o : ValueOption)
  | unknown
  deriving DecidableEq, Repr

/-! ## Values -/

def readRevision : String → Option Revision
  | "v1_0" => some .v1_0
  | "v1_1" => some .v1_1
  | "v1_2" => some .v1_2
  | _ => none

def readPreference : String → Option Preference
  | "low-power" => some .lowPower
  | "fast-single-answer" => some .fastSingleAnswer
  | "sustained-speed" => some .sustainedSpeed
  | _ => none

/-- Gives an option its value, unless it has one already or cannot have this one. -/
def Options.give (options : Options) (o : ValueOption) (value : String) : Option Options :=
  match o with
  | .property =>
    let devices := options.devices
    some { options with devices.properties := devices.properties ++ [value] }
  | .revision => do
    let revision ← readRevision value
    if options.devices.revision.isSome then none
    else some { options with devices.revision := some revision }
  | .length => do
    let length ← Text.readUnsigned 0x10000000000000000 value.toList
    if options.length.isSome then none else some { options with length := some length }
  | .preference => do
    let preference ← readPreference value
    if options.preference.isSome then none
    else some { options with preference := some preference }

/-! ## Words -/

/-- The meaning of a long name in front of the command, or behind it. -/
def longMeaning (command : Option Name) (name : String) : Meaning :=
  match command, name with
  | _, "verbose" => .verbose
  | _, "help" => .help
  | none, "version" => .version
  | some _, "prop" => .option .property
  | some _, "revision" => .option .revision
  | some .partition, "length" => .option .length
  | some .partition, "preference" => .option .preference
  | _, _ => .unknown

/-- The meaning of a short name in front of the command, or behind it. -/
def shortMeaning (command : Option Name) (name : Char) : Meaning :=
  match command, name with
  | _, 'v' => .verbose
  | _, 'h' => .help
  | none, 'V' => .version
  | some _, 'p' => .option .property
  | some .partition, 'l' => .option .length
  | _, _ => .unknown

/-- The kinds of words. -/
inductive Word where
  /-- The word `--`. -/
  | escape
  | long (name : String) (value : Option String)
  | short (letters : List Char)
  | plain (text : String)
  deriving DecidableEq, Repr

def Word.ofString (s : String) : Word :=
  match s.toList with
  | ['-', '-'] => .escape
  | '-' :: '-' :: rest =>
    match rest.idxOf? '=' with
    | some i => .long (String.ofList (rest.take i)) (some (String.ofList (rest.drop (i + 1))))
    | none => .long (String.ofList rest) none
  | '-' :: c :: rest => .short (c :: rest)
  | _ => .plain s

/-! ## Reading a command line -/

/-- What one word leads to. -/
inductive Progress where
  /-- Reading goes on with these options. -/
  | next (options : Options)
  /-- The next word is the value of an option. -/
  | expect (options : Options) (o : ValueOption)
  /-- The rest of the command line does not matter. -/
  | stop (invocation : Invocation)
  | refused

def Progress.ofOption : Option Options → Progress
  | some options => .next options
  | none => .refused

/-- Short names run together.  The first option that takes a value takes the rest as its value. -/
def readShort (command : Option Name) (options : Options) : List Char → Progress
  | [] => .next options
  | c :: rest =>
    match shortMeaning command c with
    | .verbose => readShort command options rest
    | .version => .stop .version
    | .help => .stop .help
    | .unknown => .refused
    | .option o =>
      match rest with
      | [] => .expect options o
      | '=' :: value => .ofOption (options.give o (String.ofList value))
      | value => .ofOption (options.give o (String.ofList value))

/-- A long name, with the value that is attached to it. -/
def readLong (command : Option Name) (options : Options) (name : String) (value : Option String) :
    Progress :=
  match longMeaning command name, value with
  | .option o, some value => .ofOption (options.give o value)
  | .option o, none => .expect options o
  | .verbose, none => .next options
  | .version, none => .stop .version
  | .help, none => .stop .help
  | _, _ => .refused

/-- The words behind the name of a command. -/
def readOptions (name : Name) : List String → Options → Option Invocation
  | [], options => some (.run name options)
  | word :: rest, options =>
    let progress :=
      match Word.ofString word with
      | .long name' value => readLong (some name) options name' value
      | .short letters => readShort (some name) options letters
      | .escape => if rest.isEmpty then .next options else .refused
      | .plain _ => .refused
    match progress, rest with
    | .next options, rest => readOptions name rest options
    | .expect options o, value :: rest =>
      match Word.ofString value with
      | .plain value => do readOptions name rest (← options.give o value)
      | .escape | .long _ _ | .short _ => none
    | .stop invocation, _ => some invocation
    | .expect _ _, [] | .refused, _ => none

/-- What help can be asked for: the program as a whole or one of its commands. -/
def isTopic : List String → Bool
  | [] => true
  | [name] => ["devices", "partition", "help"].contains name
  | _ => false

/-- A whole command line, if it is well formed. -/
def read : List String → Option Invocation
  | [] => none
  | word :: rest =>
    match Word.ofString word with
    | .plain "devices" => readOptions .devices rest {}
    | .plain "partition" => readOptions .partition rest {}
    | .plain "help" => if isTopic rest then some .help else none
    | .long name value =>
      match readLong none {} name value with
      | .next _ => read rest
      | .stop invocation => some invocation
      | .expect _ _ | .refused => none
    | .short letters =>
      match readShort none {} letters with
      | .next _ => read rest
      | .stop invocation => some invocation
      | .expect _ _ | .refused => none
    | .escape | .plain _ => none

end NeuralDispatch.Command
