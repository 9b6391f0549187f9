import NeuralDispatch.Revision

/-!
# Operand types

The element types of scalars and tensors.  Their codes are fixed: they enter hashes and cache
files.  `ofCode?_code` says that a code read back is the type it was written for.
-/

namespace NeuralDispatch

/-- The type of an operand: a scalar or a tensor of some element. -/
inductive OperandType where
  | float32
  | int32
  | uint32
  | tensorFloat32
  | tensorInt32
  | tensorQuant8Asymm
  | bool
  | tensorQuant16Symm
  | tensorFloat16
  | tensorBool8
  | float16
  deriving DecidableEq, Inhabited, Repr

namespace OperandType

/-- Every operand type, in the order of the codes. -/
def all : List OperandType :=
  [float32, int32, uint32, tensorFloat32, tensorInt32, tensorQuant8Asymm, bool, tensorQuant16Symm,
    tensorFloat16, tensorBool8, float16]

def code : OperandType → UInt32
  | float32 => 0
  | int32 => 1
  | uint32 => 2
  | tensorFloat32 => 3
  | tensorInt32 => 4
  | tensorQuant8Asymm => 5
  | bool => 6
  | tensorQuant16Symm => 7
  | tensorFloat16 => 8
  | tensorBool8 => 9
  | float16 => 10

/-- The type that has a code, if one has (`from_code`). -/
def ofCode? (c : UInt32) : Option OperandType := all.find? fun t => t.code == c

theorem ofCode?_code (t : OperandType) : ofCode? t.code = some t := by cases t <;> rfl

theorem code_of_ofCode? {c : UInt32} {t : OperandType} (h : ofCode? c = some t) : t.code = c := by
  simpa using List.find?_some h

def name : OperandType → String
  | float32 => "Float32"
  | int32 => "Int32"
  | uint32 => "Uint32"
  | tensorFloat32 => "TensorFloat32"
  | tensorInt32 => "TensorInt32"
  | tensorQuant8Asymm => "TensorQuant8Asymm"
  | bool => "Bool"
  | tensorQuant16Symm => "TensorQuant16Symm"
  | tensorFloat16 => "TensorFloat16"
  | tensorBool8 => "TensorBool8"
  | float16 => "Float16"

/-- The first revision that has the type. -/
def introducedIn : OperandType → Revision
  | float32 | int32 | uint32 | tensorFloat32 | tensorInt32 | tensorQuant8Asymm => .v1_0
  | bool | tensorQuant16Symm | tensorFloat16 | tensorBool8 | float16 => .v1_2

def isTensor : OperandType → Bool
  | tensorFloat32 | tensorInt32 | tensorQuant8Asymm | tensorQuant16Symm | tensorFloat16
  | tensorBool8 => true
  | float32 | int32 | uint32 | bool | float16 => false

/-- The bytes that one element takes. -/
def elementSize : OperandType → Nat
  | float32 | int32 | uint32 | tensorFloat32 | tensorInt32 => 4
  | tensorQuant16Symm | tensorFloat16 | float16 => 2
  | tensorQuant8Asymm | bool | tensorBool8 => 1

def isQuantized : OperandType → Bool
  | tensorQuant8Asymm | tensorQuant16Symm => true
  | _ => false

/-- Whether the elements are single-precision numbers. -/
def isFloat32 : OperandType → Bool
  | tensorFloat32 | float32 => true
  | _ => false

end OperandType

end NeuralDispatch
