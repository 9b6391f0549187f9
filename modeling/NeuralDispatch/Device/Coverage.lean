import NeuralDispatch.Hash.Fnv
import NeuralDispatch.Model.Basic

/-!
# Coverage modes

To try out how a model is split, a device can be made to look as if it supported less than it does.
Whether it keeps an operation depends on nothing but the name of the device and the operation.
-/

namespace NeuralDispatch

/-- How the support that a device declares is narrowed. -/
inductive CoverageMode where
  /-- Everything is kept. -/
  | full
  /-- A signature is kept if its codes and the hash of the name have even parity. -/
  | signatureParity
  /-- Not in use; everything is kept. -/
  | reserved
  /-- An operation is kept if the hash of its operands is even. -/
  | occurrenceParity
  deriving DecidableEq, Inhabited, Repr

namespace CoverageMode

/-- The mode that a setting stands for (`from_value`).  An unknown number narrows nothing. -/
def ofValue (value : Int) : CoverageMode :=
  if value = 1 then signatureParity
  else if value = 2 then reserved
  else if value = 3 then occurrenceParity
  else full

def value : CoverageMode → Nat
  | full => 0
  | signatureParity => 1
  | reserved => 2
  | occurrenceParity => 3

def name : CoverageMode → String
  | full => "Full"
  | signatureParity => "TupleParity"
  | reserved => "Reserved"
  | occurrenceParity => "OccurrenceParity"

/-- Whether declared signatures decide over support; otherwise the driver is asked
(`uses_declared_tuples`). -/
def usesDeclared (mode : CoverageMode) : Bool := mode != occurrenceParity

def keepsSignature (mode : CoverageMode) (nameHash : UInt32) (s : Signature) : Bool :=
  match mode with
  | signatureParity => (s.operation.code ^^^ s.operand.code ^^^ nameHash) &&& 1 == 0
  | full | reserved | occurrenceParity => true

end CoverageMode

namespace Coverage

def nameHash (name : String) : UInt32 := Fnv.hash name.toUTF8.toList

/-- Takes an operand into the hash of an operation: its type, its rank and its extents, and for a
constant one more bit with every extent. -/
def mixOperand (hash : UInt32) (o : Operand) : UInt32 :=
  o.dimensions.foldl (fun hash d => hash ^^^ d ^^^ (if o.isConstant then 1 else 0))
    (hash ^^^ o.type.code ^^^ UInt32.ofNat o.rank)

/-- The hash of an operation of a model, if the model has it (`occurrence_hash`). -/
def occurrenceHash (nameHash : UInt32) (m : Model) (i : Nat) : Option UInt32 := do
  let s ← (m.signature i).toOption
  let op ← (m.operation i).toOption
  (op.inputs ++ op.outputs).foldlM
    (fun hash o => (m.operand o).toOption.map (mixOperand hash))
    (nameHash ^^^ s.operation.code ^^^ s.operand.code)

def keepsOccurrence (nameHash : UInt32) (m : Model) (i : Nat) : Bool :=
  match occurrenceHash nameHash m i with
  | some hash => hash &&& 1 == 0
  | none => false

end Coverage

end NeuralDispatch
