import NeuralDispatch.Model.Basic

/-!
# Refused cache files

Why a pair of cache files is not taken for a compiled model.
-/

namespace NeuralDispatch

/-- What the code of an unknown kind stands for (`UnknownCode`). -/
inductive CodeKind where
  | operandType
  | operationType
  | lifetime
  deriving DecidableEq, Repr

def CodeKind.text : CodeKind → String
  | operandType => "operand type"
  | operationType => "operation type"
  | lifetime => "lifetime"

/-- How stored records fail to fit together (`DataMismatch`). -/
inductive Mismatch where
  | model (e : ModelError)
  | notConstant (operand : Nat)
  | storedTwice (operand : Nat)
  | trailingBytes
  | constantWithoutValue (operand : Nat)
  deriving DecidableEq, Repr

def Mismatch.text : Mismatch → String
  | model e => e.message
  | notConstant i => s!"operand {i} is not a constant"
  | storedTwice i => s!"operand {i} is stored twice"
  | trailingBytes => "trailing bytes"
  | constantWithoutValue i => s!"constant operand {i} has no value"

/-- Why cache files are refused. -/
inductive CacheError where
  | truncated
  | unknownHeader
  | tokenMismatch
  | integrityCheckFailed
  | unknownCode (kind : CodeKind) (code : UInt32)
  | mismatch (reason : Mismatch)
  deriving DecidableEq, Repr

def CacheError.message : CacheError → String
  | truncated => "Cache file is truncated"
  | unknownHeader => "Cache file has an unknown header"
  | tokenMismatch => "Cache token does not match"
  | integrityCheckFailed => "Model cache failed its integrity check"
  | unknownCode kind code => "Unknown " ++ kind.text ++ s!" code {code} in cache"
  | mismatch reason => "Data cache does not match the model: " ++ reason.text

end NeuralDispatch
