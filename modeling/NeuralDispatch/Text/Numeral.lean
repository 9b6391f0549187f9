/-!
# Decimal numerals

Whole numbers as they are written in settings and arguments: at least one ASCII digit, and a sign
in front where one is allowed.
-/

namespace NeuralDispatch.Text

/-- The number that a row of digits stands for, if it is one. -/
def readDigits (cs : List Char) : Option Nat :=
  if cs.isEmpty then none
  else cs.foldlM (fun n c => if c.isDigit then some (10 * n + (c.toNat - 48)) else none) 0

/-- A number below `bound`, with or without a plus sign. -/
def readUnsigned (bound : Nat) (cs : List Char) : Option Nat := do
  let n ← readDigits (match cs with | '+' :: rest => rest | _ => cs)
  if n < bound then some n else none

/-- A number from `-bound` to `bound - 1`, with or without a sign. -/
def readSigned (bound : Nat) (cs : List Char) : Option Int := do
  let n : Int ← match cs with
    | '-' :: rest => (readDigits rest).map fun n => -(n : Int)
    | '+' :: rest => (readDigits rest).map fun n => (n : Int)
    | _ => (readDigits cs).map fun n => (n : Int)
  if -(bound : Int) ≤ n ∧ n < bound then some n else none

end NeuralDispatch.Text
