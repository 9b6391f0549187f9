import NeuralDispatch.Decimal.Fixed

/-!
# Shortest numbers

The decimal text of a single-precision number with the fewest digits that read back as the same
number, and of several such texts the one closest to it.

The reals that read back as a number lie between the middles to its two neighbours, and the middles
belong to them if the mantissa is even.  For each count of digits only the two neighbours of the
number on that decimal grid need to be tried.
-/

namespace NeuralDispatch.Decimal

/-- A decimal number: `digits` times ten to the power `exponent`. -/
structure Scientific where
  digits : Nat
  exponent : Int
  deriving DecidableEq, Repr

namespace Scientific

/-- `a ≤ s` or `s ≤ a` are decided by whole numbers once both sides are multiplied out: the
numerator of `s` for the denominator `unit s`. -/
def scaled (s : Scientific) : Nat := s.digits * power s.exponent.toNat

def unit (s : Scientific) : Nat := power (-s.exponent).toNat

end Scientific

/-- Four times the numerators of the lower and the upper end of the reals that read back as `x`. -/
def readBackRange (x : Single) : Nat × Nat :=
  let n := 4 * x.numerator
  let gap := 2 <<< x.scale
  let lowerGap := if x.fraction = 0 ∧ 1 < x.exponent then gap / 2 else gap
  (n - lowerGap, n + gap)

/-- Whether a decimal number reads back as `x`. -/
def readsBack (x : Single) (s : Scientific) : Bool :=
  let (low, high) := readBackRange x
  let value := s.scaled * 4 * Single.unitsPerOne
  if x.mantissa % 2 = 0 then decide (low * s.unit ≤ value) && decide (value ≤ high * s.unit)
  else decide (low * s.unit < value) && decide (value < high * s.unit)

/-- The distance of a decimal number from `x`, multiplied out. -/
def distance (x : Single) (s : Scientific) : Nat :=
  let value := s.scaled * Single.unitsPerOne
  let target := x.numerator * s.unit
  (value - target) + (target - value)

/-- The neighbours of `x` among the multiples of ten to the power `exponent`. -/
def neighbours (x : Single) (exponent : Int) : List Scientific :=
  let below := x.numerator * power (-exponent).toNat / (Single.unitsPerOne * power exponent.toNat)
  [⟨below, exponent⟩, ⟨below + 1, exponent⟩]

/-- The closest number of that grid that reads back as `x`, if one does. -/
def onGrid? (x : Single) (exponent : Int) : Option Scientific :=
  match (neighbours x exponent).filter (readsBack x) with
  | [] => none
  | [s] => some s
  | s :: t :: _ => some (if distance x t < distance x s then t else s)

/-- The decimal exponents of a first digit that single precision needs, from 38 down to -45. -/
def exponents : List Int := (List.range 84).map fun (i : Nat) => 38 - (i : Int)

/-- The exponent of the first digit of a number that is not zero. -/
def leadingExponent (x : Single) : Int :=
  (exponents.find? fun e =>
    decide (Single.unitsPerOne * power e.toNat ≤ x.numerator * power (-e).toNat)).getD (-45)

/-- The shortest decimal number that reads back as `x`.  Nine digits always do. -/
def shortest (x : Single) : Scientific :=
  let e := leadingExponent x
  ((List.range 9).findSome? fun (n : Nat) => onGrid? x (e - n)).getD ⟨x.numerator, -149⟩

/-- A decimal number without zeros at the end of its digits. -/
def Scientific.normalize (s : Scientific) : Scientific :=
  go s.digits s
where
  go : (fuel : Nat) → Scientific → Scientific
    | 0, s => s
    | fuel + 1, s =>
      if s.digits ≠ 0 ∧ s.digits % 10 = 0 then go fuel ⟨s.digits / 10, s.exponent + 1⟩ else s

/-- The exponent of the first digit. -/
def Scientific.leading (s : Scientific) : Int :=
  s.exponent + ((Nat.toDigits 10 s.digits).length - 1 : Nat)

/-- The text of a decimal number in positional notation, with at least one place. -/
def Scientific.positional (s : Scientific) : String :=
  if 0 ≤ s.exponent then padded 1 s.scaled ++ ".0"
  else Decimal.positional (-s.exponent).toNat s.digits

/-- The text of a decimal number with one digit before the point and an exponent. -/
def Scientific.exponential (s : Scientific) : String :=
  let digits := Nat.toDigits 10 s.digits
  let rest := digits.drop 1
  let places := if rest.isEmpty then "" else "." ++ String.ofList rest
  String.ofList (digits.take 1) ++ places ++ "e" ++ toString s.leading

/-- The shortest text of a number.  Positional notation is used from `0.0001` to below `1e16`, and
a whole number has one place. -/
def text (x : Single) : String :=
  if x.isNaN then "NaN"
  else if x.isInfinite then sign x ++ "inf"
  else if x.magnitude = 0 then sign x ++ "0.0"
  else
    let s := (shortest x).normalize
    sign x ++ (if -4 ≤ s.leading ∧ s.leading < 16 then s.positional else s.exponential)

end NeuralDispatch.Decimal
