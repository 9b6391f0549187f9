import NeuralDispatch.Single

/-!
# Numbers with a fixed number of places

The exact value of a single-precision number as a fraction, and its decimal text rounded to a
number of places, a half going to the even neighbour.
-/

namespace NeuralDispatch

namespace Single

/-- The 23 fraction bits. -/
def fraction (x : Single) : Nat := x.magnitude % 0x800000

/-- The mantissa and the power of two that make up the absolute value: of a normal number the
fraction has a leading one that is not stored. -/
def mantissa (x : Single) : Nat := if x.exponent = 0 then x.fraction else 0x800000 + x.fraction

/-- The power of two that the mantissa is multiplied by, plus 149. -/
def scale (x : Single) : Nat := x.exponent - 1

/-- How often the smallest positive number goes into one: `2 ^ 149` times. -/
def unitsPerOne : Nat := 1 <<< 149

/-- The absolute value of a finite number, in units of the smallest positive one. -/
def numerator (x : Single) : Nat := x.mantissa <<< x.scale

/-- Whether the pattern stands for an infinity. -/
def isInfinite (x : Single) : Bool := x.magnitude == 0x7f800000

end Single

namespace Decimal

/-- `num / den` rounded to the nearest whole number, a half to the even one. -/
def roundDiv (num den : Nat) : Nat :=
  let q := num / den
  let twice := 2 * (num % den)
  if twice < den ∨ (twice = den ∧ q % 2 = 0) then q else q + 1

/-- The digits of a number, at least `width` of them. -/
def padded (width n : Nat) : String :=
  let digits := Nat.toDigits 10 n
  String.ofList (List.replicate (width - digits.length) '0' ++ digits)

/-- Ten to a power. -/
def power (k : Nat) : Nat := Nat.pow 10 k

/-- A number of units, `power places` of which make one, in positional notation. -/
def positional (places units : Nat) : String :=
  if places = 0 then padded 1 units
  else padded 1 (units / power places) ++ "." ++ padded places (units % power places)

/-- The sign of a number, where it is written. -/
def sign (x : Single) : String := if x.isNegative then "-" else ""

/-- A number with a fixed number of places. -/
def fixed (places : Nat) (x : Single) : String :=
  if x.isNaN then "NaN"
  else if x.isInfinite then sign x ++ "inf"
  else sign x ++ positional places (roundDiv (x.numerator * power places) Single.unitsPerOne)

end Decimal

end NeuralDispatch
