/-!
# Single-precision words

The IEEE 754 binary32 numbers that tensors, scales and performance figures are made of, kept as
their 32 bits so that every pattern (signed zeros, infinities, any not-a-number) survives being
stored.  Comparison is decided on the bits; sums, differences and products are those of `Float32`,
whose one not-a-number result is `0x7fc00000`.
-/

namespace NeuralDispatch

/-- A binary32 number as its bit pattern. -/
structure Single where
  bits : UInt32
  deriving DecidableEq, Inhabited, Repr

namespace Single

/-- The value `0.0`. -/
def zero : Single := ⟨0⟩

/-- The largest finite value. -/
def largest : Single := ⟨0x7f7fffff⟩

/-- The one not-a-number that arithmetic yields. -/
def nan : Single := ⟨0x7fc00000⟩

/-! ## Comparison -/

/-- The bits without the sign, which grow with the absolute value. -/
def magnitude (x : Single) : Nat := (x.bits &&& 0x7fffffff).toNat

/-- Whether the sign bit is set. -/
def isNegative (x : Single) : Bool := x.bits >>> 31 == 1

/-- Whether the pattern stands for no number: all exponent bits set and a fraction. -/
def isNaN (x : Single) : Bool := decide (0x7f800000 < x.magnitude)

/-- The place of a number on the real line, the two zeros sharing one. -/
def rank (x : Single) : Int := if x.isNegative then -x.magnitude else x.magnitude

/-- Numerical order, false as soon as one side is not a number. -/
def lt (x y : Single) : Bool := !x.isNaN && !y.isNaN && decide (x.rank < y.rank)

/-- Numerical equality: the two zeros are equal, and nothing equals a not-a-number. -/
def sameNumber (x y : Single) : Bool := !x.isNaN && !y.isNaN && decide (x.rank = y.rank)

/-! ## Arithmetic -/

def toFloat32 (x : Single) : Float32 := Float32.ofBits x.bits

def ofFloat32 (x : Float32) : Single := ⟨x.toBits⟩

def add (x y : Single) : Single := ofFloat32 (x.toFloat32 + y.toFloat32)

def sub (x y : Single) : Single := ofFloat32 (x.toFloat32 - y.toFloat32)

def mul (x y : Single) : Single := ofFloat32 (x.toFloat32 * y.toFloat32)

/-- The exponent field. -/
def exponent (x : Single) : Nat := ((x.bits >>> 23) &&& 0xff).toNat

/-- The greatest whole number that is not above `x`.  From exponent field 150 on every number is
whole; below 127 only the sign matters; in between, the fraction bits behind the binary point are
cleared, for negative numbers after rounding their magnitude up. -/
def floor (x : Single) : Single :=
  if x.isNaN then nan
  else if 150 ≤ x.exponent then x
  else if x.exponent < 127 then
    if x.isNegative then if x.magnitude = 0 then x else ⟨0xbf800000⟩ else zero
  else
    let fraction : UInt32 := 0x007fffff >>> UInt32.ofNat (x.exponent - 127)
    if x.isNegative then ⟨(x.bits + fraction) &&& ~~~fraction⟩ else ⟨x.bits &&& ~~~fraction⟩

/-- The number itself where it is above zero, and `0.0` elsewhere. -/
def relu (x : Single) : Single := if zero.lt x then x else zero

end Single

end NeuralDispatch
