import ImpCompiler.Text

/-!
# Double — double precision numbers

A number is kept as its 64 bits, so that two of them are equal exactly when they are
the same number with the same sign. Arithmetic and comparison are those of the
machine.
-/

namespace ImpCompiler

set_option autoImplicit false

/-- A double precision number, as its IEEE 754 bits. -/
structure Double where
  bits : UInt64
  deriving DecidableEq, Repr, Inhabited

namespace Double

def toFloat (x : Double) : Float := Float.ofBits x.bits

def ofFloat (x : Float) : Double := ⟨x.toBits⟩

def zero : Double := ⟨0⟩

def add (x y : Double) : Double := ofFloat (x.toFloat + y.toFloat)

def sub (x y : Double) : Double := ofFloat (x.toFloat - y.toFloat)

def mul (x y : Double) : Double := ofFloat (x.toFloat * y.toFloat)

def div (x y : Double) : Double := ofFloat (x.toFloat / y.toFloat)

def neg (x : Double) : Double := ⟨x.bits ^^^ 0x8000000000000000⟩

/-- Numeric equality: both zeros are equal, and no NaN equals anything. -/
def eq (x y : Double) : Bool := x.toFloat == y.toFloat

def lt (x y : Double) : Bool := decide (x.toFloat < y.toFloat)

def le (x y : Double) : Bool := decide (x.toFloat ≤ y.toFloat)

def isNegative (x : Double) : Bool := decide (0x8000000000000000 ≤ x.bits)

def exponentBits (x : Double) : Nat := x.bits.toNat / Nat.pow 2 52 % Nat.pow 2 11

def fractionBits (x : Double) : Nat := x.bits.toNat % Nat.pow 2 52

def isNaN (x : Double) : Bool := x.exponentBits == 2047 && x.fractionBits != 0

def isInf (x : Double) : Bool := x.exponentBits == 2047 && x.fractionBits == 0

/-- The magnitude of a finite number as `mantissa * 2 ^ exponent`. -/
def magnitude (x : Double) : Nat × Int :=
  if x.exponentBits = 0 then (x.fractionBits, -1074)
  else (Nat.pow 2 52 + x.fractionBits, (x.exponentBits : Int) - 1075)

end Double

end ImpCompiler
