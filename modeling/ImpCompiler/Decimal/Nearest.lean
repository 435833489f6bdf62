import ImpCompiler.Double

/-!
# Decimal.Nearest — reading a decimal number

The double nearest to a decimal number, halfway cases going to the even mantissa. A
number too large for a double has none; one too small is zero.
-/

namespace ImpCompiler

set_option autoImplicit false

namespace Decimal

/-- `num / den` rounded to a whole number, a half going to the even neighbour. -/
def roundQuotient (num den : Nat) : Nat :=
  let d := num / den
  let twice := 2 * (num % den)
  if twice < den ∨ (twice = den ∧ d % 2 = 0) then d else d + 1

/-- The bits of the double nearest to `num / den`, unless it is too large. -/
def nearestQuotient? (num den : Nat) : Option Nat :=
  if num = 0 then some 0
  else
    let guess : Int := (num.log2 : Int) - den.log2 - 53
    let scaled (q : Int) : Nat × Nat := (num * Nat.pow 2 (-q).toNat, den * Nat.pow 2 q.toNat)
    let (n, d) := scaled guess
    let q := max (if Nat.pow 2 53 ≤ n / d then guess + 1 else guess) (-1074)
    let (n, d) := scaled q
    let bits := (q + 1074).toNat * Nat.pow 2 52 + roundQuotient n d
    if bits < 0x7ff0000000000000 then some bits else none

/-- The bits of the double nearest to `n * 10 ^ e`, unless it is too large.
Exponents far beyond the range of doubles are decided without computing the power. -/
def nearest? (n : Nat) (e : Int) : Option Nat :=
  if n = 0 then some 0
  else
    let size : Int := (Nat.toDigits 10 n).length + e
    if 310 < size then none
    else if size < -330 then some 0
    else nearestQuotient? (n * Nat.pow 10 e.toNat) (Nat.pow 10 (-e).toNat)

end Decimal

namespace Double

def digitsValue (ds : Text) : Nat := ds.foldl (fun acc b => acc * 10 + (b.toNat - 0x30)) 0

/-- The value of the digits of an exponent, of which five count, not counting zeros in
front. -/
def exponentValue (ds : Text) : Nat := digitsValue ((ds.dropWhile (· == 0x30)).take 5)

/-- The double nearest to a literal `digits.digits`, with an exponent `e`, `e+` or
`e-` and digits or without one, unless it is too large. -/
def ofLiteral? (t : Text) : Option Double :=
  let isDigit (b : UInt8) : Bool := decide (0x30 ≤ b ∧ b ≤ 0x39)
  let whole := t.takeWhile isDigit
  let rest := (t.dropWhile isDigit).drop 1
  let places := rest.takeWhile isDigit
  let exponent : Int := match rest.dropWhile isDigit with
    | _ :: 0x2d :: ds => -(exponentValue ds)
    | _ :: 0x2b :: ds => exponentValue ds
    | _ :: ds => exponentValue ds
    | [] => 0
  (Decimal.nearest? (digitsValue (whole ++ places)) (exponent - places.length)).map fun n =>
    ⟨n.toUInt64⟩

end Double

end ImpCompiler
