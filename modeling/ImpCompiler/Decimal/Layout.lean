import ImpCompiler.Double
import ImpCompiler.Decimal.Shortest

/-!
# Decimal.Layout — how a double is written

A double is written with the fewest digits that read back. From the fifth place
behind the point and from a million on the number has an exponent, with a sign and
at least two digits; in between it has none. There is no point without a digit
behind it.
-/

namespace ImpCompiler

namespace Decimal

set_option autoImplicit false

/-- Which decimal exponents are written without an exponent, and how long an
exponent is. -/
structure Style where
  lowest : Int
  beyond : Int
  exponentDigits : Nat

def listing : Style := ⟨-4, 6, 2⟩

/-- The digits `ds` with the point behind the first of them. -/
def pointAfterFirst : Text → Text
  | [] => []
  | [d] => [d]
  | d :: ds => d :: ("." ++ ds)

def Digits.text (style : Style) (d : Digits) : Text :=
  let ds := Text.ofNat d.digits
  let e : Int := d.exponent + ds.length - 1
  if e < style.lowest ∨ style.beyond ≤ e then
    let size := Text.ofNat e.natAbs
    let sign : Text := if e < 0 then "-" else "+"
    pointAfterFirst ds ++ "e" ++ sign ++ Text.zeros (style.exponentDigits - size.length) ++ size
  else if e < 0 then
    "0." ++ Text.zeros (-e - 1).toNat ++ ds
  else if 0 ≤ d.exponent then
    ds ++ Text.zeros d.exponent.toNat
  else
    ds.take (e + 1).toNat ++ "." ++ ds.drop (e + 1).toNat

end Decimal

namespace Double

def text (x : Double) : Text :=
  if x.isNaN then "NaN"
  else if x.isInf then if x.isNegative then "-Inf" else "+Inf"
  else
    let sign : Text := if x.isNegative then "-" else []
    let (m, q) := x.magnitude
    if m = 0 then sign ++ "0"
    else sign ++ (Decimal.shortest m q (-1074)).text Decimal.listing

end Double

end ImpCompiler
