/-!
# Decimal.Shortest — the fewest decimal digits that read back

The positive number `m * 2 ^ q` stands for all reals that round to it: those up to
half a step away, ends included when `m` is even. Of the decimal numbers in that
interval the one with the fewest digits is taken, of two with equally many the
nearer, and halfway between them the even one. The search goes down the decimal
grids `10 ^ j`: on every grid only the two neighbours of the number can be in the
interval when no coarser grid had one.
-/

namespace ImpCompiler.Decimal

set_option autoImplicit false

/-- The decimal number `digits * 10 ^ exponent`. -/
structure Digits where
  digits : Nat
  exponent : Int
  deriving DecidableEq, Repr

/-- `base ^ e` for an exponent that counts only if it is positive. -/
def power (base : Nat) (e : Int) : Nat := Nat.pow base e.toNat

/-- The interval of reals that round to a number, in quarters of its last binary
place. -/
structure Interval where
  low : Nat
  mid : Nat
  high : Nat
  /-- The exponent of a quarter of the last place. -/
  exponent : Int
  closed : Bool

/-- The interval around `m * 2 ^ q`; the step below a power of two is half as wide
unless `q` is the least exponent. -/
def interval (m : Nat) (q least : Int) : Interval where
  low := if m = Nat.pow 2 52 ∧ least < q then 4 * m - 1 else 4 * m - 2
  mid := 4 * m
  high := 4 * m + 2
  exponent := q - 2
  closed := m % 2 == 0

namespace Interval

/-- The multiple of `10 ^ j` in the interval that is nearest to its number, if there
is one. -/
def onGrid? (i : Interval) (j : Int) : Option Nat :=
  let scale := power 2 i.exponent * power 10 (-j)
  let unit := power 2 (-i.exponent) * power 10 j
  let low := i.low * scale
  let mid := i.mid * scale
  let high := i.high * scale
  let d := mid / unit
  let downFits := if i.closed then decide (low ≤ d * unit) else decide (low < d * unit)
  let upFits := if i.closed then decide ((d + 1) * unit ≤ high) else decide ((d + 1) * unit < high)
  match downFits, upFits with
  | true, true =>
    let twice := 2 * (mid - d * unit)
    if twice < unit ∨ (twice = unit ∧ d % 2 = 0) then some d else some (d + 1)
  | true, false => some d
  | false, true => some (d + 1)
  | false, false => none

/-- The first hit on the grids `10 ^ j`, `10 ^ (j - 1)`, …, at most `n` of them. -/
def search (i : Interval) : Nat → Int → Digits
  | 0, j => ⟨i.mid / 4, j⟩
  | n + 1, j =>
    match i.onGrid? j with
    | some d => ⟨d, j⟩
    | none => search i n (j - 1)

end Interval

/-- A decimal exponent above the number `m * 2 ^ q`, and less than three above it. -/
def ceiling (m : Nat) (q : Int) : Int :=
  ((m.log2 : Int) + 1 + q) * 30103 / 100000 + 1

/-- The shortest decimal number that rounds to `m * 2 ^ q`, where `m` is positive
and `least` is the least binary exponent. Seventeen digits always suffice. -/
def shortest (m : Nat) (q least : Int) : Digits :=
  (interval m q least).search 21 (ceiling m q)

end ImpCompiler.Decimal
