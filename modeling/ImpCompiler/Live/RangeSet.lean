import ImpCompiler.Text

/-!
# Live.RangeSet — sets of integers as ranges

A set of integers is kept as half-open ranges in increasing order that neither
overlap nor touch.
-/

namespace ImpCompiler

set_option autoImplicit false

/-- The integers from `start` up to but not including `stop`. -/
structure Range where
  start : Int
  stop : Int
  deriving DecidableEq, Repr

namespace Range

def text (r : Range) : Text := "[" ++ Text.ofInt r.start ++ "," ++ Text.ofInt r.stop ++ ")"

def hull (r s : Range) : Range := ⟨min r.start s.start, max r.stop s.stop⟩

end Range

structure RangeSet where
  ranges : List Range
  deriving DecidableEq, Repr

namespace RangeSet

def empty : RangeSet := ⟨[]⟩

/-- Puts a range among ranges, joining those it overlaps or touches. -/
def insert (r : Range) : List Range → List Range
  | [] => [r]
  | s :: rest =>
    if s.stop < r.start then s :: insert r rest
    else if r.stop < s.start then r :: s :: rest
    else insert (r.hull s) rest

/-- The set with the integers of a range; an empty range adds none. -/
def add (s : RangeSet) (r : Range) : RangeSet :=
  if r.stop ≤ r.start then s else ⟨insert r s.ranges⟩

def union (s t : RangeSet) : RangeSet := t.ranges.foldl add s

/-- Whether two lists of ranges have an integer in common: the range that ends first
is left behind until two overlap. -/
def meet : List Range → List Range → Bool
  | a :: as, b :: bs =>
    if a.start < b.stop ∧ b.start < a.stop then true
    else if a.stop ≤ b.stop then meet as (b :: bs)
    else meet (a :: as) bs
  | _, _ => false
termination_by xs ys => xs.length + ys.length

def intersects (s t : RangeSet) : Bool := meet s.ranges t.ranges

/-- Whether an integer is in the set: the first range that ends behind it decides. -/
def covers (s : RangeSet) (i : Int) : Bool :=
  match s.ranges.find? fun r => decide (i < r.stop) with
  | some r => decide (r.start ≤ i)
  | none => false

/-- The least integer of the set; -1 if it is empty. -/
def start (s : RangeSet) : Int :=
  match s.ranges.head? with
  | some r => r.start
  | none => -1

/-- The end of the last range; -1 if the set is empty. -/
def stop (s : RangeSet) : Int :=
  match s.ranges.getLast? with
  | some r => r.stop
  | none => -1

def text (s : RangeSet) : Text := Text.joinWith " " (s.ranges.map Range.text)

end RangeSet

end ImpCompiler
