import ImpCompiler.Assoc
import ImpCompiler.Code.Printer
import ImpCompiler.Live.RangeSet
import ImpCompiler.Sorted

/-!
# Live.Intervals — where values are live

Every value has the set of instruction numbers at which it is live. Values may be
joined into classes; each class has one representative, which owns the set of the
whole class. A joined value points to another of its class, and following the
pointers leads to the representative.
-/

namespace ImpCompiler

set_option autoImplicit false

structure Intervals where
  /-- The name of the function. -/
  function : Text
  sets : Assoc Value RangeSet
  /-- The pointers of joined values. -/
  parents : Assoc Value Value
  deriving Repr

namespace Intervals

def empty (function : Text) : Intervals := ⟨function, [], []⟩

/-- The end of the pointers from a value, at most `n` of them. -/
def root (parents : Assoc Value Value) : Nat → Value → Value
  | 0, v => v
  | n + 1, v =>
    match parents.lookup v with
    | none => v
    | some p => root parents n p

/-- Lets every value on the way from `v` to `r` point to `r`; the way has at most
`n` steps. -/
def compress (r : Value) : Nat → Value → Assoc Value Value → Assoc Value Value
  | 0, _, parents => parents
  | n + 1, v, parents =>
    if v = r then parents
    else
      match parents.lookup v with
      | none => parents
      | some p => compress r n p (Assoc.set v r parents)

def representative (iv : Intervals) (v : Value) : Value := root iv.parents iv.parents.length v

/-- The representative of a value; the pointers on the way to it are shortened. -/
def find (iv : Intervals) (v : Value) : Value × Intervals :=
  let r := iv.representative v
  (r, { iv with parents := compress r iv.parents.length v iv.parents })

def add (iv : Intervals) (v : Value) (r : Range) : Intervals :=
  let (w, iv) := iv.find v
  { iv with sets := Assoc.set w (((iv.sets.lookup w).getD RangeSet.empty).add r) iv.sets }

/-- The set of the class of a value. -/
def set? (iv : Intervals) (v : Value) : Option RangeSet := iv.sets.lookup (iv.representative v)

/-- Whether two sets, if both are there, have a number in common. -/
def clash : Option RangeSet → Option RangeSet → Bool
  | some s, some t => s.intersects t
  | _, _ => false

/-- Joins the class of `b` to that of `a`, unless their sets meet or `compatible`
refuses the representatives. The answer is whether they are in one class afterwards. -/
def join (iv : Intervals) (a b : Value) (compatible : Value → Value → Bool) : Bool × Intervals :=
  let (ra, iv) := iv.find a
  let (rb, iv) := iv.find b
  if ra = rb then (true, iv)
  else
    let sa := iv.sets.lookup ra
    let sb := iv.sets.lookup rb
    if clash sa sb then (false, iv)
    else if !compatible ra rb then (false, iv)
    else
      let sets := match sb with
        | some t => Assoc.remove rb (Assoc.set ra ((sa.getD RangeSet.empty).union t) iv.sets)
        | none => iv.sets
      (true, { iv with sets, parents := Assoc.set rb ra iv.parents })

/-- Whether the pair `p` comes before `q`: by the start of the set, then by the
value. -/
def earlier (p q : Value × RangeSet) : Bool :=
  decide (p.2.start < q.2.start) || (p.2.start == q.2.start && decide (p.1 < q.1))

/-- The representatives with their sets, by the starts of the sets. -/
def entries (iv : Intervals) : List (Value × RangeSet) := sorted earlier iv.sets

/-- The representatives by the starts of their sets. -/
def values (iv : Intervals) : List Value := iv.entries.map Prod.fst

/-- The other members of the class of a representative, in order. -/
def joined (iv : Intervals) (r : Value) : List Value :=
  sorted (fun a b => decide (a < b))
    ((iv.parents.map Prod.fst).filter fun v => iv.representative v == r)

def text (iv : Intervals) : Text :=
  "intervals " ++ iv.function ++ ":\n" ++ Text.concatMap iv.entries fun (v, s) =>
    let others := iv.joined v
    let members : Text :=
      if others.isEmpty then []
      else " joined" ++ Text.concatMap others fun w => " " ++ valueText w
    "\t" ++ valueText v ++ ": " ++ s.text ++ members ++ "\n"

end Intervals

end ImpCompiler
