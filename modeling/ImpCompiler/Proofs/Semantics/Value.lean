import ImpCompiler.Code.Instr
import ImpCompiler.Tree
import Mathlib.Control.Monad.Basic

/-!
# Proofs.Semantics.Value — values, faults and computations

What a running program works on, whether it runs as a tree or as code. Numbers are
64-bit integers and doubles; arrays live in a heap, where an array is the list of its
elements and its address is its place in the heap. A built-in function is known by
its calls only: the trace lists them with their arguments, and an oracle answers
them, so that what is read is arbitrary.

A computation may end with an answer, end with a fault, or be given up because it
takes longer than it may.
-/

namespace ImpCompiler

set_option autoImplicit false

inductive Val where
  | int (v : Int64)
  | double (v : Double)
  | bool (v : Bool)
  | string (s : Text)
  | null
  | array (address : Nat)
  /-- What a function returns that returns nothing. -/
  | unit
  deriving DecidableEq, Repr

/-- Why a run ends before it is through. -/
inductive Fault where
  | divisionByZero
  | nullAccess
  | outOfRange
  | negativeSize
  /-- Control gets to the end of a function that has to return a value. -/
  | missingReturn
  /-- An operation on values that it is not for, or that are not there. -/
  | mismatch
  deriving DecidableEq, Repr

/-- The value of a variable or an element of an array that was given none. -/
def Ty.initialValue (t : Ty) : Val :=
  match t.kind with
  | .base .int => .int 0
  | .base .double => .double Double.zero
  | .base .boolean => .bool false
  | .base .string | .array => .null
  | .base .void | .base .error => .unit

/-- What a slot or an element of a data type holds before anything is stored. -/
def DataType.initialValue : DataType → Val
  | .int => .int 0
  | .double => .double Double.zero
  | .bool => .bool false
  | .ptr => .null
  | .void => .unit

/-! ## Arithmetic -/

namespace Val

def add : Val → Val → Except Fault Val
  | .int x, .int y => .ok (.int (x + y))
  | .double x, .double y => .ok (.double (x.add y))
  | _, _ => .error .mismatch

def sub : Val → Val → Except Fault Val
  | .int x, .int y => .ok (.int (x - y))
  | .double x, .double y => .ok (.double (x.sub y))
  | _, _ => .error .mismatch

def mul : Val → Val → Except Fault Val
  | .int x, .int y => .ok (.int (x * y))
  | .double x, .double y => .ok (.double (x.mul y))
  | _, _ => .error .mismatch

def div : Val → Val → Except Fault Val
  | .int x, .int y => if y = 0 then .error .divisionByZero else .ok (.int (x / y))
  | .double x, .double y => .ok (.double (x.div y))
  | _, _ => .error .mismatch

def rem : Val → Val → Except Fault Val
  | .int x, .int y => if y = 0 then .error .divisionByZero else .ok (.int (x % y))
  | _, _ => .error .mismatch

def neg : Val → Except Fault Val
  | .int x => .ok (.int (-x))
  | .double x => .ok (.double x.neg)
  | _ => .error .mismatch

def truth : Val → Except Fault Bool
  | .bool b => .ok b
  | _ => .error .mismatch

def equal : Val → Val → Except Fault Bool
  | .int x, .int y => .ok (x == y)
  | .double x, .double y => .ok (x.eq y)
  | .bool x, .bool y => .ok (x == y)
  | _, _ => .error .mismatch

def less : Val → Val → Except Fault Bool
  | .int x, .int y => .ok (decide (x < y))
  | .double x, .double y => .ok (x.lt y)
  | _, _ => .error .mismatch

def lessEq : Val → Val → Except Fault Bool
  | .int x, .int y => .ok (decide (x ≤ y))
  | .double x, .double y => .ok (x.le y)
  | _, _ => .error .mismatch

end Val

/-! ## Arrays -/

/-- The arrays that were made, by their addresses. -/
abbrev Heap := List (List Val)

namespace Heap

def array (h : Heap) : Val → Except Fault (Nat × List Val)
  | .array a =>
    match h[a]? with
    | some elems => .ok (a, elems)
    | none => .error .mismatch
  | .null => .error .nullAccess
  | _ => .error .mismatch

def lengthOf (h : Heap) (array : Val) : Except Fault Val := do
  let (_, elems) ← h.array array
  return .int (Int64.ofNat elems.length)

/-- The place that an index means in an array of `n` elements. -/
def place (n : Nat) : Val → Except Fault Nat
  | .int i => if 0 ≤ i.toInt ∧ i.toInt < n then .ok i.toInt.toNat else .error .outOfRange
  | _ => .error .mismatch

def load (h : Heap) (array index : Val) : Except Fault Val := do
  let (_, elems) ← h.array array
  let k ← place elems.length index
  return elems.getD k .unit

def store (h : Heap) (array index value : Val) : Except Fault Heap := do
  let (a, elems) ← h.array array
  let k ← place elems.length index
  return h.set a (elems.set k value)

def sizes : List Val → Except Fault (List Nat)
  | [] => .ok []
  | .int n :: rest =>
    if n.toInt < 0 then .error .negativeSize else do
      let ns ← sizes rest
      return n.toInt.toNat :: ns
  | _ :: _ => .error .mismatch

/-- `n` values that are made one after another. -/
def rows (make : Heap → Val × Heap) : Nat → Heap → List Val × Heap
  | 0, h => ([], h)
  | n + 1, h =>
    let (v, h) := make h
    let (vs, h) := rows make n h
    (v :: vs, h)

/-- An array with the given sizes of its dimensions, whose elements are arrays of
their own but for the innermost ones. -/
def nest (elem : Val) : List Nat → Heap → Val × Heap
  | [], h => (elem, h)
  | n :: ns, h =>
    let (vs, h) := rows (nest elem ns) n h
    (.array h.length, h ++ [vs])

/-- A new array with `elem` in its innermost dimension. -/
def allocate (h : Heap) (elem : Val) (ns : List Val) : Except Fault (Val × Heap) := do
  let ns ← sizes ns
  return nest elem ns h

end Heap

/-! ## Calls of built-in functions -/

structure Event where
  name : Text
  args : List Val
  deriving DecidableEq, Repr

/-- What a run changes apart from its variables: the arrays, and the calls of built-in
functions so far. -/
structure World where
  heap : Heap
  trace : List Event
  deriving DecidableEq, Repr

/-- What built-in functions answer. It may depend on all calls so far, of which the
one to be answered is the last. -/
abbrev Oracle := List Event → Val

def World.record (w : World) (name : Text) (args : List Val) : World :=
  { w with trace := w.trace ++ [⟨name, args⟩] }

structure Outcome where
  answer : Except Fault Val
  world : World
  deriving DecidableEq

/-! ## Computations -/

inductive Result (α : Type) where
  | done (a : α) (w : World)
  | fault (f : Fault) (w : World)
  | unfinished

def Comp (α : Type) : Type := World → Result α

namespace Comp

variable {α β : Type}

def bind (x : Comp α) (f : α → Comp β) : Comp β := fun w =>
  match x w with
  | .done a w => f a w
  | .fault e w => .fault e w
  | .unfinished => .unfinished

instance : Monad Comp where
  pure a := fun w => .done a w
  bind := bind

def fail (e : Fault) : Comp α := fun w => .fault e w

def giveUp : Comp α := fun _ => .unfinished

def lift (r : Except Fault α) : Comp α :=
  match r with
  | .ok a => pure a
  | .error e => fail e

def onHeap (f : Heap → Except Fault α) : Comp α := fun w => lift (f w.heap) w

def changeHeap (f : Heap → Except Fault (α × Heap)) : Comp α := fun w =>
  match f w.heap with
  | .ok (a, h) => .done a { w with heap := h }
  | .error e => .fault e w

def builtin (oracle : Oracle) (name : Text) (args : List Val) : Comp Val := fun w =>
  .done (oracle (w.record name args).trace) (w.record name args)

end Comp

namespace Result

def outcome? : Result Val → Option Outcome
  | .done v w => some ⟨.ok v, w⟩
  | .fault e w => some ⟨.error e, w⟩
  | .unfinished => none

end Result

end ImpCompiler
