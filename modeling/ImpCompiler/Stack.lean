/-!
# Stack — last in, first out

A stack of values that also shows the values below its top, counted from 1 at the
top.
-/

namespace ImpCompiler

set_option autoImplicit false

/-- A stack, its top first. -/
structure Stack (α : Type) where
  items : List α
  deriving Repr

namespace Stack

variable {α : Type}

def empty : Stack α := ⟨[]⟩

/-- Puts a value on top; nothing is pushed where there is none. -/
def push (s : Stack α) : Option α → Stack α
  | some a => ⟨a :: s.items⟩
  | none => s

def pop (s : Stack α) : Option α × Stack α := (s.items.head?, ⟨s.items.tail⟩)

def peek (s : Stack α) : Option α := s.items.head?

def size (s : Stack α) : Nat := s.items.length

/-- The value in place `n` from the top, which is in place 1. -/
def get? (s : Stack α) (n : Int) : Option α :=
  if 1 ≤ n then s.items[(n - 1).toNat]? else none

end Stack

end ImpCompiler
