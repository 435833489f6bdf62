/-!
# Sorted — lists in order

Lists are kept in an order by inserting every element in front of the first one it
comes before; equal elements stay in the order they came in.
-/

namespace ImpCompiler

set_option autoImplicit false

variable {α : Type}

/-- Puts an element in front of the first one that it comes before. -/
def insertSorted (before : α → α → Bool) (a : α) : List α → List α
  | [] => [a]
  | b :: rest => if before a b then a :: b :: rest else b :: insertSorted before a rest

def sorted (before : α → α → Bool) (xs : List α) : List α :=
  xs.foldl (fun ys a => insertSorted before a ys) []

end ImpCompiler
