/-!
# Assoc — finite maps

Small finite maps as lists of pairs, each key once, in the order the keys came in.
-/

namespace ImpCompiler

set_option autoImplicit false

/-- Finite maps as lists of pairs, each key once. -/
abbrev Assoc (κ α : Type) := List (κ × α)

namespace Assoc

variable {κ α : Type} [BEq κ]

/-- Gives a key a value, in the place it had or at the end. -/
def set (k : κ) (a : α) : Assoc κ α → Assoc κ α
  | [] => [(k, a)]
  | p :: rest => if p.1 == k then (k, a) :: rest else p :: set k a rest

def remove (k : κ) (m : Assoc κ α) : Assoc κ α := m.filter fun p => !(p.1 == k)

end Assoc

end ImpCompiler
