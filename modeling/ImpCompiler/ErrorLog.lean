/-!
# ErrorLog — errors of several workers

Workers report their errors to a log in the order they come up; the first one speaks
for all.
-/

namespace ImpCompiler

set_option autoImplicit false

/-- The errors that were reported, in order. -/
structure ErrorLog (ε : Type) where
  errors : List ε
  deriving Repr

namespace ErrorLog

variable {ε : Type}

def empty : ErrorLog ε := ⟨[]⟩

/-- Reports an error, if there is one. -/
def append (log : ErrorLog ε) : Option ε → ErrorLog ε
  | some e => ⟨log.errors ++ [e]⟩
  | none => log

def size (log : ErrorLog ε) : Nat := log.errors.length

def first? (log : ErrorLog ε) : Option ε := log.errors.head?

end ErrorLog

end ImpCompiler
