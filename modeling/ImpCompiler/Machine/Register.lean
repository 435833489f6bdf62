import ImpCompiler.Text

/-!
# Machine.Register — registers and register files

A machine has a bank of integer registers and a bank of floating point registers.
Some of each are temporaries, which the register file of a function hands out in a
fixed order and takes back.
-/

namespace ImpCompiler

set_option autoImplicit false

inductive RegClass where
  | int | float
  deriving DecidableEq, Repr

def RegClass.text : RegClass → Text
  | .int => "int"
  | .float => "float"

structure Register where
  number : Nat
  cls : RegClass
  name : Text
  deriving DecidableEq, Repr

structure Bank where
  cls : RegClass
  /-- The names of all registers, by number. -/
  names : List Text
  /-- The numbers of the temporaries, in the order they are handed out. -/
  temps : List Nat
  /-- The numbers of the registers in use. -/
  used : List Nat
  deriving Repr

namespace Bank

def register (b : Bank) (n : Nat) : Register := ⟨n, b.cls, b.names.getD n []⟩

/-- The first temporary that is not in use, which is in use afterwards. -/
def next (b : Bank) : Option Register × Bank :=
  match b.temps.find? fun n => !b.used.contains n with
  | some n => (some (b.register n), { b with used := n :: b.used })
  | none => (none, b)

def free (b : Bank) (n : Int) : Bank :=
  { b with used := b.used.filter fun m => (m : Int) != n }

/-- All temporaries that are not in use, which are in use afterwards. -/
def drain (b : Bank) : List Register × Bank :=
  let rest := b.temps.filter fun n => !b.used.contains n
  (rest.map b.register, { b with used := rest.reverse ++ b.used })

/-- At most the last `k` temporaries are left for handing out. -/
def keepLast (b : Bank) (k : Nat) : Bank :=
  { b with used := (b.temps.take (b.temps.length - k)).reverse ++ b.used }

end Bank

/-- The registers of a machine while a function is being allocated. -/
structure RegisterFile where
  arch : Text
  ints : Bank
  floats : Bank
  deriving Repr

namespace RegisterFile

def bank (f : RegisterFile) : RegClass → Bank
  | .int => f.ints
  | .float => f.floats

def setBank (f : RegisterFile) (b : Bank) : RegClass → RegisterFile
  | .int => { f with ints := b }
  | .float => { f with floats := b }

def next (f : RegisterFile) (c : RegClass) : Option Register × RegisterFile :=
  ((f.bank c).next.1, f.setBank (f.bank c).next.2 c)

def free (f : RegisterFile) (c : RegClass) (n : Int) : RegisterFile :=
  f.setBank ((f.bank c).free n) c

def drain (f : RegisterFile) (c : RegClass) : List Register × RegisterFile :=
  ((f.bank c).drain.1, f.setBank (f.bank c).drain.2 c)

end RegisterFile

end ImpCompiler
