import ImpCompiler.Machine.Register

/-!
# Machine.Target — the machines

The registers of the two machines that code is made for, and which of them are
temporaries.
-/

namespace ImpCompiler

set_option autoImplicit false

inductive Arch where
  | aarch64 | riscv64
  deriving DecidableEq, Repr

namespace Arch

def name : Arch → Text
  | .aarch64 => "aarch64"
  | .riscv64 => "riscv64"

def number : Arch → Nat
  | .aarch64 => 1
  | .riscv64 => 2

def ofNumber? (n : Int) : Option Arch :=
  if n = 1 then some .aarch64 else if n = 2 then some .riscv64 else none

def unsupportedMessage (n : Int) : Text := "unsupported target architecture " ++ Text.ofInt n

end Arch

def numbersBetween (first last : Nat) : List Nat := List.range' first (last + 1 - first)

namespace Aarch64

/-- The integer registers with a use of their own, behind the numbered ones. -/
def specialNames : List Text := ["fp", "lr", "sp"]

def intNames : List Text := (List.range 29).map (fun n => "x" ++ Text.ofNat n) ++ specialNames

def floatNames : List Text := (List.range 32).map fun n => "d" ++ Text.ofNat n

def registers : RegisterFile where
  arch := Arch.aarch64.name
  ints := ⟨.int, intNames, numbersBetween 8 27, []⟩
  floats := ⟨.float, floatNames, numbersBetween 8 29, []⟩

end Aarch64

namespace Riscv64

def numbered (stem : Text) (first last : Nat) : List Text :=
  (numbersBetween first last).map fun n => stem ++ Text.ofNat n

/-- The integer registers with a use of their own, before the temporaries. -/
def specialNames : List Text := ["zero", "ra", "sp", "gp", "tp"]

/-- The frame pointer and the other of the first two saved registers. -/
def savedNames : List Text := ["fp", "s1"]

def intNames : List Text :=
  specialNames ++ numbered "t" 0 2 ++ savedNames ++ numbered "a" 0 7 ++ numbered "s" 2 11
    ++ numbered "t" 3 6

def floatNames : List Text :=
  numbered "ft" 0 7 ++ numbered "fs" 0 1 ++ numbered "fa" 0 7 ++ numbered "fs" 2 11
    ++ numbered "ft" 8 11

def registers : RegisterFile where
  arch := Arch.riscv64.name
  ints := ⟨.int, intNames, [5, 6, 7, 28, 29, 30, 9] ++ numbersBetween 18 27, []⟩
  floats := ⟨.float, floatNames, numbersBetween 0 9 ++ numbersBetween 18 30, []⟩

end Riscv64

/-- The register file of a machine with all registers free. -/
def Arch.registers : Arch → RegisterFile
  | .aarch64 => Aarch64.registers
  | .riscv64 => Riscv64.registers

end ImpCompiler
