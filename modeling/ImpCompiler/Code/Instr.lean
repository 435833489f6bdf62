import ImpCompiler.Double
import ImpCompiler.Machine.Register

/-!
# Code.Instr — instructions

A function is compiled to blocks of instructions. An instruction that computes a
value is the virtual register that holds it: its number in the function names the
value. Variables live in numbered slots of the stack, which are loaded and stored. A
block ends with a terminator: a branch, a return, or a mark that control never gets
there.
-/

namespace ImpCompiler

set_option autoImplicit false

/-- What a virtual register or a slot holds. -/
inductive DataType where
  | int | double | bool | ptr | void
  deriving DecidableEq, Repr, Inhabited

namespace DataType

def all : List DataType := [.int, .double, .bool, .ptr, .void]

def text : DataType → Text
  | .int => "int"
  | .double => "double"
  | .bool => "bool"
  | .ptr => "ptr"
  | .void => "void"

def regClass : DataType → RegClass
  | .double => .float
  | _ => .int

end DataType

inductive ArithOp where
  | add | sub | mul | div | rem | neg | not
  deriving DecidableEq, Repr

namespace ArithOp

def all : List ArithOp := [.add, .sub, .mul, .div, .rem, .neg, .not]

def text : ArithOp → Text
  | .add => "add"
  | .sub => "sub"
  | .mul => "mul"
  | .div => "div"
  | .rem => "rem"
  | .neg => "neg"
  | .not => "not"

end ArithOp

inductive RelOp where
  | eq | ne | lt | le | gt | ge
  deriving DecidableEq, Repr

namespace RelOp

def all : List RelOp := [.eq, .ne, .lt, .le, .gt, .ge]

def text : RelOp → Text
  | .eq => "eq"
  | .ne => "ne"
  | .lt => "lt"
  | .le => "le"
  | .gt => "gt"
  | .ge => "ge"

end RelOp

/-- The number of a block in its function. -/
abbrev BlockId := Nat

/-- The number of the instruction that computes a value. Operands are such numbers;
one that is not the number of an instruction names no value. -/
abbrev Value := Int

inductive Constant where
  | int (v : Int64)
  | double (v : Double)
  | bool (v : Bool)
  | null
  deriving DecidableEq, Repr

/-- What an instruction does, apart from its operands. -/
inductive Op where
  | param (number : Nat)
  | const (c : Constant)
  | string (value : Text)
  | load (slot : Nat)
  | store (slot : Nat)
  | arith (op : ArithOp)
  | compare (rel : RelOp)
  | copy
  | call (name : Text)
  | newArray (elem : DataType) (dims : Int)
  | arrayLen
  | loadElem (elem : DataType)
  | storeElem (elem : DataType)
  | branch (target : BlockId)
  | condBranch (yes no : BlockId)
  | ret
  | unreachable
  deriving DecidableEq, Repr

namespace Op

/-- The names of all operations in the order of their numbers. -/
def names : List Text :=
  ["param", "const", "string", "load", "store", "arith", "cmp", "copy", "call", "newarray",
   "arraylen", "loadelem", "storeelem", "br", "condbr", "ret", "unreachable"]

def number : Op → Nat
  | .param _ => 0
  | .const _ => 1
  | .string _ => 2
  | .load _ => 3
  | .store _ => 4
  | .arith _ => 5
  | .compare _ => 6
  | .copy => 7
  | .call _ => 8
  | .newArray .. => 9
  | .arrayLen => 10
  | .loadElem _ => 11
  | .storeElem _ => 12
  | .branch _ => 13
  | .condBranch .. => 14
  | .ret => 15
  | .unreachable => 16

def name (op : Op) : Text := names.getD op.number []

def isTerminatorNumber (n : Nat) : Bool := decide (13 ≤ n)

def isTerminator (op : Op) : Bool := isTerminatorNumber op.number

/-- Whether the operation computes something, if its type is not void. -/
def computes : Op → Bool
  | .store _ | .storeElem _ => false
  | op => !op.isTerminator

/-- The blocks that a terminator may go to, each once. -/
def targets : Op → List BlockId
  | .branch b => [b]
  | .condBranch b c => if b = c then [b] else [b, c]
  | _ => []

end Op

inductive Loc where
  | unassigned
  | register (r : Register)
  | spill (slot : Nat)
  deriving DecidableEq, Repr, Inhabited

namespace Loc

/-- The place with a register number and a spill slot, where a negative number is
none, and the name of the register. -/
def ofNumbers (register spill : Int) (name : Text) : Loc :=
  if 0 ≤ register then .register ⟨register.toNat, .int, name⟩
  else if 0 ≤ spill then .spill spill.toNat
  else .unassigned

def isAssigned : Loc → Bool
  | .unassigned => false
  | _ => true

def text : Loc → Text
  | .unassigned => "unassigned"
  | .register r => if r.name.isEmpty then "r" ++ Text.ofNat r.number else r.name
  | .spill n => "spill" ++ Text.ofNat n

end Loc

structure Instr where
  op : Op
  /-- The type of the value; void if there is none. -/
  type : DataType
  args : List Value
  /-- The block the instruction is in; none once it was removed. -/
  block : Option BlockId
  /-- The place in the numbering of the function, if it was numbered. -/
  index : Option Nat
  loc : Loc
  deriving Repr

namespace Instr

/-- Whether the instruction is a virtual register. -/
def hasValue (i : Instr) : Bool := i.type != .void && i.op.computes

def isTerminator (i : Instr) : Bool := i.op.isTerminator

end Instr

end ImpCompiler
