import ImpCompiler.Code.Instr
import ImpCompiler.Code.Label

/-!
# Code.Func — functions and modules

A function keeps every instruction it ever got in its arena; blocks list the numbers
of theirs. It also keeps every block, while the layout lists those that are part of
the function: dropping a block takes it out of the layout.
-/

namespace ImpCompiler

set_option autoImplicit false

/-- A sequence of instructions and its neighbours in the flow of control. -/
structure Block where
  label : Text
  instrs : List Nat
  preds : List BlockId
  succs : List BlockId
  deriving Repr, Inhabited

/-- A variable on the stack. -/
structure Slot where
  name : Text
  type : DataType
  deriving DecidableEq, Repr

structure Func where
  name : Text
  ret : DataType
  params : List DataType
  slots : List Slot
  blocks : Array Block
  /-- The blocks of the function, the entry first. -/
  layout : List BlockId
  arena : Array Instr
  /-- The blocks in the order of the last numbering. -/
  order : List BlockId
  labels : Labels
  deriving Repr

namespace Func

def empty (name : Text) (ret : DataType) (params : List DataType) : Func :=
  ⟨name, ret, params, [], #[], [], #[], [], Labels.empty⟩

def block (f : Func) (b : BlockId) : Block := f.blocks.getD b default

def label (f : Func) (b : BlockId) : Text := (f.block b).label

def instr? (f : Func) : Value → Option Instr
  | .ofNat n => f.arena[n]?
  | .negSucc _ => none

/-- The instruction that ends a block, if its last one does. -/
def terminator? (f : Func) (b : BlockId) : Option Instr :=
  match (f.block b).instrs.getLast?.bind fun n => f.arena[n]? with
  | some i => if i.isTerminator then some i else none
  | none => none

/-- The numbers of the instructions in the blocks of the function. -/
def instrs (f : Func) : List Nat := f.layout.flatMap fun b => (f.block b).instrs

/-- The instructions in the blocks of the function, with their numbers. -/
def code (f : Func) : List (Nat × Instr) :=
  f.instrs.filterMap fun n => f.arena[n]?.map fun i => (n, i)

def mapArena (f : Func) (g : Nat → Instr → Instr) : Func := { f with arena := f.arena.mapIdx g }

def setArgs (f : Func) (n : Nat) (args : List Value) : Func :=
  { f with arena := f.arena.modify n fun i => { i with args } }

def mapBlocks (f : Func) (g : BlockId → Block → Block) : Func :=
  { f with blocks := f.blocks.mapIdx g }

end Func

/-- A compiled program. -/
structure Module where
  name : Text
  functions : List Func
  deriving Repr

namespace Module

def defaultName : Text := "LIR Module"

def empty (name : Text) : Module := ⟨if name.isEmpty then defaultName else name, []⟩

def function? (m : Module) (name : Text) : Option Func := m.functions.find? fun f => f.name == name

/-- Values without those that occurred before, in order. -/
def distinct (seen : List Text) : List Text → List Text
  | [] => []
  | s :: rest => if seen.contains s then distinct seen rest else s :: distinct (s :: seen) rest

/-- The string literals of a function, also those of removed instructions, in order. -/
def stringsOf (f : Func) : List Text :=
  f.arena.toList.filterMap fun i => match i.op with
    | .string s => some s
    | _ => none

/-- The distinct string literals of a module, in order. -/
def strings (m : Module) : List Text := distinct [] (m.functions.flatMap stringsOf)

end Module

end ImpCompiler
