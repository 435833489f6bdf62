import ImpCompiler.Code.Func
import ImpCompiler.Proofs.Semantics.Value
import Mathlib.Logic.Function.Basic

/-!
# Proofs.Semantics.Machine — how code runs

Code runs instruction by instruction. An activation of a function has its arguments,
its slots and the storage for the values of its instructions; it reads the places of
the operands of an instruction and then writes the place of the instruction's own
value. Which place belongs to a value is a matter of the machine: with a place of its
own for every instruction it is the machine of virtual registers, and with the places
that were assigned to them it is the machine of a register file. What an instruction
does with the values of its operands is the same on all machines (`Op.effect`).

A call starts an activation with storage of its own, and the caller waits at the call
until it returns.
-/

namespace ImpCompiler

set_option autoImplicit false

/-! ## What instructions do -/

def Constant.value : Constant → Val
  | .int v => .int v
  | .double v => .double v
  | .bool v => .bool v
  | .null => .null

def ArithOp.apply : ArithOp → List Val → Except Fault Val
  | .add, [v, w] => v.add w
  | .sub, [v, w] => v.sub w
  | .mul, [v, w] => v.mul w
  | .div, [v, w] => v.div w
  | .rem, [v, w] => v.rem w
  | .neg, [v] => v.neg
  | .not, [v] => do return .bool !(← v.truth)
  | _, _ => .error .mismatch

def RelOp.apply (rel : RelOp) (v w : Val) : Except Fault Val :=
  match rel with
  | .eq => do return .bool (← v.equal w)
  | .ne => do return .bool !(← v.equal w)
  | .lt => do return .bool (← v.less w)
  | .le => do return .bool (← v.lessEq w)
  | .gt => do return .bool (← w.less v)
  | .ge => do return .bool (← w.lessEq v)

inductive Effect where
  /-- The instruction computes a value. -/
  | value (v : Val) (w : World)
  | store (slot : Nat) (v : Val)
  | jump (target : Nat)
  | call (name : Text) (args : List Val)
  | leave (v : Val)
  | fail (f : Fault)

namespace Effect

def ofValue (w : World) : Except Fault Val → Effect
  | .ok v => .value v w
  | .error f => .fail f

def ofHeap (w : World) : Except Fault (Val × Heap) → Effect
  | .ok (v, h) => .value v { w with heap := h }
  | .error f => .fail f

end Effect

/-- What an array holds behind the dimensions that were given a size. -/
def DataType.innermost (elem : DataType) (dims : Int) (sizes : Nat) : Val :=
  if (sizes : Int) < dims then .null else elem.initialValue

/-- What an operation does in an activation with the given arguments and slots, when
its operands have the values `vs`. -/
def Op.effect (args : List Val) (slots : Nat → Option Val) (w : World) :
    Op → List Val → Effect
  | .param n, [] =>
    match args[n]? with
    | some v => .value v w
    | none => .fail .mismatch
  | .const c, [] => .value c.value w
  | .string s, [] => .value (.string s) w
  | .load s, [] =>
    match slots s with
    | some v => .value v w
    | none => .fail .mismatch
  | .store s, [v] => .store s v
  | .arith op, vs => .ofValue w (op.apply vs)
  | .compare rel, [v, v'] => .ofValue w (rel.apply v v')
  | .copy, [v] => .value v w
  | .call name, vs => .call name vs
  | .newArray elem dims, ns => .ofHeap w (w.heap.allocate (elem.innermost dims ns.length) ns)
  | .arrayLen, [a] => .ofValue w (w.heap.lengthOf a)
  | .loadElem _, [a, k] => .ofValue w (w.heap.load a k)
  | .storeElem _, [a, k, v] => .ofHeap w (do return (.unit, ← w.heap.store a k v))
  | .branch b, [] => .jump b
  | .condBranch yes no, [v] =>
    match v.truth with
    | .ok b => .jump (if b then yes else no)
    | .error f => .fail f
  | .ret, [] => .leave .unit
  | .ret, [v] => .leave v
  | .unreachable, [] => .fail .missingReturn
  | _, _ => .fail .mismatch

/-! ## States -/

/-- An activation of a function: its arguments, the instruction that is next, and what
the places of values and the slots hold. -/
structure Frame (κ : Type) where
  func : Func
  args : List Val
  block : Nat
  offset : Nat
  values : κ → Option Val
  slots : Nat → Option Val

/-- An activation with those that wait for it, or the end of a run. -/
inductive State (κ : Type) where
  | running (top : Frame κ) (callers : List (Frame κ)) (w : World)
  | ended (o : Outcome)

def State.isRunning {κ : Type} : State κ → Bool
  | .running .. => true
  | .ended _ => false

namespace Frame

variable {κ : Type}

/-- The instruction that is next, with its number. -/
def fetch (fr : Frame κ) : Option (Nat × Instr) := do
  let n ← (fr.func.block fr.block).instrs[fr.offset]?
  let i ← fr.func.arena[n]?
  return (n, i)

def jump (fr : Frame κ) (b : Nat) : Frame κ := { fr with block := b, offset := 0 }

def stored (fr : Frame κ) (s : Nat) (v : Val) : Frame κ :=
  { fr with offset := fr.offset + 1, slots := Function.update fr.slots s (some v) }

end Frame

/-- A machine: the functions it can call, the answers of built-in functions, the place
that belongs to the value of an instruction, and what an activation finds in its
places. -/
structure Machine (κ : Type) where
  function? : Text → Option Func
  oracle : Oracle
  place : Func → Nat → Option κ
  fresh : κ → Option Val

namespace Machine

variable {κ : Type} [DecidableEq κ] (M : Machine κ)

def read (fr : Frame κ) : Value → Option Val
  | .ofNat n => (M.place fr.func n).bind fr.values
  | .negSucc _ => none

def operands (fr : Frame κ) (i : Instr) : Option (List Val) := i.args.mapM (M.read fr)

/-- The places behind instruction `n`, which computed `v`. -/
def write (fr : Frame κ) (n : Nat) (i : Instr) (v : Val) : κ → Option Val :=
  if i.hasValue then
    match M.place fr.func n with
    | some k => Function.update fr.values k (some v)
    | none => fr.values
  else fr.values

/-- The activation behind its next instruction, which computed `v`. -/
def resume (fr : Frame κ) (v : Val) : Frame κ :=
  match fr.fetch with
  | some (n, i) => { fr with offset := fr.offset + 1, values := M.write fr n i v }
  | none => fr

def enter (f : Func) (args : List Val) : Frame κ :=
  ⟨f, args, f.layout.headD 0, 0, M.fresh, fun _ => none⟩

def giveBack (callers : List (Frame κ)) (v : Val) (w : World) : State κ :=
  match callers with
  | [] => .ended ⟨.ok v, w⟩
  | fr :: rest => .running (M.resume fr v) rest w

def perform (fr : Frame κ) (callers : List (Frame κ)) (w : World) : Effect → State κ
  | .value v w => .running (M.resume fr v) callers w
  | .store s v => .running (fr.stored s v) callers w
  | .jump b => .running (fr.jump b) callers w
  | .call name args =>
    match M.function? name with
    | some f => .running (M.enter f args) (fr :: callers) w
    | none =>
      .running (M.resume fr (M.oracle (w.record name args).trace)) callers (w.record name args)
  | .leave v => M.giveBack callers v w
  | .fail f => .ended ⟨.error f, w⟩

def effect (fr : Frame κ) (w : World) : Effect :=
  match fr.fetch with
  | none => .fail .mismatch
  | some (_, i) =>
    match M.operands fr i with
    | none => .fail .mismatch
    | some vs => i.op.effect fr.args fr.slots w vs

def step : State κ → State κ
  | .running fr callers w => M.perform fr callers w (M.effect fr w)
  | .ended o => .ended o

def run : Nat → State κ → State κ
  | 0, s => s
  | n + 1, s => run n (M.step s)

def start (f : Func) (args : List Val) (heap : Heap) : State κ :=
  .running (M.enter f args) [] ⟨heap, []⟩

/-- The function `name`, applied to `args` with the arrays of `heap` there, ends in the
outcome. -/
def Ends (name : Text) (args : List Val) (heap : Heap) (o : Outcome) : Prop :=
  ∃ f, M.function? name = some f ∧ ∃ n, M.run n (M.start f args heap) = .ended o

end Machine

/-- The machine with one virtual register for each instruction. -/
def Machine.virtual (function? : Text → Option Func) (oracle : Oracle) : Machine Nat :=
  ⟨function?, oracle, fun _ n => some n, fun _ => none⟩

/-- Where the value of an instruction is kept: a register is known by its class and its
number. -/
inductive Cell where
  | register (cls : RegClass) (number : Nat)
  | spill (slot : Nat)
  deriving DecidableEq

def Register.cell (r : Register) : Cell := .register r.cls r.number

def Loc.cell? : Loc → Option Cell
  | .unassigned => none
  | .register r => some r.cell
  | .spill k => some (.spill k)

/-- The machine that has nothing but the places that were assigned to values. An
activation finds anything in its places. -/
def Machine.located (function? : Text → Option Func) (oracle : Oracle)
    (fresh : Cell → Option Val) : Machine Cell :=
  ⟨function?, oracle, fun f n => f.arena[n]?.bind fun i => i.loc.cell?, fresh⟩

@[simp] theorem Machine.virtual_read (function? : Text → Option Func) (oracle : Oracle)
    (fr : Frame Nat) (n : Nat) : (virtual function? oracle).read fr (n : Value) = fr.values n :=
  rfl

end ImpCompiler
