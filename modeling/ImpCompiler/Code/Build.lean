import ImpCompiler.Code.Func

/-!
# Code.Build — making functions

A function grows by blocks, slots and instructions. `Builder` is the monad of the steps
that make them: a step checks something, or it changes the function, and what was changed
before a check fails stays changed. `Builder.create` appends the instruction of a request
to a block, after checking that its operands are values of this function and of the types
the operation takes, and that its targets are blocks of this function.
-/

namespace ImpCompiler

set_option autoImplicit false

/-- What a request names as an operand: nothing, an instruction of the same
function, or one of another function. -/
inductive Operand where
  | missing
  | own (n : Nat)
  | foreign (owner : Text) (i : Instr)

/-- What a request names as a block to go to: nothing, a block of the same function, or
one of another function. -/
inductive Destination where
  | missing
  | own (b : BlockId)
  | foreign (owner : Text) (b : BlockId)

inductive Request where
  | param (number : Int)
  | int (v : Int64)
  | double (v : Double)
  | bool (v : Bool)
  | null
  | string (s : Text)
  | load (slot : Int)
  | store (slot : Int) (v : Operand)
  | arith (op : ArithOp) (x y : Operand)
  | neg (x : Operand)
  | not (x : Operand)
  | compare (rel : RelOp) (x y : Operand)
  | copy (x : Operand)
  | call (name : Text) (ret : DataType) (args : List Operand)
  | newArray (elem : DataType) (dims : Int) (sizes : List Operand)
  | arrayLen (a : Operand)
  | loadElem (a i : Operand) (type : DataType)
  | storeElem (a i v : Operand)
  | branch (target : Destination)
  | condBranch (cond : Operand) (yes no : Destination)
  | ret (v : Option Operand)
  | unreachable

inductive BuildError where
  | noOperand (k : Nat) (request : Text)
  | notValue (k : Nat) (op : Text) (request : Text)
  | foreignOperand (k : Nat) (request owner function : Text)
  /-- The operand was removed from its block. -/
  | detached
  | noInstr (function : Text) (n : Int)
  | noParam (function : Text) (n : Int)
  | loadSlot (function : Text) (slot : Int)
  | storeSlot (function : Text) (slot : Int)
  | slotType (got : DataType) (slot : Slot)
  | unaryArith (op : ArithOp)
  | differentTypes (x y : DataType) (request : Text)
  | notBool (got : DataType)
  | sizeCount (sizes : Nat) (dims : Int)
  | operandType (k : Nat) (request : Text) (got expected : DataType)
  | branchTarget (function block : Text)
  | condBranchTarget (function block : Text)
  | returnType (function : Text) (expected got : DataType)
  | returnNothing (function : Text) (expected : DataType)
  | voidSlot (function slot : Text)
  | labelKind (n : Int)

namespace BuildError

def message : BuildError → Text
  | .noOperand k request =>
    "operand " ++ Text.ofNat k ++ " is <nil>, cannot use as input to " ++ request
  | .notValue k op request =>
    "operand " ++ Text.ofNat k ++ " is not a value, cannot use " ++ op ++ " as input to " ++ request
  | .foreignOperand k request owner function =>
    "operand " ++ Text.ofNat k ++ " of " ++ request ++ " belongs to function " ++ owner ++ ", not "
      ++ function
  | .detached => "operand was removed"
  | .noInstr function n =>
    "function " ++ function ++ ": instruction " ++ Text.ofInt n ++ " out of range"
  | .noParam function n => "function " ++ function ++ " has no parameter " ++ Text.ofInt n
  | .loadSlot function slot =>
    "function " ++ function ++ ": load from undefined slot " ++ Text.ofInt slot
  | .storeSlot function slot =>
    "function " ++ function ++ ": store to undefined slot " ++ Text.ofInt slot
  | .slotType got slot =>
    "cannot store " ++ got.text ++ " to slot " ++ slot.name ++ " of type " ++ slot.type.text
  | .unaryArith op => "unexpected unary operation " ++ op.text ++ " in CreateArithmetic"
  | .differentTypes x y request =>
    "operand types " ++ x.text ++ " and " ++ y.text ++ " differ in " ++ request
  | .notBool got => "operand 1 is " ++ got.text ++ ", CreateNot expects bool"
  | .sizeCount sizes dims =>
    "CreateNewArray: " ++ Text.ofNat sizes ++ " sizes for " ++ Text.ofInt dims ++ " dimensions"
  | .operandType k request got expected =>
    "operand " ++ Text.ofNat k ++ " of " ++ request ++ " is " ++ got.text ++ ", expected "
      ++ expected.text
  | .branchTarget function block =>
    "function " ++ function ++ ", block " ++ block ++ ": invalid branch target"
  | .condBranchTarget function block =>
    "function " ++ function ++ ", block " ++ block ++ ": invalid conditional branch target"
  | .returnType function expected got =>
    "function " ++ function ++ " returns " ++ expected.text ++ ", cannot return " ++ got.text
  | .returnNothing function expected =>
    "function " ++ function ++ " returns " ++ expected.text ++ ", got void return"
  | .voidSlot function slot => "function " ++ function ++ ": cannot allocate void slot " ++ slot
  | .labelKind n => LabelKind.unknownMessage n

end BuildError

/-- A value of the function that an operand names. -/
structure ValueRef where
  number : Nat
  type : DataType

namespace Func

/-- Operand `k` of a request, which has to be a value in a block of the function. -/
def operand (f : Func) (request : Text) (k : Nat) : Operand → Except BuildError ValueRef
  | .missing => throw (.noOperand k request)
  | .own n =>
    match f.arena[n]? with
    | none => throw (.noInstr f.name n)
    | some i =>
      if !i.hasValue then throw (.notValue k i.op.name request)
      else if i.block.isNone then throw .detached
      else return ⟨n, i.type⟩
  | .foreign owner i =>
    if !i.hasValue then throw (.notValue k i.op.name request)
    else if i.block.isNone then throw .detached
    else throw (.foreignOperand k request owner f.name)

/-- Operand `k` of a request, which also has to be of a type. -/
def operandOf (f : Func) (request : Text) (k : Nat) (type : DataType) (o : Operand) :
    Except BuildError ValueRef := do
  let v ← f.operand request k o
  if v.type = type then return v else throw (.operandType k request v.type type)

/-- The operands of a call from operand `k` on. -/
def arguments (f : Func) (request : Text) (k : Nat) :
    List Operand → Except BuildError (List ValueRef)
  | [] => return []
  | o :: rest => do
    let v ← f.operand request k o
    return v :: (← f.arguments request (k + 1) rest)

/-- The sizes of an array from operand `k` on, which have to be integers. -/
def sizes (f : Func) (request : Text) (k : Nat) : List Operand → Except BuildError (List ValueRef)
  | [] => return []
  | o :: rest => do
    let v ← f.operandOf request k .int o
    return v :: (← f.sizes request (k + 1) rest)

/-- The values that a return hands back, which have to be of the type that the function
returns. -/
def returned (f : Func) : Option Operand → Except BuildError (List ValueRef)
  | none => if f.ret = .void then return [] else throw (.returnNothing f.name f.ret)
  | some o => do
    let v ← f.operand "CreateReturn" 1 o
    if v.type = f.ret then return [v] else throw (.returnType f.name f.ret v.type)

def slot? (f : Func) (n : Int) : Option (Nat × Slot) :=
  if 0 ≤ n then f.slots[n.toNat]?.map fun s => (n.toNat, s) else none

def param? (f : Func) (n : Int) : Option (Nat × DataType) :=
  if 0 ≤ n then f.params[n.toNat]?.map fun t => (n.toNat, t) else none

/-- The block that a request names, if it is a block of this function. -/
def destination? (f : Func) : Destination → Option BlockId
  | .missing => none
  | .own b => if b < f.blocks.size then some b else none
  | .foreign _ _ => none

def destinations? (f : Func) (yes no : Destination) : Option (BlockId × BlockId) := do
  return (← f.destination? yes, ← f.destination? no)

def append (f : Func) (b : BlockId) (op : Op) (type : DataType) (args : List Value) : Func :=
  { f with
    arena := f.arena.push ⟨op, type, args, some b, none, .unassigned⟩
    blocks := f.blocks.modify b fun k => { k with instrs := k.instrs ++ [f.arena.size] } }

/-- Appends an empty block to the layout; the answer is its number. -/
def pushBlock (f : Func) (label : Text) : Func × BlockId :=
  ({ f with
      blocks := f.blocks.push ⟨label, [], [], []⟩
      layout := f.layout ++ [f.blocks.size] },
   f.blocks.size)

/-- Appends a block with a label that is handed out for it. -/
def addBlock (f : Func) (k : LabelKind) : Func × BlockId :=
  let (label, labels) := f.labels.fresh k
  { f with labels }.pushBlock label

end Func

/-- Steps that make a function. What was changed before an error stays changed. -/
abbrev Builder := ExceptT BuildError (StateM Func)

namespace Builder

/-- Reads something off the function, which may be refused. -/
def check {α : Type} (c : Func → Except BuildError α) : Builder α := do
  match c (← get) with
  | .ok a => return a
  | .error e => throw e

/-- What is found in the function, or the error if nothing is. -/
def find {α : Type} (look : Func → Option α) (e : Func → BuildError) : Builder α :=
  check fun f => match look f with
    | some a => return a
    | none => throw (e f)

def require (p : Prop) [Decidable p] (e : BuildError) : Builder Unit :=
  check fun _ => if p then return () else throw e

/-- Appends an instruction that has no operands yet; the answer is its number. -/
def add (b : BlockId) (op : Op) (type : DataType) : Builder Nat :=
  modifyGet fun f => (f.arena.size, f.append b op type [])

/-- Gives instruction `n` its operands; the answer is `n` again. -/
def operands (n : Nat) (args : List ValueRef) : Builder Nat := do
  modify fun f => f.setArgs n (args.map fun v => (v.number : Value))
  return n

/-- Appends the instruction of a request to a block; the answer is its number. -/
def create (b : BlockId) : Request → Builder Nat
  | .param n => do
    let (k, t) ← find (·.param? n) (.noParam ·.name n)
    add b (.param k) t
  | .int v => add b (.const (.int v)) .int
  | .double v => add b (.const (.double v)) .double
  | .bool v => add b (.const (.bool v)) .bool
  | .null => add b (.const .null) .ptr
  | .string s => add b (.string s) .ptr
  | .load n => do
    let (k, s) ← find (·.slot? n) (.loadSlot ·.name n)
    add b (.load k) s.type
  | .store n o => do
    let (k, s) ← find (·.slot? n) (.storeSlot ·.name n)
    let v ← check (·.operand "CreateStore" 1 o)
    require (v.type = s.type) (.slotType v.type s)
    operands (← add b (.store k) .void) [v]
  | .arith op x y => do
    require (op ≠ .neg ∧ op ≠ .not) (.unaryArith op)
    let x ← check (·.operand "CreateArithmetic" 1 x)
    let y ← check (·.operand "CreateArithmetic" 2 y)
    require (x.type = y.type) (.differentTypes x.type y.type "CreateArithmetic")
    operands (← add b (.arith op) x.type) [x, y]
  | .neg x => do
    let x ← check (·.operand "CreateNeg" 1 x)
    operands (← add b (.arith .neg) x.type) [x]
  | .not x => do
    let x ← check (·.operand "CreateNot" 1 x)
    require (x.type = .bool) (.notBool x.type)
    operands (← add b (.arith .not) .bool) [x]
  | .compare rel x y => do
    let x ← check (·.operand "CreateCompare" 1 x)
    let y ← check (·.operand "CreateCompare" 2 y)
    require (x.type = y.type) (.differentTypes x.type y.type "CreateCompare")
    operands (← add b (.compare rel) .bool) [x, y]
  | .copy x => do
    let x ← check (·.operand "CreateCopy" 1 x)
    operands (← add b .copy x.type) [x]
  | .call name ret args => do
    let args ← check (·.arguments "CreateCall" 1 args)
    operands (← add b (.call name) ret) args
  | .newArray elem dims sizes => do
    require (sizes ≠ [] ∧ (sizes.length : Int) ≤ dims) (.sizeCount sizes.length dims)
    let sizes ← check (·.sizes "CreateNewArray" 1 sizes)
    operands (← add b (.newArray elem dims) .ptr) sizes
  | .arrayLen a => do
    let a ← check (·.operandOf "CreateArrayLen" 1 .ptr a)
    operands (← add b .arrayLen .int) [a]
  | .loadElem a i t => do
    let a ← check (·.operandOf "CreateLoadElem" 1 .ptr a)
    let i ← check (·.operandOf "CreateLoadElem" 2 .int i)
    operands (← add b (.loadElem t) t) [a, i]
  | .storeElem a i v => do
    let a ← check (·.operandOf "CreateStoreElem" 1 .ptr a)
    let i ← check (·.operandOf "CreateStoreElem" 2 .int i)
    let v ← check (·.operand "CreateStoreElem" 3 v)
    operands (← add b (.storeElem v.type) .void) [a, i, v]
  | .branch target => do
    let t ← find (·.destination? target) fun f => .branchTarget f.name (f.label b)
    add b (.branch t) .void
  | .condBranch c yes no => do
    let c ← check (·.operandOf "CreateConditionalBranch" 1 .bool c)
    let (y, n) ← find (·.destinations? yes no) fun f => .condBranchTarget f.name (f.label b)
    operands (← add b (.condBranch y n) .void) [c]
  | .ret v => do
    let vs ← check (·.returned v)
    operands (← add b .ret .void) vs
  | .unreachable => add b .unreachable .void

def label (kind : Int) : Builder Text := do
  let k ← find (fun _ => LabelKind.ofNumber? kind) fun _ => .labelKind kind
  modifyGet fun f =>
    let (label, labels) := f.labels.fresh k
    (label, { f with labels })

def block (kind : Int) : Builder BlockId := do
  let label ← label kind
  modifyGet fun f => (f.pushBlock label).swap

def slot (name : Text) (type : DataType) : Builder Nat := do
  check fun f => if type = .void then throw (.voidSlot f.name name) else return ()
  modifyGet fun f => (f.slots.length, { f with slots := f.slots ++ [⟨name, type⟩] })

end Builder

end ImpCompiler
