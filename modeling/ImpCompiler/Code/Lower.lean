import ImpCompiler.Code.Flow
import ImpCompiler.Jobs
import ImpCompiler.Text.Quoted
import ImpCompiler.Typing.Error

/-!
# Code.Lower — from trees to code

An annotated tree is lowered function by function. Every variable gets a slot; an
expression is computed into the value of one instruction; `&&`, `||` and statements
that branch make blocks. Lowering goes on in the block of a cursor and moves it to
the block behind a statement. What follows a return is lowered too, and removed when
the flow of control is built.
-/

namespace ImpCompiler

set_option autoImplicit false

inductive LowerError where
  | undeclared (pos : Pos) (name : Text)
  | notAssignable (pos : Pos) (form : Text)
  | untyped (pos : Pos) (form : Text)

def LowerError.message : LowerError → Text
  | .undeclared p name => "line " ++ p.text ++ ": undeclared variable " ++ Text.quote name
  | .notAssignable p form => "line " ++ p.text ++ ": cannot assign to " ++ form
  | .untyped p form => "line " ++ p.text ++ ": untyped expression " ++ form

/-- A tree that no check lets through: its annotations contradict each other. -/
inductive Defect where
  | build (e : BuildError)
  | flow (e : FlowError)
  | noDataType (t : Ty)
  | noDefault (d : DataType)
  | twiceTyped

def Defect.message : Defect → Text
  | .build e => e.message
  | .flow e => e.message
  | .noDataType t => "cannot lower type " ++ t.text
  | .noDefault d => "no default value for data type " ++ d.text
  | .twiceTyped => "unexpected expression node *ir.Typed"

inductive LowerStop where
  | error (e : LowerError)
  | defect (d : Defect)

namespace Lower

/-- A function that is being made and the block that is being filled. -/
structure Cursor where
  func : Func
  block : BlockId

/-- Steps that make a function. -/
abbrev Lowering := StateT Cursor (Except LowerStop)

/-- The slots of the variables in scope, the innermost first. -/
abbrev Slots := List (Text × Nat)

def fail {α : Type} (e : LowerError) : Lowering α := throw (.error e)

def stopAt {α : Type} (d : Defect) : Lowering α := throw (.defect d)

/-- Takes steps on the function of the cursor. A function is lost where they are refused. -/
def onFunc {α : Type} (x : Builder α) : Lowering α := do
  let c ← get
  match x.run.run c.func with
  | (.ok a, f) => set { c with func := f }; return a
  | (.error e, _) => stopAt (.build e)

/-- Appends an instruction to the block of the cursor; the answer is its number. -/
def emit (r : Request) : Lowering Nat := do onFunc (Builder.create (← get).block r)

def newSlot (name : Text) (type : DataType) : Lowering Nat := onFunc (Builder.slot name type)

def newBlock (k : LabelKind) : Lowering BlockId := do
  let c ← get
  let (f, b) := c.func.addBlock k
  set { c with func := f }
  return b

def moveTo (b : BlockId) : Lowering Unit := modify fun c => { c with block := b }

def isTerminated : Lowering Bool := return ((← get).func.terminator? (← get).block).isSome

/-- Ends the block of the cursor with a branch, if it has no end. -/
def leaveTo (b : BlockId) : Lowering Unit := do
  if !(← isTerminated) then discard (emit (.branch (.own b)))

/-- The type of the values that an expression or a variable of a type has. -/
def dataType (t : Ty) : Lowering DataType :=
  match t.kind with
  | .base .int => return .int
  | .base .double => return .double
  | .base .boolean => return .bool
  | .base .string | .array => return .ptr
  | .base .void => return .void
  | .base .error => stopAt (.noDataType t)

/-- The value that a variable starts with. -/
def zero : DataType → Lowering Nat
  | .int => emit (.int 0)
  | .double => emit (.double Double.zero)
  | .bool => emit (.bool false)
  | .ptr => emit .null
  | .void => stopAt (.noDefault .void)

def slotOf (env : Slots) (p : Pos) (name : Text) : Lowering Nat :=
  match env.lookup name with
  | some s => return s
  | none => fail (.undeclared p name)

/-- What an operator that evaluates both operands asks for. -/
def strictRequest? : BinOp → Option (Operand → Operand → Request)
  | .add => some (.arith .add)
  | .sub => some (.arith .sub)
  | .mul => some (.arith .mul)
  | .div => some (.arith .div)
  | .mod => some (.arith .rem)
  | .lt => some (.compare .lt)
  | .le => some (.compare .le)
  | .gt => some (.compare .gt)
  | .ge => some (.compare .ge)
  | .eq => some (.compare .eq)
  | .ne => some (.compare .ne)
  | .and | .or => none

def copies : List Nat → Lowering (List Nat)
  | [] => return []
  | v :: rest => do
    let w ← emit (.copy (.own v))
    return w :: (← copies rest)

/-- The right operand of `&&` or `||` behind the left one, whose value is `left`.
The right one has a block of its own, and the outcome goes through a slot. -/
def shortCircuit (op : BinOp) (left : Nat) (right : Lowering Nat) : Lowering Nat := do
  let rhs ← newBlock (if op = .and then .andRight else .orRight)
  let stop ← newBlock .shortEnd
  let tmp ← newSlot ((← get).func.label rhs ++ ".tmp") .bool
  discard (emit (.store tmp (.own left)))
  if op = .and then discard (emit (.condBranch (.own left) (.own rhs) (.own stop)))
  else discard (emit (.condBranch (.own left) (.own stop) (.own rhs)))
  moveTo rhs
  let v ← right
  discard (emit (.store tmp (.own v)))
  discard (emit (.branch (.own stop)))
  moveTo stop
  emit (.load tmp)

mutual

/-- The value of an expression, which has to be annotated. -/
def expr (env : Slots) : Expr → Lowering Nat
  | .typed x t => form env t x
  | e => fail (.untyped e.pos e.formName)

/-- The value of an expression that is annotated with the type `t`. -/
def form (env : Slots) (t : Ty) : Expr → Lowering Nat
  | .int _ v => emit (.int v)
  | .double _ v => emit (.double v)
  | .bool _ v => emit (.bool v)
  | .string _ s => emit (.string s)
  | .ident p name => do
    let s ← slotOf env p name
    emit (.load s)
  | .unary _ .neg x => do
    let v ← expr env x
    emit (.neg (.own v))
  | .unary _ .not x => do
    let v ← expr env x
    emit (.not (.own v))
  | .binary _ op x y => do
    let v ← expr env x
    match strictRequest? op with
    | some request =>
      let w ← expr env y
      emit (request (.own v) (.own w))
    | none => shortCircuit op v (expr env y)
  | .call _ name args => do
    let vs ← exprs env args
    let ws ← copies vs
    let ret ← dataType t
    emit (.call name ret (ws.map .own))
  | .index _ a i => do
    let v ← expr env a
    let w ← expr env i
    let elem ← dataType t
    emit (.loadElem (.own v) (.own w) elem)
  | .new _ _ sizes => do
    let vs ← exprs env sizes
    let elem ← dataType t.scalar
    emit (.newArray elem t.dims (vs.map .own))
  | .length _ a _ => do
    let v ← expr env a
    emit (.arrayLen (.own v))
  | .typed .. => stopAt .twiceTyped

def exprs (env : Slots) : List Expr → Lowering (List Nat)
  | [] => return []
  | e :: rest => do
    let v ← expr env e
    return v :: (← exprs env rest)

end

/-- The names of a declaration; a name is known to the names behind it. -/
def declare (env : Slots) (type : DataType) : List DeclItem → Lowering Slots
  | [] => return env
  | item :: rest => do
    let v ← match item.init with
      | some e => expr env e
      | none => zero type
    let s ← newSlot item.name type
    discard (emit (.store s (.own v)))
    declare ((item.name, s) :: env) type rest

/-- An assignment at `p` to a target without annotations around it. -/
def assign (env : Slots) (p : Pos) (value : Expr) : Expr → Lowering Unit
  | .ident q name => do
    let s ← slotOf env q name
    let v ← expr env value
    discard (emit (.store s (.own v)))
  | .index _ a i => do
    let w ← expr env a
    let k ← expr env i
    let v ← expr env value
    discard (emit (.storeElem (.own w) (.own k) (.own v)))
  | target => fail (.notAssignable p target.formName)

/-- Adds one to a slot, or takes one off. -/
def count (s : Nat) (op : ArithOp) : Lowering Unit := do
  let v ← emit (.load s)
  let one ← emit (.int 1)
  let w ← emit (.arith op (.own v) (.own one))
  discard (emit (.store s (.own w)))

mutual

/-- A statement; the answer is the slots in scope behind it. -/
def stmt (env : Slots) : Stmt → Lowering Slots
  | .block _ body => do
    discard (stmts env body)
    return env
  | .decl _ t items => do
    let type ← dataType t
    declare env type items
  | .assign p target value => do
    assign env p value target.strip
    return env
  | .incr p name decrement => do
    let s ← slotOf env p name
    count s (if decrement then .sub else .add)
    return env
  | .ifThen _ c yes => do
    let v ← expr env c
    let thenBlock ← newBlock .ifThen
    let stop ← newBlock .ifEnd
    discard (emit (.condBranch (.own v) (.own thenBlock) (.own stop)))
    moveTo thenBlock
    discard (stmt env yes)
    leaveTo stop
    moveTo stop
    return env
  | .ifElse _ c yes no => do
    let v ← expr env c
    let thenBlock ← newBlock .ifThen
    let elseBlock ← newBlock .ifElse
    let stop ← newBlock .ifEnd
    discard (emit (.condBranch (.own v) (.own thenBlock) (.own elseBlock)))
    moveTo thenBlock
    discard (stmt env yes)
    leaveTo stop
    moveTo elseBlock
    discard (stmt env no)
    leaveTo stop
    moveTo stop
    return env
  | .while _ c body => do
    let head ← newBlock .whileHead
    let inside ← newBlock .whileBody
    let stop ← newBlock .whileEnd
    discard (emit (.branch (.own head)))
    moveTo head
    let v ← expr env c
    discard (emit (.condBranch (.own v) (.own inside) (.own stop)))
    moveTo inside
    discard (stmt env body)
    leaveTo head
    moveTo stop
    return env
  | .forEach _ elem name array body => do
    let a ← expr env array
    let length ← emit (.arrayLen (.own a))
    let counter ← newSlot (name ++ ".idx") .int
    let start ← emit (.int 0)
    discard (emit (.store counter (.own start)))
    let head ← newBlock .forHead
    let inside ← newBlock .forBody
    let stop ← newBlock .forEnd
    discard (emit (.branch (.own head)))
    moveTo head
    let k ← emit (.load counter)
    let more ← emit (.compare .lt (.own k) (.own length))
    discard (emit (.condBranch (.own more) (.own inside) (.own stop)))
    let type ← dataType elem
    let s ← newSlot name type
    moveTo inside
    let k ← emit (.load counter)
    let v ← emit (.loadElem (.own a) (.own k) type)
    discard (emit (.store s (.own v)))
    discard (stmt ((name, s) :: env) body)
    if !(← isTerminated) then
      count counter .add
      discard (emit (.branch (.own head)))
    moveTo stop
    return env
  | .ret _ value => do
    let v ← expr env value
    discard (emit (.ret (some (.own v))))
    discard (emit .unreachable)
    return env
  | .retVoid _ => do
    discard (emit (.ret none))
    discard (emit .unreachable)
    return env
  | .expr _ e => do
    discard (expr env e)
    return env
  | .empty _ => return env

def stmts (env : Slots) : List Stmt → Lowering Slots
  | [] => return env
  | s :: rest => do
    let env' ← stmt env s
    stmts env' rest

end

def dataTypes : List Param → Lowering (List DataType)
  | [] => return []
  | q :: rest => do
    let t ← dataType q.type
    return t :: (← dataTypes rest)

/-- Stores the parameters from number `n` on in slots. -/
def storeParams (env : Slots) (n : Nat) : List (Param × DataType) → Lowering Slots
  | [] => return env
  | (q, t) :: rest => do
    let s ← newSlot q.name t
    let v ← emit (.param n)
    discard (emit (.store s (.own v)))
    storeParams ((q.name, s) :: env) (n + 1) rest

/-- The whole of a function but for the flow of control. Where control runs off the
end of the body, a void function returns. -/
def body (f : FuncDef) : Lowering Unit := do
  let params ← dataTypes f.params
  let ret ← dataType f.ret
  set (Cursor.mk (Func.empty f.name ret params) 0)
  let entry ← newBlock .entry
  moveTo entry
  let env ← storeParams [] 0 (f.params.zip params)
  discard (stmts env f.body)
  if !(← isTerminated) then
    if ret = .void then discard (emit (.ret none)) else discard (emit .unreachable)

def function (f : FuncDef) : Except LowerStop Func :=
  match (body f).run ⟨Func.empty f.name .void [], 0⟩ with
  | .error stop => .error stop
  | .ok (_, c) =>
    match c.func.buildFlow with
    | (g, none) => .ok g
    | (_, some e) => .error (.defect (.flow e))

/-- Why a program is not lowered: a defect, or errors in functions, of which one is
reported. With several threads their number is reported too. -/
inductive Failure where
  | error (function : Text) (e : LowerError)
  | errors (number : Nat) (function : Text) (e : LowerError)
  | defect (d : Defect)

def Failure.message : Failure → Text
  | .error function e => Text.within ("function " ++ function) e.message
  | .errors n function e =>
    Text.within (Text.ofNat n ++ " errors during parallel LIR generation")
      (Text.within ("function " ++ function) e.message)
  | .defect d => d.message

def stops : List (Text × Except LowerStop Func) → List (Text × LowerStop)
  | [] => []
  | (name, .error stop) :: rest => (name, stop) :: stops rest
  | (_, .ok _) :: rest => stops rest

def lowered : List (Text × Except LowerStop Func) → List Func
  | [] => []
  | (_, .ok f) :: rest => f :: lowered rest
  | (_, .error _) :: rest => lowered rest

end Lower

/-- The last element of a path. A path without any is `.` if it is empty, and
otherwise the root. -/
def Text.baseName (path : Text) : Text :=
  let slash : UInt8 := 47
  if path.isEmpty then "."
  else
    let trimmed := (path.reverse.dropWhile (· == slash)).reverse
    if trimmed.isEmpty then "/" else (trimmed.reverse.takeWhile (· != slash)).reverse

def Program.lower (p : Program) (threads : Int) (path : Text) : Except Lower.Failure Module :=
  let results := Jobs.map threads (fun f => (f.name, Lower.function f)) p.functions
  match Lower.stops results with
  | [] => .ok { Module.empty path.baseName with functions := Lower.lowered results }
  | (_, .defect d) :: _ => .error (.defect d)
  | (name, .error e) :: rest =>
    .error (if threads ≤ 1 then .error name e else .errors (rest.length + 1) name e)

end ImpCompiler
