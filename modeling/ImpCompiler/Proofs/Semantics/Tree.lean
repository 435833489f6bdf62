import ImpCompiler.Proofs.Semantics.Value

/-!
# Proofs.Semantics.Tree — what a program means

The meaning of a program, told of its tree. Operands and arguments are evaluated from
left to right; the right operand of `&&` or `||` is evaluated only if the left one
does not decide. A variable without an initialiser starts with the value of its type
that is zero, false or null. A loop over an array evaluates the array once, reads its
length once, and loads the element at the start of every round. Annotations mean
nothing.

Loops and calls may take forever, so a run is given a number of rounds for each loop
and of calls inside each other, and is given up when it needs more. A program ends in
an outcome if it does with some number (`Program.Ends`).
-/

namespace ImpCompiler

set_option autoImplicit false

/-! ## Operators -/

def UnOp.apply (op : UnOp) (v : Val) : Except Fault Val :=
  match op with
  | .neg => v.neg
  | .not => do return .bool !(← v.truth)

/-- An operator that evaluates both operands. -/
def BinOp.apply (op : BinOp) (v w : Val) : Except Fault Val :=
  match op with
  | .add => v.add w
  | .sub => v.sub w
  | .mul => v.mul w
  | .div => v.div w
  | .mod => v.rem w
  | .lt => do return .bool (← v.less w)
  | .le => do return .bool (← v.lessEq w)
  | .gt => do return .bool (← w.less v)
  | .ge => do return .bool (← w.lessEq v)
  | .eq => do return .bool (← v.equal w)
  | .ne => do return .bool !(← v.equal w)
  | .and | .or => .error .mismatch

/-- Whether the left operand of `&&` or `||` decides. -/
def BinOp.decidedBy (op : BinOp) (left : Bool) : Bool :=
  match op with
  | .or => left
  | _ => !left

/-! ## Variables -/

/-- The variables in scope and their values, the innermost first. -/
abbrev Vars := List (Text × Val)

namespace Vars

/-- The variables with another value for a name that is known. -/
def assign (name : Text) (v : Val) : Vars → Option Vars
  | [] => none
  | (x, u) :: rest =>
    if name = x then some ((x, v) :: rest)
    else (assign name v rest).map ((x, u) :: ·)

def get (vars : Vars) (name : Text) : Comp Val :=
  match vars.lookup name with
  | some v => pure v
  | none => Comp.fail .mismatch

def set (vars : Vars) (name : Text) (v : Val) : Comp Vars :=
  match vars.assign name v with
  | some vars => pure vars
  | none => Comp.fail .mismatch

/-- The variables that are left of `inner` behind a scope that was entered with
`outer`. -/
def leave (outer inner : Vars) : Vars := inner.drop (inner.length - outer.length)

end Vars

namespace Semantics

/-- How a statement ends: control goes on with the variables, or the function
returns. -/
inductive Flow where
  | next (vars : Vars)
  | ret (v : Val)

def inScope (outer : Vars) (x : Comp Flow) : Comp Flow := do
  match ← x with
  | .next inner => return .next (outer.leave inner)
  | .ret v => return .ret v

/-- Rounds of a loop, until one ends it. It is given up after `n` rounds. -/
def iterate {σ : Type} (round : σ → Comp (σ ⊕ Flow)) : Nat → σ → Comp Flow
  | 0, _ => Comp.giveUp
  | n + 1, s => do
    match ← round s with
    | .inl s => iterate round n s
    | .inr flow => return flow

/-- What the end of its body means for a loop whose state is `again` of the variables
then. -/
def goOn {σ : Type} (again : Vars → σ) : Flow → σ ⊕ Flow
  | .next vars => .inl (again vars)
  | .ret v => .inr (.ret v)

section Body

variable (call : Text → List Val → Comp Val)

mutual

def eval (vars : Vars) : Expr → Comp Val
  | .typed x _ => eval vars x
  | .int _ v => return .int v
  | .double _ v => return .double v
  | .bool _ v => return .bool v
  | .string _ s => return .string s
  | .ident _ name => vars.get name
  | .unary _ op x => do
    let v ← eval vars x
    Comp.lift (op.apply v)
  | .binary _ op x y => do
    let v ← eval vars x
    if op.isLogical then
      let left ← Comp.lift v.truth
      if op.decidedBy left then return .bool left else eval vars y
    else
      let w ← eval vars y
      Comp.lift (op.apply v w)
  | .call _ name args => do
    let vs ← evals vars args
    call name vs
  | .index _ a i => do
    let v ← eval vars a
    let k ← eval vars i
    Comp.onHeap (·.load v k)
  | .new _ elem sizes => do
    let ns ← evals vars sizes
    Comp.changeHeap (·.allocate elem.initialValue ns)
  | .length _ a _ => do
    let v ← eval vars a
    Comp.onHeap (·.lengthOf v)

def evals (vars : Vars) : List Expr → Comp (List Val)
  | [] => return []
  | e :: rest => do
    let v ← eval vars e
    let vs ← evals vars rest
    return v :: vs

end

def test (vars : Vars) (c : Expr) : Comp Bool := do
  let v ← eval call vars c
  Comp.lift v.truth

def start (t : Ty) (vars : Vars) (item : DeclItem) : Comp Val :=
  match item.init with
  | some e => eval call vars e
  | none => pure t.initialValue

def declare (t : Ty) : Vars → List DeclItem → Comp Vars
  | vars, [] => return vars
  | vars, item :: rest => do
    let v ← start call t vars item
    declare t ((item.name, v) :: vars) rest

/-- An assignment to a target without annotations around it. -/
def assign (vars : Vars) (value : Expr) : Expr → Comp Vars
  | .ident _ name => do
    let v ← eval call vars value
    vars.set name v
  | .index _ a i => do
    let w ← eval call vars a
    let k ← eval call vars i
    let v ← eval call vars value
    Comp.changeHeap fun h => do return (vars, ← h.store w k v)
  | _ => Comp.fail .mismatch

mutual

/-- A statement, where every loop may take `n` rounds. -/
def exec (n : Nat) (vars : Vars) : Stmt → Comp Flow
  | .block _ body => inScope vars (execs n vars body)
  | .decl _ t items => do return .next (← declare call t vars items)
  | .assign _ target value => do return .next (← assign call vars value target.strip)
  | .incr _ name decrement => do
    let v ← vars.get name
    let w ← Comp.lift (if decrement then v.sub (.int 1) else v.add (.int 1))
    return .next (← vars.set name w)
  | .ifThen _ c yes => do
    if ← test call vars c then inScope vars (exec n vars yes) else return .next vars
  | .ifElse _ c yes no => do
    if ← test call vars c then inScope vars (exec n vars yes) else inScope vars (exec n vars no)
  | .while _ c body =>
    iterate (fun vars => do
      if ← test call vars c then
        return goOn id (← inScope vars (exec n vars body))
      else return .inr (.next vars)) n vars
  | .forEach _ _ name array body => do
    let a ← eval call vars array
    let length ← Comp.onHeap (·.lengthOf a)
    iterate (fun (k, vars) => do
      if ← Comp.lift ((Val.int k).less length) then
        let v ← Comp.onHeap (·.load a (.int k))
        return goOn (k + 1, ·) (← inScope vars (exec n ((name, v) :: vars) body))
      else return .inr (.next vars)) n ((0 : Int64), vars)
  | .ret _ value => do return .ret (← eval call vars value)
  | .retVoid _ => return .ret .unit
  | .expr _ e => do
    let _ ← eval call vars e
    return .next vars
  | .empty _ => return .next vars

def execs (n : Nat) (vars : Vars) : List Stmt → Comp Flow
  | [] => return .next vars
  | s :: rest => do
    match ← exec n vars s with
    | .next vars => execs n vars rest
    | .ret v => return .ret v

end

def bindParams : Vars → List Param → List Val → Comp Vars
  | vars, [], _ => return vars
  | vars, q :: rest, v :: vs => bindParams ((q.name, v) :: vars) rest vs
  | _, _ :: _, [] => Comp.fail .mismatch

def run (n : Nat) (f : FuncDef) (args : List Val) : Comp Val := do
  let vars ← bindParams [] f.params args
  match ← execs call n vars f.body with
  | .ret v => return v
  | .next _ => if f.ret = Ty.void then return .unit else Comp.fail .missingReturn

end Body

end Semantics

namespace Program

def function? (p : Program) (name : Text) : Option FuncDef :=
  p.functions.find? fun f => f.name == name

/-- A call; what is not a function of the program is built in. -/
def call (p : Program) (oracle : Oracle) : Nat → Text → List Val → Comp Val
  | 0, name, args =>
    match p.function? name with
    | some _ => Comp.giveUp
    | none => Comp.builtin oracle name args
  | n + 1, name, args =>
    match p.function? name with
    | some f => Semantics.run (call p oracle n) n f args
    | none => Comp.builtin oracle name args

/-- The function `name` of the program, applied to `args` with the arrays of `heap`
there, ends in the outcome. -/
def Ends (p : Program) (oracle : Oracle) (name : Text) (args : List Val) (heap : Heap)
    (o : Outcome) : Prop :=
  ∃ f, p.function? name = some f ∧
    ∃ n, (Semantics.run (p.call oracle n) n f args ⟨heap, []⟩).outcome? = some o

end Program

end ImpCompiler
