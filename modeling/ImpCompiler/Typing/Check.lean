import ImpCompiler.Typing.Infer

/-!
# Typing.Check — checking statements and programs

Checking annotates the expressions of a tree. It stops at the first error, and what
was annotated before it stays annotated: the result of a check is a tree in any
case, together with the environment it leaves and the reason it stopped, if it did.
The signatures of all functions are known before any body is checked. Branches and
loop bodies have a scope of their own; the parameters of a function share one with
the statements of its body.
-/

namespace ImpCompiler

set_option autoImplicit false

/-- What checking a part of a tree leaves behind. -/
structure Checked (α : Type) where
  env : Env
  tree : α
  stop : Option Stop

namespace Checked

def done {α : Type} (env : Env) (tree : α) : Checked α := ⟨env, tree, none⟩

def failed {α : Type} (env : Env) (tree : α) (e : TypeError) : Checked α :=
  ⟨env, tree, some (.error e)⟩

def map {α β : Type} (r : Checked α) (f : α → β) : Checked β := ⟨r.env, f r.tree, r.stop⟩

/-- The innermost scope is closed if the check ended well; otherwise it stays open. -/
def leave {α : Type} (r : Checked α) : Checked α :=
  match r.stop with
  | none => { r with env := r.env.leave }
  | some _ => r

end Checked

namespace Typing

/-- A condition, which has to be boolean. -/
def inferCondition (env : Env) (c : Expr) : Except TypeError Expr := do
  let (t, c') ← infer env c
  if t = Ty.boolean then return c' else throw ⟨.condition t, c.pos⟩

/-- The expression a name starts with, which has to be of its type. -/
def inferInit (env : Env) (t : Ty) (item : DeclItem) : Except TypeError DeclItem :=
  match item.init with
  | none => return item
  | some e => do
    let (u, e') ← infer env e
    if u = t then return { item with init := some e' }
    else throw ⟨.initializer t item.name u, item.pos⟩

/-- The names of a declaration, one after another; a name is known to the names
behind it. -/
def checkItems (env : Env) (t : Ty) : List DeclItem → Checked (List DeclItem)
  | [] => .done env []
  | item :: rest =>
    match inferInit env t item with
    | .error e => .failed env (item :: rest) e
    | .ok item' =>
      match env.declare item.name t item.pos with
      | .error stop => ⟨env, item' :: rest, some stop⟩
      | .ok env' => (checkItems env' t rest).map (item' :: ·)

def inferAssignment (env : Env) (p : Pos) (target value : Expr) :
    Except TypeError (Expr × Expr) := do
  match target.strip with
  | .ident .. | .index .. => pure ()
  | _ => throw ⟨.notAssignable, p⟩
  let (t, target') ← infer env target
  let (u, value') ← infer env value
  if t = u then return (target', value') else throw ⟨.assignment u t, p⟩

/-- The array of a loop, whose elements have to be of the type of the loop variable. -/
def inferIteration (env : Env) (p : Pos) (elem : Ty) (name : Text) (array : Expr) :
    Except TypeError Expr := do
  let (t, array') ← infer env array
  match t.elem? with
  | none => throw ⟨.iteration t, array.pos⟩
  | some u => if u = elem then return array' else throw ⟨.loopVariable name elem u, p⟩

def inferReturn (env : Env) (p : Pos) (value : Expr) : Except TypeError Expr := do
  if env.currentType.ret = Ty.void then throw ⟨.valueFromVoid env.current, p⟩
  let (t, value') ← infer env value
  if t = env.currentType.ret then return value'
  else throw ⟨.returned env.current env.currentType.ret t, p⟩

def inferEffect (env : Env) (p : Pos) (e : Expr) : Except TypeError Expr := do
  let (t, e') ← infer env e
  if t = Ty.void then return e' else throw ⟨.unusedValue t, p⟩

def checkCounter (env : Env) (p : Pos) (name : Text) : Except TypeError Unit := do
  let t ← env.typeOf name p
  if t = Ty.int then return () else throw ⟨.counter name t, p⟩

mutual

def checkStmt (env : Env) : Stmt → Checked Stmt
  | .block p body => (checkStmts env.enter body).leave.map (.block p)
  | .decl p t items =>
    if t = Ty.void then .failed env (.decl p t items) ⟨.voidVariable, p⟩
    else (checkItems env t items).map (.decl p t)
  | .assign p target value =>
    match inferAssignment env p target value with
    | .error e => .failed env (.assign p target value) e
    | .ok (target', value') => .done env (.assign p target' value')
  | .incr p name decrement =>
    match checkCounter env p name with
    | .error e => .failed env (.incr p name decrement) e
    | .ok _ => .done env (.incr p name decrement)
  | .ifThen p c yes =>
    match inferCondition env c with
    | .error e => .failed env (.ifThen p c yes) e
    | .ok c' => (checkStmt env.enter yes).leave.map (.ifThen p c')
  | .ifElse p c yes no =>
    match inferCondition env c with
    | .error e => .failed env (.ifElse p c yes no) e
    | .ok c' =>
      let r := (checkStmt env.enter yes).leave
      match r.stop with
      | some _ => r.map fun yes' => .ifElse p c' yes' no
      | none => (checkStmt r.env.enter no).leave.map fun no' => .ifElse p c' r.tree no'
  | .while p c body =>
    match inferCondition env c with
    | .error e => .failed env (.while p c body) e
    | .ok c' => (checkStmt env.enter body).leave.map (.while p c')
  | .forEach p elem name array body =>
    match inferIteration env p elem name array with
    | .error e => .failed env (.forEach p elem name array body) e
    | .ok array' =>
      match env.enter.declare name elem p with
      | .error stop => ⟨env.enter, .forEach p elem name array' body, some stop⟩
      | .ok env' => (checkStmt env'.enter body).leave.leave.map (.forEach p elem name array')
  | .ret p value =>
    match inferReturn env p value with
    | .error e => .failed env (.ret p value) e
    | .ok value' => .done env (.ret p value')
  | .retVoid p =>
    if env.currentType.ret = Ty.void then .done env (.retVoid p)
    else .failed env (.retVoid p) ⟨.nothingReturned env.current env.currentType.ret, p⟩
  | .expr p e =>
    match inferEffect env p e with
    | .error err => .failed env (.expr p e) err
    | .ok e' => .done env (.expr p e')
  | .empty p => .done env (.empty p)

/-- Statements one after another in the same scope. -/
def checkStmts (env : Env) : List Stmt → Checked (List Stmt)
  | [] => .done env []
  | s :: rest =>
    let r := checkStmt env s
    match r.stop with
    | some _ => r.map (· :: rest)
    | none => (checkStmts r.env rest).map (r.tree :: ·)

end

def declareParams (env : Env) : List Param → Except Stop Env
  | [] => .ok env
  | q :: rest =>
    match env.declare q.name q.type q.pos with
    | .error stop => .error stop
    | .ok env' => declareParams env' rest

def checkFunction (env : Env) (f : FuncDef) : Checked FuncDef :=
  match env.enterFunction f.name f.pos with
  | .error e => .failed env f e
  | .ok env =>
    match declareParams env.enter f.params with
    | .error stop => ⟨env.enter, f, some stop⟩
    | .ok env =>
      let r := (checkStmts env f.body).leave.map fun body => { f with body }
      match r.stop with
      | some _ => r
      | none =>
        if f.ret ≠ Ty.void && !Stmt.anyReturns f.body then
          .failed r.env r.tree ⟨.missingReturn f.name f.ret, f.pos⟩
        else r

def declareFunctions (env : Env) : List FuncDef → Except TypeError Env
  | [] => .ok env
  | f :: rest =>
    match f.params.find? fun q => q.type == Ty.void with
    | some q => .error ⟨.voidParameter q.name, q.pos⟩
    | none =>
      match env.addFunction f.name f.signature f.pos with
      | .error e => .error e
      | .ok env' => declareFunctions env' rest

/-- Why a program is refused: the error, and the function it was found in if a body
was being checked. -/
structure Refusal where
  function : Option Text
  stop : Stop

def checkFunctions (env : Env) : List FuncDef → List FuncDef × Option Refusal
  | [] => ([], none)
  | f :: rest =>
    let r := checkFunction env f
    match r.stop with
    | some stop => (r.tree :: rest, some ⟨some f.name, stop⟩)
    | none =>
      let (rest', refusal) := checkFunctions r.env rest
      (r.tree :: rest', refusal)

/-- The environment that knows the built-in functions only. -/
def initial : Env := { Env.empty with signatures := builtins }

/-- The environment of all functions of a program, which has to have a function
`main`. -/
def globalEnv (p : Program) : Except TypeError Env := do
  let env ← declareFunctions initial p.functions
  match env.signatures.lookup ("main" : Text) with
  | none => throw ⟨.missingMain, Pos.unknown⟩
  | some _ => return env

end Typing

/-- Checks a program: the tree, annotated as far as the check came, and why it was
refused, if it was. -/
def Program.check (p : Program) : Program × Option Typing.Refusal :=
  match Typing.globalEnv p with
  | .error e => (p, some ⟨none, .error e⟩)
  | .ok env =>
    let (fs, refusal) := Typing.checkFunctions env p.functions
    (⟨fs⟩, refusal)

def Stop.message : Stop → Text
  | .error e => e.message
  | .misuse m => m.message

def Typing.Refusal.message (r : Typing.Refusal) : Text :=
  match r.function with
  | none => r.stop.message
  | some name => Text.within ("in function " ++ name) r.stop.message

end ImpCompiler
