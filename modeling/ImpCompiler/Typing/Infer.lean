import ImpCompiler.Typing.Env

/-!
# Typing.Infer — the type of an expression

`infer` answers with the type of an expression and the expression with one
annotation around each of its parts. Annotations that an expression already has do
not count.

A chain of indices `a[i]…[k]` is looked at as a whole: the indices from the last to
the first, then the array, which has to be a variable, a call or a construction, and
then the number of indices.
-/

namespace ImpCompiler

set_option autoImplicit false

def BinOp.accepts (op : BinOp) (t : Ty) : Bool :=
  match op with
  | .add | .sub | .mul | .div | .lt | .le | .gt | .ge => t == Ty.int || t == Ty.double
  | .mod => t == Ty.int
  | .eq | .ne => t == Ty.int || t == Ty.double || t == Ty.boolean
  | .and | .or => t == Ty.boolean

/-- The type of the result for operands of type `t`. -/
def BinOp.result (op : BinOp) (t : Ty) : Ty :=
  if op.isRelational || op.isLogical then Ty.boolean else t

/-- Whether a unary operator takes an operand of a type; the result has the same
type. -/
def UnOp.accepts (op : UnOp) (t : Ty) : Bool :=
  match op with
  | .neg => t == Ty.int || t == Ty.double
  | .not => t == Ty.boolean

def Base.isConstructible : Base → Bool
  | .int | .double | .boolean => true
  | _ => false

namespace Typing

/-- What a chain of indices is applied to, so far. -/
structure Chain where
  /-- The type of the array at the bottom. -/
  array : Ty
  /-- How many indices are applied to it. -/
  indices : Nat
  /-- The annotated expression. -/
  tree : Expr

namespace Chain

def nextType (c : Chain) : Ty := c.array.scalar.arrayOf ((c.array.dims : Int) - (c.indices + 1))

def apply (c : Chain) (p : Pos) (i : Expr) : Chain :=
  { c with indices := c.indices + 1, tree := .typed (.index p c.tree i) c.nextType }

def ofTyped (r : Ty × Expr) : Chain := ⟨r.1, 0, r.2⟩

end Chain

def annotate (e : Expr) (t : Ty) : Ty × Expr := (t, .typed e t)

/-- The signature of a function called at `p` with `n` arguments. -/
def callee (env : Env) (p : Pos) (name : Text) (n : Nat) : Except TypeError Signature := do
  let s ← env.signatureOf name p
  if s.params.length = n then return s
  else throw ⟨.arity name s.params.length n, p⟩

/-- Checks that an array of `elem` can be constructed with `n` sizes. -/
def constructible (p : Pos) (elem : Ty) (n : Nat) : Except TypeError Unit :=
  if n = 0 then throw ⟨.missingSize, p⟩
  else if elem.base.isConstructible then return ()
  else throw ⟨.arrayElement elem, p⟩

mutual

/-- The type of an expression, and the expression annotated. -/
def infer (env : Env) : Expr → Except TypeError (Ty × Expr)
  | .typed x _ => infer env x
  | .int p v => return annotate (.int p v) Ty.int
  | .double p v => return annotate (.double p v) Ty.double
  | .bool p v => return annotate (.bool p v) Ty.boolean
  | .string p v => return annotate (.string p v) Ty.string
  | .ident p name => return annotate (.ident p name) (← env.typeOf name p)
  | .unary p op x => do
    let (t, x') ← infer env x
    if op.accepts t then return annotate (.unary p op x') t
    else throw ⟨.unaryOperand t op, p⟩
  | .binary p op x y => do
    let (t, x') ← infer env x
    let (u, y') ← infer env y
    if !op.accepts t then throw ⟨.binaryOperand t op, x.pos⟩
    else if !op.accepts u then throw ⟨.binaryOperand u op, y.pos⟩
    else if t = u then return annotate (.binary p op x' y') (op.result t)
    else throw ⟨.incompatibleOperands t u op, p⟩
  | .call p name args => do
    let s ← callee env p name args.length
    let args' ← inferArguments env name 1 s.params args
    return annotate (.call p name args') s.ret
  | .length p x m => do
    let (t, x') ← infer env x
    if !t.isArray then throw ⟨.memberOf t, p⟩
    else if m = "length" then return annotate (.length p x' m) Ty.int
    else throw ⟨.unknownMember m t, p⟩
  | .index p x i => do
    let (t, i') ← infer env i
    if t ≠ Ty.int then throw ⟨.indexType t, i.pos⟩
    let c := (← inferChain env x).apply p i'
    if c.array.dims < c.indices then throw ⟨.indexDepth c.array c.indices, p⟩
    else return (c.array.scalar.arrayOf ((c.array.dims : Int) - c.indices), c.tree)
  | .new p elem sizes => do
    constructible p elem sizes.length
    let sizes' ← inferSizes env sizes
    return annotate (.new p elem sizes') (elem.arrayOf sizes.length)

/-- The chain of indices that an index is put behind. -/
def inferChain (env : Env) : Expr → Except TypeError Chain
  | .typed x _ => inferChain env x
  | .index p x i => do
    let (t, i') ← infer env i
    if t ≠ Ty.int then throw ⟨.indexType t, i.pos⟩
    return (← inferChain env x).apply p i'
  | .ident p name => return .ofTyped (annotate (.ident p name) (← env.typeOf name p))
  | .call p name args => do
    let s ← callee env p name args.length
    let args' ← inferArguments env name 1 s.params args
    return .ofTyped (annotate (.call p name args') s.ret)
  | .new p elem sizes => do
    constructible p elem sizes.length
    let sizes' ← inferSizes env sizes
    return .ofTyped (annotate (.new p elem sizes') (elem.arrayOf sizes.length))
  | e => throw ⟨.notIndexable, e.pos⟩

/-- The arguments of `name` from number `i` on, checked against the types of its
parameters. -/
def inferArguments (env : Env) (name : Text) (i : Nat) :
    List Ty → List Expr → Except TypeError (List Expr)
  | t :: ts, e :: es => do
    let (u, e') ← infer env e
    if u ≠ t then throw ⟨.argument i name t u, e.pos⟩
    return e' :: (← inferArguments env name (i + 1) ts es)
  | _, _ => return []

def inferSizes (env : Env) : List Expr → Except TypeError (List Expr)
  | [] => return []
  | e :: es => do
    let (t, e') ← infer env e
    if t ≠ Ty.int then throw ⟨.sizeType t, e.pos⟩
    return e' :: (← inferSizes env es)

end

end Typing

end ImpCompiler
