import ImpCompiler.Jobs
import ImpCompiler.Tree

/-!
# Tree.Fold — constant folding

Folding replaces an operator on literals by the literal of its value, at the place
of the operator. Integers wrap around, division truncates, and a division or
remainder by the literal zero is left as it is. Only annotated expressions can be
folded; folding stops at the first that is not, and what was folded before it stays
folded.
-/

namespace ImpCompiler

set_option autoImplicit false

/-- What folding a part of a tree leaves behind, and the expression without
annotation it stopped at, if it did. -/
structure Folded (α : Type) where
  tree : α
  stop : Option Expr

namespace Folded

def map {α β : Type} (f : α → β) (r : Folded α) : Folded β := ⟨f r.tree, r.stop⟩

/-- The second part, which is `y` before folding and `r` after it, is left alone if
the first has stopped. -/
def andThen {α β : Type} (q : Folded α) (y : β) (r : Folded β) : Folded (α × β) :=
  match q.stop with
  | some e => ⟨(q.tree, y), some e⟩
  | none => ⟨(q.tree, r.tree), r.stop⟩

end Folded

/-- What is wrong with folding an expression without annotation. -/
def Expr.unfoldableMessage (e : Expr) : Text := "cannot fold untyped expression " ++ e.formName

namespace Expr

def intLit (p : Pos) (v : Int64) : Expr := .typed (.int p v) Ty.int
def doubleLit (p : Pos) (v : Double) : Expr := .typed (.double p v) Ty.double
def boolLit (p : Pos) (v : Bool) : Expr := .typed (.bool p v) Ty.boolean

end Expr

namespace Fold

def onInts (p : Pos) (op : BinOp) (a b : Int64) : Option Expr :=
  match op with
  | .add => some (.intLit p (a + b))
  | .sub => some (.intLit p (a - b))
  | .mul => some (.intLit p (a * b))
  | .div => if b = 0 then none else some (.intLit p (a / b))
  | .mod => if b = 0 then none else some (.intLit p (a % b))
  | .lt => some (.boolLit p (decide (a < b)))
  | .le => some (.boolLit p (decide (a ≤ b)))
  | .gt => some (.boolLit p (decide (b < a)))
  | .ge => some (.boolLit p (decide (b ≤ a)))
  | .eq => some (.boolLit p (a == b))
  | .ne => some (.boolLit p (a != b))
  | .and | .or => none

def onDoubles (p : Pos) (op : BinOp) (a b : Double) : Option Expr :=
  match op with
  | .add => some (.doubleLit p (a.add b))
  | .sub => some (.doubleLit p (a.sub b))
  | .mul => some (.doubleLit p (a.mul b))
  | .div => some (.doubleLit p (a.div b))
  | .lt => some (.boolLit p (a.lt b))
  | .le => some (.boolLit p (a.le b))
  | .gt => some (.boolLit p (b.lt a))
  | .ge => some (.boolLit p (b.le a))
  | .eq => some (.boolLit p (a.eq b))
  | .ne => some (.boolLit p (!a.eq b))
  | .mod | .and | .or => none

def onBools (p : Pos) (op : BinOp) (a b : Bool) : Option Expr :=
  match op with
  | .and => some (.boolLit p (a && b))
  | .or => some (.boolLit p (a || b))
  | .eq => some (.boolLit p (a == b))
  | .ne => some (.boolLit p (a != b))
  | _ => none

/-- The value of a binary operator, if both operands are literals of one type. -/
def binary? (p : Pos) (op : BinOp) (x y : Expr) : Option Expr :=
  match x, y with
  | .typed (.int _ a) _, .typed (.int _ b) _ => onInts p op a b
  | .typed (.double _ a) _, .typed (.double _ b) _ => onDoubles p op a b
  | .typed (.bool _ a) _, .typed (.bool _ b) _ => onBools p op a b
  | _, _ => none

/-- The value of a sign, if the operand is a literal; the type of the literal
decides which sign it is. -/
def unary? (p : Pos) (x : Expr) : Option Expr :=
  match x with
  | .typed (.int _ a) _ => some (.intLit p (-a))
  | .typed (.double _ a) _ => some (.doubleLit p a.neg)
  | .typed (.bool _ a) _ => some (.boolLit p (!a))
  | _ => none

mutual

def expr : Expr → Folded Expr
  | .typed (.unary p op x) t =>
    let r := expr x
    match r.stop with
    | some e => ⟨.typed (.unary p op r.tree) t, some e⟩
    | none => ⟨(unary? p r.tree).getD (.typed (.unary p op r.tree) t), none⟩
  | .typed (.binary p op x y) t =>
    let r := (expr x).andThen y (expr y)
    match r.stop with
    | some e => ⟨.typed (.binary p op r.tree.1 r.tree.2) t, some e⟩
    | none =>
      ⟨(binary? p op r.tree.1 r.tree.2).getD (.typed (.binary p op r.tree.1 r.tree.2) t), none⟩
  | .typed (.call p name args) t => (exprs args).map fun args' => .typed (.call p name args') t
  | .typed (.index p x i) t =>
    ((expr x).andThen i (expr i)).map fun r => .typed (.index p r.1 r.2) t
  | .typed (.new p elem sizes) t => (exprs sizes).map fun sizes' => .typed (.new p elem sizes') t
  | .typed (.length p x m) t => (expr x).map fun x' => .typed (.length p x' m) t
  | .typed x t => ⟨.typed x t, none⟩
  | e => ⟨e, some e⟩

def exprs : List Expr → Folded (List Expr)
  | [] => ⟨[], none⟩
  | e :: rest => ((expr e).andThen rest (exprs rest)).map fun r => r.1 :: r.2

end

def items : List DeclItem → Folded (List DeclItem)
  | [] => ⟨[], none⟩
  | item :: rest =>
    let first : Folded DeclItem := match item.init with
      | none => ⟨item, none⟩
      | some e => (expr e).map fun e' => { item with init := some e' }
    (first.andThen rest (items rest)).map fun r => r.1 :: r.2

mutual

def stmt : Stmt → Folded Stmt
  | .block p body => (stmts body).map (.block p)
  | .decl p t is => (items is).map (.decl p t)
  | .assign p target value =>
    ((expr target).andThen value (expr value)).map fun r => .assign p r.1 r.2
  | .ifThen p c yes => ((expr c).andThen yes (stmt yes)).map fun r => .ifThen p r.1 r.2
  | .ifElse p c yes no =>
    ((expr c).andThen (yes, no) ((stmt yes).andThen no (stmt no))).map fun r =>
      .ifElse p r.1 r.2.1 r.2.2
  | .while p c body => ((expr c).andThen body (stmt body)).map fun r => .while p r.1 r.2
  | .forEach p elem name array body =>
    ((expr array).andThen body (stmt body)).map fun r => .forEach p elem name r.1 r.2
  | .ret p value => (expr value).map (.ret p)
  | .expr p e => (expr e).map (.expr p)
  | .incr p name decrement => ⟨.incr p name decrement, none⟩
  | .retVoid p => ⟨.retVoid p, none⟩
  | .empty p => ⟨.empty p, none⟩

def stmts : List Stmt → Folded (List Stmt)
  | [] => ⟨[], none⟩
  | s :: rest => ((stmt s).andThen rest (stmts rest)).map fun r => r.1 :: r.2

end

def function (f : FuncDef) : Folded FuncDef := (stmts f.body).map fun body => { f with body }

end Fold

def Program.fold (p : Program) (threads : Int) : Folded Program :=
  let (fs, stop) :=
    Jobs.run threads (fun f => ((Fold.function f).tree, (Fold.function f).stop)) p.functions
  ⟨⟨fs⟩, stop⟩

end ImpCompiler
