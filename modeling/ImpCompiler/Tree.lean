import ImpCompiler.Double
import ImpCompiler.Ty

/-!
# Tree — programs

The syntax tree of a program. Every node has the place of its distinguished token:
the operator of a unary or binary expression, the bracket of an index, the dot of a
member, and the first token of anything else. A `typed` node says that the
expression inside has a type; it has the place of what it holds. Checking puts one
such node around every expression, but a tree may hold any number of them anywhere.
-/

namespace ImpCompiler

set_option autoImplicit false

inductive UnOp where
  | neg | not
  deriving DecidableEq, Repr

namespace UnOp

def all : List UnOp := [.neg, .not]

def text : UnOp → Text
  | .neg => "-"
  | .not => "!"

end UnOp

inductive BinOp where
  | add | sub | mul | div | mod
  | lt | le | gt | ge | eq | ne
  | and | or
  deriving DecidableEq, Repr

namespace BinOp

def all : List BinOp :=
  [.add, .sub, .mul, .div, .mod, .lt, .le, .gt, .ge, .eq, .ne, .and, .or]

def text : BinOp → Text
  | .add => "+"
  | .sub => "-"
  | .mul => "*"
  | .div => "/"
  | .mod => "%"
  | .lt => "<"
  | .le => "<="
  | .gt => ">"
  | .ge => ">="
  | .eq => "=="
  | .ne => "!="
  | .and => "&&"
  | .or => "||"

def isRelational : BinOp → Bool
  | .lt | .le | .gt | .ge | .eq | .ne => true
  | _ => false

/-- Whether the second operand is evaluated only if the first does not decide. -/
def isLogical : BinOp → Bool
  | .and | .or => true
  | _ => false

end BinOp

inductive Expr where
  | int (pos : Pos) (value : Int64)
  | double (pos : Pos) (value : Double)
  | bool (pos : Pos) (value : Bool)
  | string (pos : Pos) (value : Text)
  | ident (pos : Pos) (name : Text)
  | unary (pos : Pos) (op : UnOp) (operand : Expr)
  | binary (pos : Pos) (op : BinOp) (left right : Expr)
  | call (pos : Pos) (name : Text) (args : List Expr)
  | index (pos : Pos) (array index : Expr)
  | new (pos : Pos) (elem : Ty) (sizes : List Expr)
  | length (pos : Pos) (array : Expr) (member : Text)
  | typed (inner : Expr) (type : Ty)
  deriving Repr, Inhabited

namespace Expr

def pos : Expr → Pos
  | .int p _ | .double p _ | .bool p _ | .string p _ | .ident p _ | .unary p _ _
  | .binary p _ _ _ | .call p _ _ | .index p _ _ | .new p _ _ | .length p _ _ => p
  | .typed x _ => x.pos

def strip : Expr → Expr
  | .typed x _ => x.strip
  | e => e

def type? : Expr → Option Ty
  | .typed _ t => some t
  | _ => none

def formName : Expr → Text
  | .int .. => "*ir.IntLit"
  | .double .. => "*ir.DoubleLit"
  | .bool .. => "*ir.BoolLit"
  | .string .. => "*ir.StringLit"
  | .ident .. => "*ir.Ident"
  | .unary .. => "*ir.Unary"
  | .binary .. => "*ir.Binary"
  | .call .. => "*ir.Call"
  | .index .. => "*ir.Index"
  | .new .. => "*ir.NewArray"
  | .length .. => "*ir.Length"
  | .typed .. => "*ir.Typed"

/-- What is wrong with asking for the type of an expression that has no annotation. -/
def noTypeMessage : Text := "expression has no resolved type"

end Expr

/-- One name of a declaration, with the expression it starts with. -/
structure DeclItem where
  pos : Pos
  name : Text
  init : Option Expr
  deriving Repr

inductive Stmt where
  | block (pos : Pos) (body : List Stmt)
  | decl (pos : Pos) (type : Ty) (items : List DeclItem)
  | assign (pos : Pos) (target value : Expr)
  | incr (pos : Pos) (name : Text) (decrement : Bool)
  | ifThen (pos : Pos) (cond : Expr) (yes : Stmt)
  | ifElse (pos : Pos) (cond : Expr) (yes no : Stmt)
  | while (pos : Pos) (cond : Expr) (body : Stmt)
  | forEach (pos : Pos) (elem : Ty) (name : Text) (array : Expr) (body : Stmt)
  | ret (pos : Pos) (value : Expr)
  | retVoid (pos : Pos)
  | expr (pos : Pos) (value : Expr)
  | empty (pos : Pos)
  deriving Repr, Inhabited

structure Param where
  pos : Pos
  type : Ty
  name : Text
  deriving Repr

structure FuncDef where
  pos : Pos
  name : Text
  ret : Ty
  params : List Param
  bodyPos : Pos
  body : List Stmt
  deriving Repr

def FuncDef.signature (f : FuncDef) : Signature := ⟨f.params.map Param.type, f.ret⟩

/-- A program: its functions in the order of the source. -/
structure Program where
  functions : List FuncDef
  deriving Repr

namespace Stmt

mutual

/-- Whether a statement always returns. A condition without an alternative never
counts, and loops do not either. -/
def returns : Stmt → Bool
  | .ret .. | .retVoid .. => true
  | .block _ body => anyReturns body
  | .ifElse _ _ yes no => yes.returns && no.returns
  | _ => false

def anyReturns : List Stmt → Bool
  | [] => false
  | s :: rest => s.returns || anyReturns rest

end

end Stmt

end ImpCompiler
