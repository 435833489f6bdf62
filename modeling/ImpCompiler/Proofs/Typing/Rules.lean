import ImpCompiler.Typing.Check
import Mathlib.Tactic.Common

/-!
# Proofs.Typing.Rules — which annotated trees are well typed

The typing rules of the language, told of trees with one annotation around each
expression. `HasType` is the rule for such an expression and `HasForm` the rule for
what is inside the annotation; `Fits` is the rule for a statement, which leads from
the variables in scope before it to those behind it. That a check answers with a well
typed tree is shown in `Proofs.Typing.Sound`.
-/

namespace ImpCompiler

set_option autoImplicit false

namespace Typing

/-- The variables in scope and their types, the innermost first. -/
abbrev Context := List (Text × Ty)

abbrev Signatures := List (Text × Signature)

section Expressions

variable (σ : Signatures) (Γ : Context)

mutual

/-- An annotated expression has the type of its annotation. -/
inductive HasType : Expr → Ty → Prop
  | typed {x : Expr} {t : Ty} (form : HasForm x t) : HasType (.typed x t) t

inductive HasForm : Expr → Ty → Prop
  | int {p : Pos} {v : Int64} : HasForm (.int p v) Ty.int
  | double {p : Pos} {v : Double} : HasForm (.double p v) Ty.double
  | bool {p : Pos} {v : Bool} : HasForm (.bool p v) Ty.boolean
  | string {p : Pos} {v : Text} : HasForm (.string p v) Ty.string
  | ident {p : Pos} {name : Text} {t : Ty} (known : Γ.lookup name = some t) :
      HasForm (.ident p name) t
  | unary {p : Pos} {op : UnOp} {x : Expr} {t : Ty} (accepts : op.accepts t = true)
      (operand : HasType x t) : HasForm (.unary p op x) t
  | binary {p : Pos} {op : BinOp} {x y : Expr} {t : Ty} (accepts : op.accepts t = true)
      (left : HasType x t) (right : HasType y t) : HasForm (.binary p op x y) (op.result t)
  | call {p : Pos} {name : Text} {args : List Expr} {s : Signature}
      (known : σ.lookup name = some s) (arguments : HasTypes args s.params) :
      HasForm (.call p name args) s.ret
  | index {p : Pos} {a i : Expr} {t u : Ty} (elem : t.elem? = some u) (array : HasType a t)
      (index : HasType i Ty.int) : HasForm (.index p a i) u
  | new {p : Pos} {elem : Ty} {sizes : List Expr} (constructible : elem.base.isConstructible = true)
      (some : sizes ≠ []) (ints : HasTypes sizes (List.replicate sizes.length Ty.int)) :
      HasForm (.new p elem sizes) (elem.arrayOf sizes.length)
  | length {p : Pos} {a : Expr} {m : Text} {t : Ty} (isArray : t.isArray = true)
      (member : m = "length") (array : HasType a t) : HasForm (.length p a m) Ty.int

inductive HasTypes : List Expr → List Ty → Prop
  | nil : HasTypes [] []
  | cons {e : Expr} {es : List Expr} {t : Ty} {ts : List Ty} (first : HasType e t)
      (rest : HasTypes es ts) : HasTypes (e :: es) (t :: ts)

end

/-- What can be assigned to: a variable or an element of an array. -/
def Assignable (target : Expr) : Prop :=
  (∃ p name, target.strip = .ident p name) ∨ ∃ p a i, target.strip = .index p a i

end Expressions

section Statements

variable (σ : Signatures)

/-- The names of a declaration, each known to those behind it. -/
inductive Declares (t : Ty) : Context → List DeclItem → Context → Prop
  | nil {Γ : Context} : Declares t Γ [] Γ
  | cons {Γ Γ' : Context} {item : DeclItem} {rest : List DeclItem}
      (start : ∀ e, item.init = some e → HasType σ Γ e t)
      (others : Declares t ((item.name, t) :: Γ) rest Γ') : Declares t Γ (item :: rest) Γ'

variable (ret : Ty)

mutual

/-- A statement of a function that returns `ret`. -/
inductive Fits : Context → Stmt → Context → Prop
  | block {Γ Γ' : Context} {p : Pos} {body : List Stmt} (inner : FitsAll Γ body Γ') :
      Fits Γ (.block p body) Γ
  | decl {Γ Γ' : Context} {p : Pos} {t : Ty} {items : List DeclItem} (some : t ≠ Ty.void)
      (declares : Declares σ t Γ items Γ') : Fits Γ (.decl p t items) Γ'
  | assign {Γ : Context} {p : Pos} {target value : Expr} {t : Ty} (assignable : Assignable target)
      (left : HasType σ Γ target t) (right : HasType σ Γ value t) : Fits Γ (.assign p target value) Γ
  | incr {Γ : Context} {p : Pos} {name : Text} {decrement : Bool}
      (known : Γ.lookup name = some Ty.int) : Fits Γ (.incr p name decrement) Γ
  | ifThen {Γ Γ' : Context} {p : Pos} {c : Expr} {yes : Stmt} (cond : HasType σ Γ c Ty.boolean)
      (inner : Fits Γ yes Γ') : Fits Γ (.ifThen p c yes) Γ
  | ifElse {Γ Γ' Γ'' : Context} {p : Pos} {c : Expr} {yes no : Stmt}
      (cond : HasType σ Γ c Ty.boolean) (inner : Fits Γ yes Γ') (inner' : Fits Γ no Γ'') :
      Fits Γ (.ifElse p c yes no) Γ
  | while {Γ Γ' : Context} {p : Pos} {c : Expr} {body : Stmt} (cond : HasType σ Γ c Ty.boolean)
      (inner : Fits Γ body Γ') : Fits Γ (.while p c body) Γ
  | forEach {Γ Γ' : Context} {p : Pos} {elem t : Ty} {name : Text} {array : Expr} {body : Stmt}
      (whole : HasType σ Γ array t) (elems : t.elem? = some elem)
      (inner : Fits ((name, elem) :: Γ) body Γ') : Fits Γ (.forEach p elem name array body) Γ
  | ret {Γ : Context} {p : Pos} {value : Expr} (some : ret ≠ Ty.void)
      (answer : HasType σ Γ value ret) : Fits Γ (.ret p value) Γ
  | retVoid {Γ : Context} {p : Pos} (none : ret = Ty.void) : Fits Γ (.retVoid p) Γ
  | expr {Γ : Context} {p : Pos} {e : Expr} (effect : HasType σ Γ e Ty.void) : Fits Γ (.expr p e) Γ
  | empty {Γ : Context} {p : Pos} : Fits Γ (.empty p) Γ

inductive FitsAll : Context → List Stmt → Context → Prop
  | nil {Γ : Context} : FitsAll Γ [] Γ
  | cons {Γ Γ' Γ'' : Context} {s : Stmt} {rest : List Stmt} (first : Fits Γ s Γ')
      (others : FitsAll Γ' rest Γ'') : FitsAll Γ (s :: rest) Γ''

end

end Statements

def paramContext (f : FuncDef) : Context := (f.params.map fun q => (q.name, q.type)).reverse

structure FitsFunction (σ : Signatures) (f : FuncDef) : Prop where
  params : ∀ q ∈ f.params, q.type ≠ Ty.void
  body : ∃ Γ, FitsAll σ f.ret (paramContext f) f.body Γ

/-- A program whose functions are well typed, where the signatures are those of its
functions and the built-in ones. -/
structure FitsProgram (σ : Signatures) (p : Program) : Prop where
  functions : ∀ f ∈ p.functions, FitsFunction σ f
  signatures : ∀ r ∈ σ, r ∈ builtins ∨ ∃ f ∈ p.functions, r = (f.name, f.signature)

end Typing

end ImpCompiler
