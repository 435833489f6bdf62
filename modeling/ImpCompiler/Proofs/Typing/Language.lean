import ImpCompiler.Proofs.Typing.Rules

/-!
# Proofs.Typing.Language — the typing rules of the language

The rules that decide which programs are well typed, told of trees without annotations.
`Derives` is the rule for an expression. The rules for statements, functions and programs
(`Admits`, `AdmitsFunction`, `AdmitsProgram`) ask of an expression whatever `J` asks:
with `Derives` they say which programs are well typed, and with the rules for annotated
expressions they say how a checked program looks.

A statement is admitted behind the variables `Γ` of the scopes around it and the
variables `Δ` declared in its own scope so far. A name may be declared once in a scope,
and may hide those of the scopes around.
-/

namespace ImpCompiler

set_option autoImplicit false

/-! ## Trees without annotations -/

namespace Expr

mutual

def erase : Expr → Expr
  | .int p v => .int p v
  | .double p v => .double p v
  | .bool p v => .bool p v
  | .string p v => .string p v
  | .ident p name => .ident p name
  | .unary p op x => .unary p op x.erase
  | .binary p op x y => .binary p op x.erase y.erase
  | .call p name args => .call p name (eraseAll args)
  | .index p a i => .index p a.erase i.erase
  | .new p elem sizes => .new p elem (eraseAll sizes)
  | .length p a m => .length p a.erase m
  | .typed x _ => x.erase

def eraseAll : List Expr → List Expr
  | [] => []
  | e :: es => e.erase :: eraseAll es

end

theorem eraseAll_eq_map (es : List Expr) : eraseAll es = es.map erase := by
  induction es with
  | nil => rfl
  | cons e es ih => rw [eraseAll, ih, List.map_cons]

mutual

/-- Every expression inside and the whole have exactly one annotation, and it is a type
that `T` has for the expression. -/
def Annotated (T : Expr → Ty → Prop) : Expr → Prop
  | .typed x t => T x.erase t ∧ x.PartsAnnotated T
  | _ => False

/-- The whole has no annotation, and the expressions inside have one each. -/
def PartsAnnotated (T : Expr → Ty → Prop) : Expr → Prop
  | .int .. | .double .. | .bool .. | .string .. | .ident .. => True
  | .unary _ _ x | .length _ x _ => x.Annotated T
  | .binary _ _ x y | .index _ x y => x.Annotated T ∧ y.Annotated T
  | .call _ _ es | .new _ _ es => AllAnnotated T es
  | .typed .. => False

def AllAnnotated (T : Expr → Ty → Prop) : List Expr → Prop
  | [] => True
  | e :: es => e.Annotated T ∧ AllAnnotated T es

end

end Expr

def DeclItem.erase (item : DeclItem) : DeclItem := { item with init := item.init.map Expr.erase }

namespace Stmt

mutual

def erase : Stmt → Stmt
  | .block p body => .block p (eraseAll body)
  | .decl p t items => .decl p t (items.map DeclItem.erase)
  | .assign p target value => .assign p target.erase value.erase
  | .incr p name decrement => .incr p name decrement
  | .ifThen p c yes => .ifThen p c.erase yes.erase
  | .ifElse p c yes no => .ifElse p c.erase yes.erase no.erase
  | .while p c body => .while p c.erase body.erase
  | .forEach p elem name array body => .forEach p elem name array.erase body.erase
  | .ret p value => .ret p value.erase
  | .retVoid p => .retVoid p
  | .expr p e => .expr p e.erase
  | .empty p => .empty p

def eraseAll : List Stmt → List Stmt
  | [] => []
  | s :: ss => s.erase :: eraseAll ss

end

end Stmt

def FuncDef.erase (f : FuncDef) : FuncDef := { f with body := Stmt.eraseAll f.body }

def Program.erase (p : Program) : Program := ⟨p.functions.map FuncDef.erase⟩

/-- The signatures of the functions of a program and of the built-in ones. -/
def Program.signatures (p : Program) : Typing.Signatures :=
  (p.functions.map fun f => (f.name, f.signature)).reverse ++ builtins

namespace Typing

/-! ## Expressions -/

/-- The operator takes two operands of the type `t` and makes a value of the type `u`. -/
inductive Operates : BinOp → Ty → Ty → Prop
  | arith {op : BinOp} {t : Ty} (arith : op ∈ [BinOp.add, .sub, .mul, .div])
      (numeric : t ∈ [Ty.int, Ty.double]) : Operates op t t
  | mod : Operates .mod Ty.int Ty.int
  | order {op : BinOp} {t : Ty} (order : op ∈ [BinOp.lt, .le, .gt, .ge])
      (numeric : t ∈ [Ty.int, Ty.double]) : Operates op t Ty.boolean
  | equality {op : BinOp} {t : Ty} (equality : op ∈ [BinOp.eq, .ne])
      (scalar : t ∈ [Ty.int, Ty.double, Ty.boolean]) : Operates op t Ty.boolean
  | logic {op : BinOp} (logic : op ∈ [BinOp.and, .or]) : Operates op Ty.boolean Ty.boolean

/-- The sign goes before an operand of the type, which it keeps. -/
inductive Signs : UnOp → Ty → Prop
  | neg {t : Ty} (numeric : t ∈ [Ty.int, Ty.double]) : Signs .neg t
  | not : Signs .not Ty.boolean

/-- The checker accepts the operand types that the language allows. -/
theorem operates_iff {op : BinOp} {t u : Ty} :
    Operates op t u ↔ op.accepts t = true ∧ u = op.result t := by
  constructor
  · intro operates
    cases operates with
    | mod => exact ⟨rfl, rfl⟩
    | logic member => cases op <;> simp at member <;> exact ⟨rfl, rfl⟩
    | arith member numeric | order member numeric =>
      cases op <;> simp at member <;>
        simpa [BinOp.accepts, BinOp.result, BinOp.isRelational, BinOp.isLogical] using numeric
    | equality member scalar =>
      cases op <;> simp at member <;>
        simpa [BinOp.accepts, BinOp.result, BinOp.isRelational, or_assoc] using scalar
  · rintro ⟨accepts, rfl⟩
    cases op <;> simp only [BinOp.accepts, Bool.or_eq_true, beq_iff_eq] at accepts
    case add | sub | mul | div => exact .arith (by simp) (by simpa using accepts)
    case lt | le | gt | ge => exact .order (by simp) (by simpa using accepts)
    case eq | ne => exact .equality (by simp) (by simpa [or_assoc] using accepts)
    case mod =>
      subst accepts
      exact .mod
    case and | or =>
      subst accepts
      exact .logic (by simp)

/-- The checker accepts the signs that the language allows. -/
theorem signs_iff {op : UnOp} {t : Ty} : Signs op t ↔ op.accepts t = true := by
  constructor
  · intro signs
    cases signs with
    | neg numeric => simpa [UnOp.accepts] using numeric
    | not => rfl
  · intro accepts
    cases op with
    | neg => exact .neg (by simpa [UnOp.accepts] using accepts)
    | not =>
      rw [UnOp.accepts, beq_iff_eq] at accepts
      subst accepts
      exact .not

section Expressions

variable (σ : Signatures) (Γ : Context)

mutual

/-- The type of an expression. Nothing but variables, calls, constructions and their
elements has an array type, so only these can be indexed. -/
inductive Derives : Expr → Ty → Prop
  | int {p : Pos} {v : Int64} : Derives (.int p v) Ty.int
  | double {p : Pos} {v : Double} : Derives (.double p v) Ty.double
  | bool {p : Pos} {v : Bool} : Derives (.bool p v) Ty.boolean
  | string {p : Pos} {v : Text} : Derives (.string p v) Ty.string
  | ident {p : Pos} {name : Text} {t : Ty} (known : Γ.lookup name = some t) :
      Derives (.ident p name) t
  | unary {p : Pos} {op : UnOp} {x : Expr} {t : Ty} (operand : Derives x t) (signs : Signs op t) :
      Derives (.unary p op x) t
  | binary {p : Pos} {op : BinOp} {x y : Expr} {t u : Ty} (left : Derives x t) (right : Derives y t)
      (operates : Operates op t u) : Derives (.binary p op x y) u
  | call {p : Pos} {name : Text} {args : List Expr} {s : Signature}
      (known : σ.lookup name = some s) (arguments : DerivesAll args s.params) :
      Derives (.call p name args) s.ret
  | index {p : Pos} {a i : Expr} {t u : Ty} (array : Derives a t) (index : Derives i Ty.int)
      (elem : t.elem? = some u) : Derives (.index p a i) u
  | new {p : Pos} {elem : Ty} {sizes : List Expr} (base : elem.base ∈ [Base.int, .double, .boolean])
      (some : sizes ≠ []) (ints : DerivesAll sizes (List.replicate sizes.length Ty.int)) :
      Derives (.new p elem sizes) (elem.arrayOf sizes.length)
  | length {p : Pos} {a : Expr} {t : Ty} (array : Derives a t) (isArray : t.isArray = true) :
      Derives (.length p a "length") Ty.int

inductive DerivesAll : List Expr → List Ty → Prop
  | nil : DerivesAll [] []
  | cons {e : Expr} {es : List Expr} {t : Ty} {ts : List Ty} (first : Derives e t)
      (rest : DerivesAll es ts) : DerivesAll (e :: es) (t :: ts)

end

end Expressions

/-- An expression has one type at most. -/
theorem Derives.unique {σ : Signatures} {Γ : Context} {e : Expr} {t u : Ty}
    (first : Derives σ Γ e t) (second : Derives σ Γ e u) : t = u := by
  match first with
  | .int | .double | .bool | .string | .new .. | .length .. =>
    cases second
    rfl
  | .ident known =>
    cases second with
    | ident known' => exact Option.some.inj (known.symm.trans known')
  | .unary operand _ =>
    cases second with
    | unary operand' => exact operand.unique operand'
  | .binary left _ operates =>
    cases second with
    | binary left' _ operates' =>
      cases left.unique left'
      rw [(operates_iff.1 operates).2, (operates_iff.1 operates').2]
  | .call known _ =>
    cases second with
    | call known' =>
      cases known.symm.trans known'
      rfl
  | .index array _ elem =>
    cases second with
    | index array' _ elem' =>
      cases array.unique array'
      exact Option.some.inj (elem.symm.trans elem')

/-! ## Statements -/

section Statements

variable (J : Context → Expr → Ty → Prop)

/-- The names of a declaration in the scope `Δ`, each known to those behind it but not to
its own initial value. -/
inductive Introduces (t : Ty) (Γ : Context) : Scope → List DeclItem → Scope → Prop
  | nil {Δ : Scope} : Introduces t Γ Δ [] Δ
  | cons {Δ Δ' : Scope} {item : DeclItem} {rest : List DeclItem}
      (start : ∀ e, item.init = some e → J (Δ ++ Γ) e t) (new : Δ.lookup item.name = none)
      (others : Introduces t Γ ((item.name, t) :: Δ) rest Δ') : Introduces t Γ Δ (item :: rest) Δ'

variable (ret : Ty)

mutual

/-- A statement of a function that returns `ret`, in the scope `Δ` that it leaves as
`Δ'`. -/
inductive Admits : Context → Scope → Stmt → Scope → Prop
  | block {Γ : Context} {Δ Δ' : Scope} {p : Pos} {body : List Stmt}
      (inner : AdmitsAll (Δ ++ Γ) [] body Δ') : Admits Γ Δ (.block p body) Δ
  | decl {Γ : Context} {Δ Δ' : Scope} {p : Pos} {t : Ty} {items : List DeclItem} (some : t ≠ Ty.void)
      (introduces : Introduces J t Γ Δ items Δ') : Admits Γ Δ (.decl p t items) Δ'
  | assign {Γ : Context} {Δ : Scope} {p : Pos} {target value : Expr} {t : Ty}
      (assignable : Assignable target) (left : J (Δ ++ Γ) target t) (right : J (Δ ++ Γ) value t) :
      Admits Γ Δ (.assign p target value) Δ
  | incr {Γ : Context} {Δ : Scope} {p : Pos} {name : Text} {decrement : Bool}
      (known : (Δ ++ Γ).lookup name = some Ty.int) : Admits Γ Δ (.incr p name decrement) Δ
  | ifThen {Γ : Context} {Δ Δ' : Scope} {p : Pos} {c : Expr} {yes : Stmt}
      (cond : J (Δ ++ Γ) c Ty.boolean) (inner : Admits (Δ ++ Γ) [] yes Δ') :
      Admits Γ Δ (.ifThen p c yes) Δ
  | ifElse {Γ : Context} {Δ Δ' Δ'' : Scope} {p : Pos} {c : Expr} {yes no : Stmt}
      (cond : J (Δ ++ Γ) c Ty.boolean) (inner : Admits (Δ ++ Γ) [] yes Δ')
      (inner' : Admits (Δ ++ Γ) [] no Δ'') : Admits Γ Δ (.ifElse p c yes no) Δ
  | while {Γ : Context} {Δ Δ' : Scope} {p : Pos} {c : Expr} {body : Stmt}
      (cond : J (Δ ++ Γ) c Ty.boolean) (inner : Admits (Δ ++ Γ) [] body Δ') :
      Admits Γ Δ (.while p c body) Δ
  | forEach {Γ : Context} {Δ Δ' : Scope} {p : Pos} {elem t : Ty} {name : Text} {array : Expr}
      {body : Stmt} (whole : J (Δ ++ Γ) array t) (elems : t.elem? = some elem)
      (inner : Admits ((name, elem) :: (Δ ++ Γ)) [] body Δ') :
      Admits Γ Δ (.forEach p elem name array body) Δ
  | ret {Γ : Context} {Δ : Scope} {p : Pos} {value : Expr} (some : ret ≠ Ty.void)
      (answer : J (Δ ++ Γ) value ret) : Admits Γ Δ (.ret p value) Δ
  | retVoid {Γ : Context} {Δ : Scope} {p : Pos} (none : ret = Ty.void) : Admits Γ Δ (.retVoid p) Δ
  | expr {Γ : Context} {Δ : Scope} {p : Pos} {e : Expr} (effect : J (Δ ++ Γ) e Ty.void) :
      Admits Γ Δ (.expr p e) Δ
  | empty {Γ : Context} {Δ : Scope} {p : Pos} : Admits Γ Δ (.empty p) Δ

inductive AdmitsAll : Context → Scope → List Stmt → Scope → Prop
  | nil {Γ : Context} {Δ : Scope} : AdmitsAll Γ Δ [] Δ
  | cons {Γ : Context} {Δ Δ' Δ'' : Scope} {s : Stmt} {rest : List Stmt} (first : Admits Γ Δ s Δ')
      (others : AdmitsAll Γ Δ' rest Δ'') : AdmitsAll Γ Δ (s :: rest) Δ''

end

end Statements

section Mono

variable {J K : Context → Expr → Ty → Prop} {ret : Ty}

theorem Introduces.mono (weaker : ∀ Γ e t, J Γ e t → K Γ e t) {t : Ty} {Γ : Context} {Δ Δ' : Scope}
    {items : List DeclItem} (introduces : Introduces J t Γ Δ items Δ') :
    Introduces K t Γ Δ items Δ' := by
  induction introduces with
  | nil => exact .nil
  | cons start new _ ih => exact .cons (fun e init => weaker _ _ _ (start e init)) new ih

mutual

/-- A statement that is admitted stays so under weaker rules for expressions. -/
theorem Admits.mono (weaker : ∀ Γ e t, J Γ e t → K Γ e t) {Γ : Context} {Δ Δ' : Scope} {s : Stmt}
    (admits : Admits J ret Γ Δ s Δ') : Admits K ret Γ Δ s Δ' := by
  match admits with
  | .block inner => exact .block (inner.mono weaker)
  | .decl value introduces => exact .decl value (introduces.mono weaker)
  | .assign assignable left right =>
    exact .assign assignable (weaker _ _ _ left) (weaker _ _ _ right)
  | .incr known => exact .incr known
  | .ifThen cond inner => exact .ifThen (weaker _ _ _ cond) (inner.mono weaker)
  | .ifElse cond inner inner' =>
    exact .ifElse (weaker _ _ _ cond) (inner.mono weaker) (inner'.mono weaker)
  | .while cond inner => exact .while (weaker _ _ _ cond) (inner.mono weaker)
  | .forEach whole elems inner => exact .forEach (weaker _ _ _ whole) elems (inner.mono weaker)
  | .ret value answer => exact .ret value (weaker _ _ _ answer)
  | .retVoid void => exact .retVoid void
  | .expr effect => exact .expr (weaker _ _ _ effect)
  | .empty => exact .empty

theorem AdmitsAll.mono (weaker : ∀ Γ e t, J Γ e t → K Γ e t) {Γ : Context} {Δ Δ' : Scope}
    {ss : List Stmt} (admits : AdmitsAll J ret Γ Δ ss Δ') : AdmitsAll K ret Γ Δ ss Δ' := by
  match admits with
  | .nil => exact .nil
  | .cons first others => exact .cons (first.mono weaker) (others.mono weaker)

end

end Mono

/-- A statement that returns on every way through it. -/
inductive Returns : Stmt → Prop
  | ret {p : Pos} {value : Expr} : Returns (.ret p value)
  | retVoid {p : Pos} : Returns (.retVoid p)
  | block {p : Pos} {body : List Stmt} {s : Stmt} (member : s ∈ body) (returns : Returns s) :
      Returns (.block p body)
  | ifElse {p : Pos} {c : Expr} {yes no : Stmt} (first : Returns yes) (second : Returns no) :
      Returns (.ifElse p c yes no)

mutual

/-- The checker knows the statements that always return. -/
theorem returns_iff : ∀ (s : Stmt), s.returns = true ↔ Returns s
  | .ret .. => ⟨fun _ => .ret, fun _ => rfl⟩
  | .retVoid .. => ⟨fun _ => .retVoid, fun _ => rfl⟩
  | .block _ body => by
    rw [Stmt.returns, anyReturns_iff body]
    constructor
    · rintro ⟨s, member, returns⟩
      exact .block member returns
    · rintro (_ | _ | ⟨member, returns⟩)
      exact ⟨_, member, returns⟩
  | .ifElse _ _ yes no => by
    rw [Stmt.returns, Bool.and_eq_true, returns_iff yes, returns_iff no]
    constructor
    · rintro ⟨first, second⟩
      exact .ifElse first second
    · rintro (_ | _ | _ | ⟨first, second⟩)
      exact ⟨first, second⟩
  | .decl .. | .assign .. | .incr .. | .ifThen .. | .while .. | .forEach .. | .expr .. | .empty .. =>
    ⟨nofun, nofun⟩

theorem anyReturns_iff : ∀ (ss : List Stmt), Stmt.anyReturns ss = true ↔ ∃ s ∈ ss, Returns s
  | [] => by simp [Stmt.anyReturns]
  | s :: ss => by simp [Stmt.anyReturns, returns_iff s, anyReturns_iff ss]

end

/-! ## Functions and programs -/

/-- The parameters of a function share a scope with the statements of its body. -/
structure AdmitsFunction (J : Context → Expr → Ty → Prop) (f : FuncDef) : Prop where
  params : ∀ q ∈ f.params, q.type ≠ Ty.void
  names : (f.params.map Param.name).Nodup
  body : ∃ Δ, AdmitsAll J f.ret [] (paramContext f) f.body Δ
  returns : f.ret ≠ Ty.void → ∃ s ∈ f.body, Returns s

structure AdmitsProgram (J : Context → Expr → Ty → Prop) (p : Program) : Prop where
  names : (p.functions.map FuncDef.name).Nodup
  own : ∀ f ∈ p.functions, f.name ∉ builtins.map Prod.fst
  main : ∃ f ∈ p.functions, f.name = "main"
  functions : ∀ f ∈ p.functions, AdmitsFunction J f

theorem AdmitsProgram.mono {J K : Context → Expr → Ty → Prop} (weaker : ∀ Γ e t, J Γ e t → K Γ e t)
    {p : Program} (admits : AdmitsProgram J p) : AdmitsProgram K p where
  names := admits.names
  own := admits.own
  main := admits.main
  functions f member := by
    have inner := admits.functions f member
    obtain ⟨Δ, all⟩ := inner.body
    exact ⟨inner.params, inner.names, ⟨Δ, all.mono weaker⟩, inner.returns⟩

end Typing

/-- A well typed program; annotations do not count. -/
def Program.WellTyped (p : Program) : Prop :=
  Typing.AdmitsProgram (Typing.Derives p.signatures) p.erase

/-- A well typed program where every expression has exactly one annotation, which is the
type that the rules give it. -/
def Program.Annotated (p : Program) : Prop :=
  Typing.AdmitsProgram
    (fun Γ e t => e.type? = some t ∧ e.Annotated (Typing.Derives p.signatures Γ)) p

end ImpCompiler
