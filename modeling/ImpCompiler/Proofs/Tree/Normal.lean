import ImpCompiler.Proofs.Tree.Expressions
import ImpCompiler.Proofs.Typing.Settled

/-!
# Proofs.Tree.Normal — the normal form that folding reaches

An expression is normal if no operator in it has only literals as operands, apart from a division
or a remainder by the literal zero. What a well typed expression is folded to is normal, has at
each of its positions one annotation and there the type that the expression had
(`normal_folded`, `keepsTypes_folded`), and is left alone by folding (`expr_of_normal`). A position
is a way through operands by their numbers, so folding takes positions away and moves none.
-/

namespace ImpCompiler

set_option autoImplicit false

open Typing Semantics

namespace Expr

/-- The operands of an expression from left to right; annotations around it do not count. -/
def operands : Expr → List Expr
  | .int .. | .double .. | .bool .. | .string .. | .ident .. => []
  | .unary _ _ x | .length _ x _ => [x]
  | .binary _ _ x y | .index _ x y => [x, y]
  | .call _ _ es | .new _ _ es => es
  | .typed x _ => x.operands

def at? : Expr → List Nat → Option Expr
  | e, [] => some e
  | e, i :: path => e.operands[i]?.bind fun x => at? x path

/-- The types around an expression, the outermost first. -/
def annotations : Expr → List Ty
  | .typed x t => t :: x.annotations
  | _ => []

/-- Whether the expression is a literal that operators can be applied to. -/
def isConstant (e : Expr) : Bool :=
  match e.strip with
  | .int .. | .double .. | .bool .. => true
  | _ => false

/-- The expression is not an operator on literals, unless it divides an integer by zero. -/
def Reduced (e : Expr) : Prop :=
  match e.strip with
  | .unary _ _ x => x.isConstant = false
  | .binary _ op x y => x.isConstant = true → y.isConstant = true →
      (op = .div ∨ op = .mod) ∧ (∃ p a, x.strip = .int p a) ∧ ∃ p, y.strip = .int p 0
  | _ => True

/-- The expressions at all positions are reduced. -/
def Normal (e : Expr) : Prop := ∀ path x, e.at? path = some x → x.Reduced

/-- Each position of `e'` is one of `e`, and both have one annotation there, the same. -/
def KeepsTypes (e e' : Expr) : Prop :=
  ∀ path x', e'.at? path = some x' →
    ∃ x t, e.at? path = some x ∧ x.annotations = [t] ∧ x'.annotations = [t]

theorem Normal.operand {e x : Expr} (normal : e.Normal) (member : x ∈ e.operands) : x.Normal := by
  intro path y found
  obtain ⟨i, known⟩ := List.mem_iff_getElem?.1 member
  exact normal (i :: path) y (by rw [at?, known, Option.bind_some, found])

end Expr

namespace Typing

variable {σ : Signatures} {Γ : Context} {e : Expr} {t : Ty}

theorem HasTypes.each {es : List Expr} {ts : List Ty} (typed : HasTypes σ Γ es ts) :
    ∀ e ∈ es, ∃ t, HasType σ Γ e t := by
  induction es generalizing ts with
  | nil => simp
  | cons e es ih =>
    cases typed with
    | cons first rest => exact List.forall_mem_cons.2 ⟨⟨_, first⟩, ih rest⟩

/-- The operands of a well typed expression are well typed. -/
theorem HasType.operands (typed : HasType σ Γ e t) : ∀ x ∈ e.operands, ∃ u, HasType σ Γ x u := by
  obtain ⟨form⟩ := typed
  cases form with
  | unary _ operand => simpa [Expr.operands] using ⟨_, operand⟩
  | binary _ left right => simpa [Expr.operands] using ⟨⟨_, left⟩, ⟨_, right⟩⟩
  | call _ arguments => exact arguments.each
  | index _ array index => simpa [Expr.operands] using ⟨⟨_, array⟩, ⟨_, index⟩⟩
  | new _ _ ints => exact ints.each
  | length _ _ array => simpa [Expr.operands] using ⟨_, array⟩
  | _ => simp [Expr.operands]

theorem HasType.annotations (typed : HasType σ Γ e t) : e.annotations = [t] := by
  obtain ⟨form⟩ := typed
  cases form <;> rfl

end Typing

namespace Fold

variable {σ : Signatures} {Γ : Context} {p : Pos} {e x y r : Expr} {t : Ty} {op : BinOp}

/-! ## Operators on literals -/

/-- What a sign folds to is a literal. -/
theorem unary?_literal (folds : unary? p x = some r) : ∃ v t, Literal r v t := by
  unfold unary? at folds
  split at folds
  · cases folds
    exact ⟨_, _, .int⟩
  · cases folds
    exact ⟨_, _, .double⟩
  · cases folds
    exact ⟨_, _, .bool⟩
  · cases folds

theorem binary?_literal (folds : binary? p op x y = some r) : ∃ v t, Literal r v t := by
  unfold binary? at folds
  split at folds
  · obtain ⟨v, literal, -⟩ := onInts_literal folds
    exact ⟨v, _, literal⟩
  · obtain ⟨v, literal, -⟩ := onDoubles_literal folds
    exact ⟨v, _, literal⟩
  · obtain ⟨v, literal, -⟩ := onBools_literal folds
    exact ⟨v, _, literal⟩
  · cases folds

theorem Literal.operands {v : Val} (literal : Literal e v t) : e.operands = [] := by
  cases literal <;> rfl

theorem Literal.reduced {v : Val} (literal : Literal e v t) : e.Reduced := by
  cases literal <;> trivial

/-- A literal that operators can be applied to, by its type. -/
theorem literal_of_isConstant (typed : HasType σ Γ e t) (constant : e.isConstant = true) :
    ∃ v, Literal e v t := by
  obtain ⟨form⟩ := typed
  cases form with
  | int => exact ⟨_, .int⟩
  | double => exact ⟨_, .double⟩
  | bool => exact ⟨_, .bool⟩
  | _ => cases constant

theorem unary?_eq_none_iff (p : Pos) (typed : HasType σ Γ x t) :
    unary? p x = none ↔ x.isConstant = false := by
  obtain ⟨form⟩ := typed
  cases form <;> simp [unary?, Expr.isConstant, Expr.strip]

theorem onInts_eq_none_iff {a b : Int64} (accepts : op.accepts Ty.int = true) :
    onInts p op a b = none ↔ (op = .div ∨ op = .mod) ∧ b = 0 := by
  cases op
  case and | or => exact absurd accepts (by decide)
  all_goals simp [onInts]

/-- Operators on doubles and on booleans always have a value, if they take such operands. -/
theorem onDoubles_ne_none {a b : Double} (accepts : op.accepts Ty.double = true) :
    onDoubles p op a b ≠ none := by
  cases op
  case mod | and | or => exact absurd accepts (by decide)
  all_goals simp [onDoubles]

theorem onBools_ne_none {a b : Bool} (accepts : op.accepts Ty.boolean = true) :
    onBools p op a b ≠ none := by
  cases op
  case and | or | eq | ne => simp [onBools]
  all_goals exact absurd accepts (by decide)

/-- Which operators are left alone, among those that take operands of the type. -/
theorem binary?_eq_none_iff (accepts : op.accepts t = true) (left : HasType σ Γ x t)
    (right : HasType σ Γ y t) (u : Ty) :
    binary? p op x y = none ↔ (Expr.typed (.binary p op x y) u).Reduced := by
  constructor
  · intro stays constant constant'
    obtain ⟨v, literal⟩ := literal_of_isConstant left constant
    obtain ⟨w, literal'⟩ := literal_of_isConstant right constant'
    cases literal with
    | int =>
      cases literal' with
      | int =>
        obtain ⟨division, rfl⟩ := (onInts_eq_none_iff accepts).1 stays
        exact ⟨division, ⟨_, _, rfl⟩, _, rfl⟩
    | double =>
      cases literal' with
      | double => exact absurd stays (onDoubles_ne_none accepts)
    | bool =>
      cases literal' with
      | bool => exact absurd stays (onBools_ne_none accepts)
  · intro reduced
    unfold binary?
    split
    · obtain ⟨division, -, q, zero⟩ := reduced rfl rfl
      cases zero
      rcases division with rfl | rfl <;> rfl
    · obtain ⟨-, ⟨q, a, int⟩, -⟩ := reduced rfl rfl
      cases int
    · obtain ⟨-, ⟨q, a, int⟩, -⟩ := reduced rfl rfl
      cases int
    · rfl

/-! ## What an expression is folded to -/

theorem exprs_eq : ∀ (es : List Expr), (∀ e ∈ es, (expr e).stop = none) →
    exprs es = ⟨es.map folded, none⟩
  | [], _ => by
    rw [exprs]
    rfl
  | e :: es, through => by
    obtain ⟨first, others⟩ := List.forall_mem_cons.1 through
    rw [exprs, expr_eq first, exprs_eq es others]
    rfl

theorem through (typed : HasType σ Γ e t) : (expr e).stop = none := (expr_sound e typed).through

theorem through_each {es : List Expr} {ts : List Ty} (typed : HasTypes σ Γ es ts) :
    ∀ e ∈ es, (expr e).stop = none := by
  intro e member
  obtain ⟨u, typed⟩ := typed.each e member
  exact through typed

/-- A sign becomes a literal or is put before what its operand is folded to. -/
theorem folded_unary {op : UnOp} (operand : HasType σ Γ x t) :
    folded (.typed (.unary p op x) t) =
      (unary? p (folded x)).getD (.typed (.unary p op (folded x)) t) := by
  simp [folded, expr, through operand]

theorem folded_binary {u : Ty} (left : HasType σ Γ x t) (right : HasType σ Γ y t) :
    folded (.typed (.binary p op x y) u) =
      (binary? p op (folded x) (folded y)).getD (.typed (.binary p op (folded x) (folded y)) u) := by
  simp [folded, expr, Folded.andThen, through left, through right]

/-- Folding makes a literal of an operator, or else leaves an expression its operands, folded. -/
theorem operands_folded (typed : HasType σ Γ e t) :
    (folded e).operands = [] ∨ (folded e).operands = e.operands.map folded := by
  obtain ⟨form⟩ := typed
  cases form with
  | unary _ operand =>
    rw [folded_unary operand]
    cases folds : unary? _ _ with
    | none => exact .inr rfl
    | some r =>
      obtain ⟨v, u, literal⟩ := unary?_literal folds
      exact .inl literal.operands
  | binary _ left right =>
    rw [folded_binary left right]
    cases folds : binary? _ _ _ _ with
    | none => exact .inr rfl
    | some r =>
      obtain ⟨v, u, literal⟩ := binary?_literal folds
      exact .inl literal.operands
  | call _ arguments =>
    rw [folded, expr, exprs_eq _ (through_each arguments)]
    exact .inr rfl
  | index _ array index =>
    rw [folded, expr, andThen_map (through array) (through index)]
    exact .inr rfl
  | new _ _ ints =>
    rw [folded, expr, exprs_eq _ (through_each ints)]
    exact .inr rfl
  | length _ _ array =>
    rw [folded, expr, map_of_through (through array)]
    exact .inr rfl
  | _ => exact .inl (by simp [folded, expr, Expr.operands])

/-- At each position a folded expression has what the expression there is folded to. -/
theorem at?_folded {path : List Nat} {x' : Expr} (typed : HasType σ Γ e t)
    (found : (folded e).at? path = some x') :
    ∃ x u, e.at? path = some x ∧ HasType σ Γ x u ∧ x' = folded x := by
  induction path generalizing e t with
  | nil =>
    cases found
    exact ⟨e, t, rfl, typed, rfl⟩
  | cons i path ih =>
    obtain ⟨y, operand, rest⟩ := Option.bind_eq_some_iff.1 found
    rcases operands_folded typed with none | all
    · rw [none] at operand
      cases operand
    · rw [all, List.getElem?_map] at operand
      obtain ⟨z, known, rfl⟩ := Option.map_eq_some_iff.1 operand
      obtain ⟨u, typed⟩ := typed.operands z (List.mem_of_getElem? known)
      obtain ⟨x, v, there, typed, rfl⟩ := ih typed rest
      exact ⟨x, v, by rw [Expr.at?, known, Option.bind_some, there], typed, rfl⟩

/-- Nothing is left to fold in what was folded. -/
theorem reduced_folded (typed : HasType σ Γ e t) : (folded e).Reduced := by
  obtain ⟨form⟩ := typed
  cases form with
  | unary _ operand =>
    rw [folded_unary operand]
    cases folds : unary? _ _ with
    | none => exact (unary?_eq_none_iff _ (expr_sound _ operand).typed).1 folds
    | some r =>
      obtain ⟨v, u, literal⟩ := unary?_literal folds
      exact literal.reduced
  | binary accepts left right =>
    rw [folded_binary left right]
    cases folds : binary? _ _ _ _ with
    | none =>
      have operands := And.intro (expr_sound _ left).typed (expr_sound _ right).typed
      exact (binary?_eq_none_iff accepts operands.1 operands.2 _).1 folds
    | some r =>
      obtain ⟨v, u, literal⟩ := binary?_literal folds
      exact literal.reduced
  | call _ arguments =>
    rw [folded, expr]
    trivial
  | index _ array index =>
    rw [folded, expr]
    trivial
  | new _ _ ints =>
    rw [folded, expr]
    trivial
  | length _ _ array =>
    rw [folded, expr]
    trivial
  | _ => simp [folded, expr, Expr.Reduced, Expr.strip]

theorem normal_folded (typed : HasType σ Γ e t) : (folded e).Normal := by
  intro path x' found
  obtain ⟨x, u, -, typed, rfl⟩ := at?_folded typed found
  exact reduced_folded typed

theorem keepsTypes_folded (typed : HasType σ Γ e t) : e.KeepsTypes (folded e) := by
  intro path x' found
  obtain ⟨x, u, there, typed, rfl⟩ := at?_folded typed found
  exact ⟨x, u, there, typed.annotations, (expr_sound x typed).typed.annotations⟩

/-! ## Normal expressions stay as they are -/

mutual

/-- A normal expression is folded to itself. -/
theorem expr_of_normal : ∀ (e : Expr) {t : Ty}, HasType σ Γ e t → e.Normal → expr e = ⟨e, none⟩
  | .typed x _, _, .typed form, normal => form_of_normal x form normal
  | .int .., _, typed, _ | .double .., _, typed, _ | .bool .., _, typed, _ | .string .., _, typed, _
  | .ident .., _, typed, _ | .unary .., _, typed, _ | .binary .., _, typed, _ | .call .., _, typed, _
  | .index .., _, typed, _ | .new .., _, typed, _ | .length .., _, typed, _ => nomatch typed

/-- Folding leaves normal expressions as they are. -/
theorem form_of_normal : ∀ (x : Expr) {t : Ty}, HasForm σ Γ x t → (Expr.typed x t).Normal →
    expr (.typed x t) = ⟨.typed x t, none⟩
  | .int .., _, _, _ | .double .., _, _, _ | .bool .., _, _, _ | .string .., _, _, _
  | .ident .., _, _, _ => by simp [expr]
  | .unary p _ x, _, .unary _ operand, normal => by
    have inner := expr_of_normal x operand (normal.operand (by simp [Expr.operands]))
    have stays := (unary?_eq_none_iff p operand).2 (normal [] _ rfl)
    simp only [expr, inner, stays, Option.getD_none]
  | .binary _ _ x y, _, .binary accepts left right, normal => by
    have first := expr_of_normal x left (normal.operand (by simp [Expr.operands]))
    have second := expr_of_normal y right (normal.operand (by simp [Expr.operands]))
    have stays := (binary?_eq_none_iff accepts left right _).2 (normal [] _ rfl)
    simp only [expr, Folded.andThen, first, second, stays, Option.getD_none]
  | .call _ _ args, _, .call _ arguments, normal => by
    rw [expr, exprs_of_normal args arguments fun e member => normal.operand member]
    rfl
  | .index _ a i, _, .index _ array index, normal => by
    have first := expr_of_normal a array (normal.operand (by simp [Expr.operands]))
    have second := expr_of_normal i index (normal.operand (by simp [Expr.operands]))
    rw [expr, first, second]
    rfl
  | .new _ _ sizes, _, .new _ _ ints, normal => by
    rw [expr, exprs_of_normal sizes ints fun e member => normal.operand member]
    rfl
  | .length _ a _, _, .length _ _ array, normal => by
    rw [expr, expr_of_normal a array (normal.operand (by simp [Expr.operands]))]
    rfl
  | .typed .., _, form, _ => nomatch form

theorem exprs_of_normal : ∀ (es : List Expr) {ts : List Ty}, HasTypes σ Γ es ts →
    (∀ e ∈ es, e.Normal) → exprs es = ⟨es, none⟩
  | [], _, _, _ => by rw [exprs]
  | e :: es, _, .cons first rest, normal => by
    obtain ⟨here, others⟩ := List.forall_mem_cons.1 normal
    rw [exprs, expr_of_normal e first here, exprs_of_normal es rest others]
    rfl

end

end Fold

/-! ## Programs -/

namespace Program

variable {σ : Signatures} {p : Program}

theorem hasType_expressions (admits : AdmitsProgram (HasType σ) p) :
    ∀ f ∈ p.functions, ∀ e ∈ f.expressions, ∃ Γ t, HasType σ Γ e t := by
  intro f member
  obtain ⟨Γ, fits⟩ := (admits.functions f member).fits.body
  exact fits.expressions

theorem fold_of_admits (admits : AdmitsProgram (HasType σ) p) (threads : Int) :
    p.fold threads = ⟨⟨p.functions.map (FuncDef.mapExprs Fold.folded)⟩, none⟩ := by
  refine fold_eq_map (fun f member e inside => ?_) threads
  obtain ⟨Γ, t, typed⟩ := hasType_expressions admits f member e inside
  exact Fold.through typed

theorem admits_folded (admits : AdmitsProgram (HasType σ) p) :
    AdmitsProgram (HasType σ) ⟨p.functions.map (FuncDef.mapExprs Fold.folded)⟩ := by
  refine admits.mapExprs (fun Γ e t typed => ?_) fun Γ e t typed assignable => ?_
  · exact (Fold.expr_sound e typed).typed
  · exact (Fold.target_sound assignable typed).1

/-- A program of normal expressions is folded to itself. -/
theorem fold_of_normal (admits : AdmitsProgram (HasType σ) p)
    (normal : ∀ f ∈ p.functions, ∀ e ∈ f.expressions, e.Normal) (threads : Int) :
    p.fold threads = ⟨p, none⟩ := by
  have same : ∀ f ∈ p.functions, f.mapExprs Fold.folded = f := by
    intro f member
    refine FuncDef.mapExprs_eq_self fun e inside => ?_
    obtain ⟨Γ, t, typed⟩ := hasType_expressions admits f member e inside
    rw [Fold.folded, Fold.expr_of_normal e typed (normal f member e inside)]
  rw [fold_of_admits admits, List.map_congr_left same, List.map_id']

end Program

/-- Folding reaches a typed normal form: whatever number of threads folds a checked program, no
operator is left with only literals as operands, but for integers divided by the literal zero. The
expressions of the program are in their places, and at each position that is left there is one
annotation, with the type that was there before. The folded program is accepted by a check that
changes nothing, and folding it again changes nothing. -/
theorem folding_reaches_a_typed_normal_form {p q : Program} (checked : p.check = (q, none))
    (threads : Int) :
    ∃ r, q.fold threads = ⟨r, none⟩ ∧
      (∀ f ∈ r.functions, ∀ e ∈ f.expressions, e.Normal) ∧
      List.Forall₂ (fun f g => List.Forall₂ Expr.KeepsTypes f.expressions g.expressions)
        q.functions r.functions ∧
      r.check = (r, none) ∧ ∀ threads', r.fold threads' = ⟨r, none⟩ := by
  have admits := Program.check_admits (show p.check.2 = none by rw [checked])
  have signatures := Program.signatures_of_erase p.check_erase
  rw [checked] at admits signatures
  have typed := Program.hasType_expressions admits
  have again := Program.admits_folded admits
  have normal : ∀ g ∈ q.functions.map (FuncDef.mapExprs Fold.folded),
      ∀ e ∈ g.expressions, e.Normal := by
    intro g member e inside
    obtain ⟨f, known, rfl⟩ := List.mem_map.1 member
    rw [FuncDef.expressions_mapExprs] at inside
    obtain ⟨x, there, rfl⟩ := List.mem_map.1 inside
    obtain ⟨Γ, t, typed⟩ := typed f known x there
    exact Fold.normal_folded typed
  refine ⟨_, Program.fold_of_admits admits threads, normal, ?_, ?_,
    Program.fold_of_normal again normal⟩
  · refine List.forall₂_map_right_iff.2 (List.forall₂_same.2 fun f member => ?_)
    rw [FuncDef.expressions_mapExprs]
    refine List.forall₂_map_right_iff.2 (List.forall₂_same.2 fun e inside => ?_)
    obtain ⟨Γ, t, typed⟩ := typed f member e inside
    exact Fold.keepsTypes_folded typed
  · refine Program.check_settled ?_
    have same : Program.signatures ⟨q.functions.map (FuncDef.mapExprs Fold.folded)⟩ =
        p.signatures := by
      rw [← signatures, Program.signatures, Program.signatures, List.map_map]
      rfl
    rwa [same]

/-- The program with constants of all kinds, where a remainder by zero is left. -/
theorem constants_reach_a_normal_form : ∃ q, constants.check = (q, none) ∧
    ∃ r, q.fold 2 = ⟨r, none⟩ ∧ (∀ f ∈ r.functions, ∀ e ∈ f.expressions, e.Normal) ∧
      List.Forall₂ (fun f g => List.Forall₂ Expr.KeepsTypes f.expressions g.expressions)
        q.functions r.functions ∧
      r.check = (r, none) ∧ ∀ threads', r.fold threads' = ⟨r, none⟩ := by
  have checked : constants.check.2 = none := Option.isNone_iff_eq_none.1 (by decide +kernel)
  have same : constants.check = (constants.check.1, none) := Prod.ext rfl checked
  exact ⟨_, same, folding_reaches_a_typed_normal_form same 2⟩

end ImpCompiler
