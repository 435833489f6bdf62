import ImpCompiler.Proofs.Jobs
import ImpCompiler.Proofs.Semantics.Tree
import ImpCompiler.Proofs.Typing.Sound
import ImpCompiler.Tree.Fold
import ImpCompiler.Tree.Parser

/-!
# Proofs.Tree.Fold — folding preserves meaning

Folding a well typed tree goes through: no expression is without annotation. An
expression folded has the type it had and is evaluated to the same value, with the same
calls, changes of arrays and faults (`Fold.Sound`), since an operator on literals becomes
the literal of what the operator answers, and is left alone where it faults. The sign of a
literal is told from its type only, which is right for operands that the sign takes.
-/

namespace ImpCompiler

set_option autoImplicit false

open Typing Semantics

namespace Fold

variable {σ : Signatures} {Γ : Context}

/-- Folding an expression of type `t` goes through and keeps its type and meaning. -/
structure Sound (σ : Signatures) (Γ : Context) (e : Expr) (t : Ty) : Prop where
  through : (expr e).stop = none
  typed : HasType σ Γ (expr e).tree t
  same : ∀ call vars, eval call vars (expr e).tree = eval call vars e

structure SoundAll (σ : Signatures) (Γ : Context) (es : List Expr) (ts : List Ty) : Prop where
  through : (exprs es).stop = none
  typed : HasTypes σ Γ (exprs es).tree ts
  same : ∀ call vars, evals call vars (exprs es).tree = evals call vars es

/-! ## Operators on literals -/

/-- The literal of a value, annotated with its type. -/
inductive Literal : Expr → Val → Ty → Prop
  | int {p : Pos} {a : Int64} : Literal (.typed (.int p a) Ty.int) (.int a) Ty.int
  | double {p : Pos} {a : Double} : Literal (.typed (.double p a) Ty.double) (.double a) Ty.double
  | bool {p : Pos} {a : Bool} : Literal (.typed (.bool p a) Ty.boolean) (.bool a) Ty.boolean

/-- What a binary operator answers on two values: the left one of `&&` or `||` decides or
leaves it to the right one. -/
def answer (op : BinOp) (v w : Val) : Except Fault Val :=
  if op.isLogical then do
    let left ← v.truth
    return if op.decidedBy left then .bool left else w
  else op.apply v w

section Operators

variable {p : Pos} {e x y r : Expr} {v w : Val} {t u : Ty} {op : BinOp}

theorem Literal.hasType (literal : Literal e v t) : HasType σ Γ e t := by
  cases literal with
  | int => exact .typed .int
  | double => exact .typed .double
  | bool => exact .typed .bool

theorem Literal.eval_eq (literal : Literal e v t) (call : Text → List Val → Comp Val) (vars : Vars) :
    eval call vars e = pure v := by
  cases literal <;> simp only [eval]

theorem Literal.eval_unary (literal : Literal x v t) (op : UnOp) (call : Text → List Val → Comp Val)
    (vars : Vars) : eval call vars (.unary p op x) = Comp.lift (op.apply v) := by
  rw [eval, literal.eval_eq]
  rfl

/-- An operation on literals evaluates to its answer. -/
theorem Literal.eval_binary (left : Literal x v t) (right : Literal y w u) (op : BinOp)
    (call : Text → List Val → Comp Val) (vars : Vars) :
    eval call vars (.binary p op x y) = Comp.lift (answer op v w) := by
  rw [eval, left.eval_eq, right.eval_eq, answer]
  by_cases logical : op.isLogical = true
  · rw [if_pos logical]
    cases truth : v.truth with
    | error f =>
      show (if op.isLogical then _ else _) = _
      rw [if_pos logical, truth]
      rfl
    | ok b =>
      show (if op.isLogical then _ else _) = _
      rw [if_pos logical, truth]
      show (if op.decidedBy b then _ else _) = Comp.lift (.ok (if op.decidedBy b then _ else _))
      split <;> rfl
  · rw [if_neg logical]
    show (if op.isLogical then _ else _) = _
    rw [if_neg logical]
    rfl

/-- A folded operation on integers is a literal of its answer. -/
theorem onInts_literal {a b : Int64} (folded : onInts p op a b = some r) :
    ∃ u, Literal r u (op.result Ty.int) ∧ answer op (.int a) (.int b) = .ok u := by
  cases op
  case div | mod =>
    simp only [onInts] at folded
    split at folded
    · cases folded
    · rename_i nonzero
      cases folded
      refine ⟨_, .int, ?_⟩
      simp [answer, BinOp.isLogical, BinOp.apply, Val.div, Val.rem, nonzero]
  case and | or => cases folded
  case add | sub | mul =>
    cases folded
    exact ⟨_, .int, rfl⟩
  all_goals
    cases folded
    exact ⟨_, .bool, rfl⟩

example (p : Pos) : onInts p .div Int64.minValue (-1) = some (.intLit p Int64.minValue) ∧
    onInts p .mod 7 0 = none := ⟨rfl, rfl⟩

theorem onDoubles_literal {a b : Double} (folded : onDoubles p op a b = some r) :
    ∃ u, Literal r u (op.result Ty.double) ∧ answer op (.double a) (.double b) = .ok u := by
  cases op
  case mod | and | or => cases folded
  case add | sub | mul | div =>
    cases folded
    exact ⟨_, .double, rfl⟩
  all_goals
    cases folded
    exact ⟨_, .bool, rfl⟩

theorem onBools_literal {a b : Bool} (folded : onBools p op a b = some r) :
    ∃ u, Literal r u (op.result Ty.boolean) ∧ answer op (.bool a) (.bool b) = .ok u := by
  cases op
  case and | or =>
    cases folded
    refine ⟨_, .bool, ?_⟩
    cases a <;> rfl
  case eq | ne =>
    cases folded
    exact ⟨_, .bool, rfl⟩
  all_goals cases folded

/-- The literal that an operator on literals becomes. -/
theorem binary?_sound (left : HasType σ Γ x t) (right : HasType σ Γ y t)
    (folded : binary? p op x y = some r) :
    HasType σ Γ r (op.result t) ∧ ∀ call vars, eval call vars r = eval call vars (.binary p op x y) := by
  -- what an operator answers on literals of one type is the value of the folded literal
  have becomes : ∀ {v w : Val}, Literal x v t → Literal y w t →
      (∃ u, Literal r u (op.result t) ∧ answer op v w = .ok u) →
      HasType σ Γ r (op.result t) ∧
        ∀ call vars, eval call vars r = eval call vars (.binary p op x y) := by
    rintro v w first second ⟨u, literal, answers⟩
    refine ⟨literal.hasType, fun call vars => ?_⟩
    rw [literal.eval_eq, first.eval_binary second, answers]
    rfl
  unfold binary? at folded
  split at folded
  · obtain ⟨⟨⟩⟩ := left
    obtain ⟨⟨⟩⟩ := right
    exact becomes .int .int (onInts_literal folded)
  · obtain ⟨⟨⟩⟩ := left
    obtain ⟨⟨⟩⟩ := right
    exact becomes .double .double (onDoubles_literal folded)
  · obtain ⟨⟨⟩⟩ := left
    obtain ⟨⟨⟩⟩ := right
    exact becomes .bool .bool (onBools_literal folded)
  · cases folded

/-- The sign of a literal is told from its type, and no other sign takes the type. -/
theorem unary?_sound {op : UnOp} (accepts : op.accepts t = true) (typed : HasType σ Γ x t)
    (folded : unary? p x = some r) :
    HasType σ Γ r t ∧ ∀ call vars, eval call vars r = eval call vars (.unary p op x) := by
  have becomes : ∀ {v u : Val}, Literal x v t → Literal r u t → op.apply v = .ok u →
      HasType σ Γ r t ∧ ∀ call vars, eval call vars r = eval call vars (.unary p op x) := by
    intro v u operand literal answers
    refine ⟨literal.hasType, fun call vars => ?_⟩
    rw [literal.eval_eq, operand.eval_unary, answers]
    rfl
  unfold unary? at folded
  split at folded
  · obtain ⟨⟨⟩⟩ := typed
    cases folded
    cases op with
    | neg => exact becomes .int .int rfl
    | not => exact absurd accepts (by decide)
  · obtain ⟨⟨⟩⟩ := typed
    cases folded
    cases op with
    | neg => exact becomes .double .double rfl
    | not => exact absurd accepts (by decide)
  · obtain ⟨⟨⟩⟩ := typed
    cases folded
    cases op with
    | neg => exact absurd accepts (by decide)
    | not => exact becomes .bool .bool rfl
  · cases folded

end Operators

/-! ## Expressions -/

/-- The parts of a tree are folded one after another. -/
theorem andThen_map {α β γ : Type} {q : Folded α} {r : Folded β} (first : q.stop = none)
    (second : r.stop = none) (y : β) (k : α × β → γ) :
    (q.andThen y r).map k = ⟨k (q.tree, r.tree), none⟩ := by
  simp only [Folded.andThen, Folded.map, first, second]

theorem map_of_through {α β : Type} {q : Folded α} (through : q.stop = none) (k : α → β) :
    q.map k = ⟨k q.tree, none⟩ := by
  rw [Folded.map, through]

section Expressions

theorem Sound.of_eq {e e' : Expr} {t : Ty} (whole : expr e = ⟨e', none⟩) (typed : HasType σ Γ e' t)
    (same : ∀ call vars, eval call vars e' = eval call vars e) : Sound σ Γ e t :=
  ⟨by rw [whole], by rw [whole]; exact typed, by rw [whole]; exact same⟩

theorem Sound.unary {p : Pos} {op : UnOp} {x : Expr} {t : Ty} (accepts : op.accepts t = true)
    (operand : Sound σ Γ x t) : Sound σ Γ (.typed (.unary p op x) t) t := by
  have whole : expr (.typed (.unary p op x) t) =
      ⟨(unary? p (expr x).tree).getD (.typed (.unary p op (expr x).tree) t), none⟩ := by
    simp [expr, operand.through]
  have same : ∀ call vars, eval call vars (.unary p op (expr x).tree) =
      eval call vars (.typed (.unary p op x) t) := by
    intro call vars
    simp only [eval, operand.same]
  cases folded : unary? p (expr x).tree with
  | none =>
    rw [folded] at whole
    refine .of_eq whole (.typed (.unary accepts operand.typed)) fun call vars => ?_
    rw [Option.getD_none, eval, same]
  | some r =>
    rw [folded] at whole
    obtain ⟨typed, value⟩ := unary?_sound accepts operand.typed folded
    refine .of_eq whole typed fun call vars => ?_
    rw [Option.getD_some, value, same]

/-- Folding both operands and then the operator keeps type and value. -/
theorem Sound.binary {p : Pos} {op : BinOp} {x y : Expr} {t : Ty} (accepts : op.accepts t = true)
    (left : Sound σ Γ x t) (right : Sound σ Γ y t) :
    Sound σ Γ (.typed (.binary p op x y) (op.result t)) (op.result t) := by
  have whole : expr (.typed (.binary p op x y) (op.result t)) =
      ⟨(binary? p op (expr x).tree (expr y).tree).getD
        (.typed (.binary p op (expr x).tree (expr y).tree) (op.result t)), none⟩ := by
    simp [expr, Folded.andThen, left.through, right.through]
  have same : ∀ call vars, eval call vars (.binary p op (expr x).tree (expr y).tree) =
      eval call vars (.typed (.binary p op x y) (op.result t)) := by
    intro call vars
    simp only [eval, left.same, right.same]
  cases folded : binary? p op (expr x).tree (expr y).tree with
  | none =>
    rw [folded] at whole
    refine .of_eq whole (.typed (.binary accepts left.typed right.typed)) fun call vars => ?_
    rw [Option.getD_none, eval, same]
  | some r =>
    rw [folded] at whole
    obtain ⟨typed, value⟩ := binary?_sound left.typed right.typed folded
    refine .of_eq whole typed fun call vars => ?_
    rw [Option.getD_some, value, same]

theorem length_of_hasTypes : ∀ {es : List Expr} {ts : List Ty}, HasTypes σ Γ es ts →
    es.length = ts.length
  | [], _, .nil => rfl
  | _ :: _, _, .cons _ rest => congrArg (· + 1) (length_of_hasTypes rest)

mutual

theorem expr_sound : ∀ (e : Expr) {t : Ty}, HasType σ Γ e t → Sound σ Γ e t
  | .typed x _, _, .typed form => form_sound x form
  | .int .., _, typed | .double .., _, typed | .bool .., _, typed | .string .., _, typed
  | .ident .., _, typed | .unary .., _, typed | .binary .., _, typed | .call .., _, typed
  | .index .., _, typed | .new .., _, typed | .length .., _, typed => nomatch typed

theorem form_sound : ∀ (x : Expr) {t : Ty}, HasForm σ Γ x t → Sound σ Γ (.typed x t) t
  | .int .., _, form | .double .., _, form | .bool .., _, form | .string .., _, form
  | .ident .., _, form => .of_eq (by simp [expr]) (.typed form) fun _ _ => rfl
  | .unary _ _ x, _, .unary accepts operand => .unary accepts (expr_sound x operand)
  | .binary _ _ x y, _, .binary accepts left right =>
    .binary accepts (expr_sound x left) (expr_sound y right)
  | .call _ _ args, _, .call known arguments => by
    have all := exprs_sound args arguments
    refine .of_eq (by rw [expr, map_of_through all.through]) (.typed (.call known all.typed)) ?_
    intro call vars
    simp only [eval, all.same]
  | .index _ a i, _, .index elem array index => by
    have first := expr_sound a array
    have second := expr_sound i index
    refine .of_eq (by rw [expr, andThen_map first.through second.through])
      (.typed (.index elem first.typed second.typed)) ?_
    intro call vars
    simp only [eval, first.same, second.same]
  | .new _ elem sizes, _, .new constructible nonempty ints => by
    obtain ⟨through, typed, same⟩ := exprs_sound sizes ints
    have length : (exprs sizes).tree.length = sizes.length := by
      rw [length_of_hasTypes typed, List.length_replicate]
    have nonempty' : (exprs sizes).tree ≠ [] := by
      intro empty
      rw [empty] at length
      exact nonempty (List.eq_nil_of_length_eq_zero length.symm)
    refine .of_eq (by rw [expr, map_of_through through]) ?_ ?_
    · rw [← length] at typed ⊢
      exact .typed (.new constructible nonempty' typed)
    · intro call vars
      simp only [eval, same]
  | .length _ a _, _, .length isArray member array => by
    have whole := expr_sound a array
    refine .of_eq (by rw [expr, map_of_through whole.through])
      (.typed (.length isArray member whole.typed)) ?_
    intro call vars
    simp only [eval, whole.same]
  | .typed .., _, form => nomatch form

theorem exprs_sound : ∀ (es : List Expr) {ts : List Ty}, HasTypes σ Γ es ts → SoundAll σ Γ es ts
  | [], _, .nil => ⟨by rw [exprs], by rw [exprs]; exact .nil, fun _ _ => by rw [exprs]⟩
  | e :: es, _, .cons first rest => by
    have here := expr_sound e first
    have others := exprs_sound es rest
    have whole : exprs (e :: es) = ⟨(expr e).tree :: (exprs es).tree, none⟩ := by
      rw [exprs, andThen_map here.through others.through]
    refine ⟨by rw [whole], by rw [whole]; exact .cons here.typed others.typed, fun call vars => ?_⟩
    simp only [whole, evals, here.same, others.same]

end

end Expressions

/-! ## Statements -/

/-- Folding a statement goes through, and keeps that it fits and what it does. -/
structure SoundStmt (σ : Signatures) (ret : Ty) (Γ : Context) (s : Stmt) (Γ' : Context) : Prop where
  through : (stmt s).stop = none
  fits : Fits σ ret Γ (stmt s).tree Γ'
  same : ∀ call n vars, exec call n vars (stmt s).tree = exec call n vars s

structure SoundStmts (σ : Signatures) (ret : Ty) (Γ : Context) (ss : List Stmt) (Γ' : Context) :
    Prop where
  through : (stmts ss).stop = none
  fits : FitsAll σ ret Γ (stmts ss).tree Γ'
  same : ∀ call n vars, execs call n vars (stmts ss).tree = execs call n vars ss

section Statements

variable {ret : Ty}

/-- Folding keeps what declarations do. -/
theorem items_sound {t : Ty} {is : List DeclItem} {Γ' : Context} (declares : Declares σ t Γ is Γ') :
    (items is).stop = none ∧ Declares σ t Γ (items is).tree Γ' ∧
      ∀ call vars, declare call t vars (items is).tree = declare call t vars is := by
  induction declares with
  | nil => exact ⟨rfl, .nil, fun call vars => rfl⟩
  | @cons Γ Γ' item rest start _ ih =>
    obtain ⟨through, declares, same⟩ := ih
    -- the name itself, with its initialiser folded if it has one
    obtain ⟨item', whole, name, starts, value⟩ : ∃ item' : DeclItem,
        items (item :: rest) = ⟨item' :: (items rest).tree, none⟩ ∧ item'.name = item.name ∧
        (∀ e, item'.init = some e → HasType σ Γ e t) ∧
        ∀ call vars, Semantics.start call t vars item' = Semantics.start call t vars item := by
      cases init : item.init with
      | none =>
        refine ⟨item, ?_, rfl, start, fun _ _ => rfl⟩
        simp only [items, init, andThen_map, through]
      | some e =>
        have first := expr_sound e (start e init)
        refine ⟨{ item with init := some (expr e).tree }, ?_, rfl, ?_, fun call vars => ?_⟩
        · simp only [items, init, map_of_through first.through, andThen_map, through]
        · intro e' known
          cases known
          exact first.typed
        · simp only [Semantics.start, init, first.same]
    refine ⟨by rw [whole], ?_, fun call vars => ?_⟩
    · rw [whole]
      exact .cons starts (name ▸ declares)
    · simp only [whole, declare, name, value, same]

/-- What is assigned to stays a variable, or an element of the same array. -/
theorem target_sound {target : Expr} {t : Ty} (assignable : Assignable target)
    (typed : HasType σ Γ target t) :
    Assignable (expr target).tree ∧ ∀ call vars value,
      assign call vars value (expr target).tree.strip = assign call vars value target.strip := by
  obtain ⟨form⟩ := typed
  cases form with
  | ident =>
    rw [expr]
    · exact ⟨assignable, fun call vars value => rfl⟩
    all_goals simp
  | index elem array index =>
    have first := expr_sound _ array
    have second := expr_sound _ index
    rw [expr, andThen_map first.through second.through]
    refine ⟨.inr ⟨_, _, _, rfl⟩, fun call vars value => ?_⟩
    simp only [Expr.strip, assign, first.same, second.same]
  | _ => rcases assignable with ⟨_, _, same⟩ | ⟨_, _, _, same⟩ <;> simp [Expr.strip] at same

/-- What is assigned matters by its value only. -/
theorem assign_congr {call : Text → List Val → Comp Val} {value value' : Expr}
    (same : ∀ vars, eval call vars value' = eval call vars value) (vars : Vars) (target : Expr) :
    assign call vars value' target = assign call vars value target := by
  unfold assign
  split
  · rw [same]
  · simp only [same]
  · rfl

theorem SoundStmt.of_eq {s s' : Stmt} {Γ' : Context} (whole : stmt s = ⟨s', none⟩)
    (fits : Fits σ ret Γ s' Γ') (same : ∀ call n vars, exec call n vars s' = exec call n vars s) :
    SoundStmt σ ret Γ s Γ' :=
  ⟨by rw [whole], by rw [whole]; exact fits, by rw [whole]; exact same⟩

mutual

theorem stmt_sound : ∀ (s : Stmt) {Γ Γ' : Context}, Fits σ ret Γ s Γ' → SoundStmt σ ret Γ s Γ'
  | .block _ body, _, _, .block inner => by
    have all := stmts_sound body inner
    refine .of_eq (by rw [stmt, map_of_through all.through]) (.block all.fits) fun call n vars => ?_
    simp only [exec, all.same]
  | .decl _ _ is, _, _, .decl nonvoid declares => by
    obtain ⟨through, declares, same⟩ := items_sound declares
    refine .of_eq (by rw [stmt, map_of_through through]) (.decl nonvoid declares) fun call n vars => ?_
    simp only [exec, same]
  | .assign _ target value, _, _, .assign assignable left right => by
    have first := expr_sound target left
    have second := expr_sound value right
    obtain ⟨assignable, assigns⟩ := target_sound assignable left
    refine .of_eq (by rw [stmt, andThen_map first.through second.through])
      (.assign assignable first.typed second.typed) fun call n vars => ?_
    simp only [exec, assigns, assign_congr fun vars => second.same call vars]
  | .incr .., _, _, .incr known => .of_eq (by rw [stmt]) (.incr known) fun _ _ _ => rfl
  | .ifThen _ c yes, _, _, .ifThen cond inner => by
    have first := expr_sound c cond
    have second := stmt_sound yes inner
    refine .of_eq (by rw [stmt, andThen_map first.through second.through])
      (.ifThen first.typed second.fits) fun call n vars => ?_
    simp only [exec, test, first.same, second.same]
  | .ifElse p c yes no, _, _, .ifElse cond inner inner' => by
    have first := expr_sound c cond
    have second := stmt_sound yes inner
    have third := stmt_sound no inner'
    have whole : stmt (.ifElse p c yes no) =
        ⟨.ifElse p (expr c).tree (stmt yes).tree (stmt no).tree, none⟩ := by
      simp only [stmt, Folded.andThen, Folded.map, first.through, second.through, third.through]
    refine .of_eq whole (.ifElse first.typed second.fits third.fits) fun call n vars => ?_
    simp only [exec, test, first.same, second.same, third.same]
  | .while _ c body, _, _, .while cond inner => by
    have first := expr_sound c cond
    have second := stmt_sound body inner
    refine .of_eq (by rw [stmt, andThen_map first.through second.through])
      (.while first.typed second.fits) fun call n vars => ?_
    simp only [exec, test, first.same, second.same]
  | .forEach _ _ _ array body, _, _, .forEach whole elems inner => by
    have first := expr_sound array whole
    have second := stmt_sound body inner
    refine .of_eq (by rw [stmt, andThen_map first.through second.through])
      (.forEach first.typed elems second.fits) fun call n vars => ?_
    simp only [exec, first.same, second.same]
  | .ret _ value, _, _, .ret nonvoid answer => by
    have first := expr_sound value answer
    refine .of_eq (by rw [stmt, map_of_through first.through]) (.ret nonvoid first.typed) ?_
    intro call n vars
    simp only [exec, first.same]
  | .retVoid .., _, _, .retVoid nothing => .of_eq (by rw [stmt]) (.retVoid nothing) fun _ _ _ => rfl
  | .expr _ e, _, _, .expr effect => by
    have first := expr_sound e effect
    refine .of_eq (by rw [stmt, map_of_through first.through]) (.expr first.typed) fun call n vars => ?_
    simp only [exec, first.same]
  | .empty .., _, _, .empty => .of_eq (by rw [stmt]) .empty fun _ _ _ => rfl

theorem stmts_sound : ∀ (ss : List Stmt) {Γ Γ' : Context}, FitsAll σ ret Γ ss Γ' →
    SoundStmts σ ret Γ ss Γ'
  | [], _, _, .nil => ⟨by rw [stmts], by rw [stmts]; exact .nil, fun _ _ _ => by rw [stmts]⟩
  | s :: rest, _, _, .cons first others => by
    have here := stmt_sound s first
    have behind := stmts_sound rest others
    have whole : stmts (s :: rest) = ⟨(stmt s).tree :: (stmts rest).tree, none⟩ := by
      rw [stmts, andThen_map here.through behind.through]
    refine ⟨by rw [whole], by rw [whole]; exact .cons here.fits behind.fits, fun call n vars => ?_⟩
    simp only [whole, execs, here.same, behind.same]

end

end Statements

end Fold

/-! ## The parts of a program -/

mutual

/-- The annotated expressions in an expression, with the expression itself. -/
def Expr.parts : Expr → List Expr
  | .int .. | .double .. | .bool .. | .string .. | .ident .. => []
  | .unary _ _ x | .length _ x _ => x.parts
  | .binary _ _ x y | .index _ x y => x.parts ++ y.parts
  | .call _ _ es | .new _ _ es => Expr.partsOfAll es
  | .typed x t => .typed x t :: x.parts

def Expr.partsOfAll : List Expr → List Expr
  | [] => []
  | e :: es => e.parts ++ Expr.partsOfAll es

end

namespace Stmt

mutual

/-- The statements in a statement, with the statement itself. -/
def parts : Stmt → List Stmt
  | .block p body => .block p body :: partsOfAll body
  | .ifThen p c yes => .ifThen p c yes :: yes.parts
  | .ifElse p c yes no => .ifElse p c yes no :: (yes.parts ++ no.parts)
  | .while p c body => .while p c body :: body.parts
  | .forEach p elem name array body => .forEach p elem name array body :: body.parts
  | s => [s]

def partsOfAll : List Stmt → List Stmt
  | [] => []
  | s :: ss => s.parts ++ partsOfAll ss

end

/-- The expressions of a statement that are not in a statement inside of it. -/
def heads : Stmt → List Expr
  | .decl _ _ items => items.filterMap DeclItem.init
  | .assign _ target value => [target, value]
  | .ifThen _ e _ | .ifElse _ e _ _ | .while _ e _ | .forEach _ _ _ e _ | .ret _ e | .expr _ e => [e]
  | .block .. | .incr .. | .retVoid _ | .empty _ => []

end Stmt

namespace Typing

variable {σ : Signatures} {Γ : Context} {ret : Ty}

mutual

/-- All parts of a well typed expression are well typed. -/
theorem HasType.parts : ∀ (e : Expr) {t : Ty}, HasType σ Γ e t → ∀ e' ∈ e.parts, ∃ u, HasType σ Γ e' u
  | .typed x t, _, .typed form, e', member => by
    rw [Expr.parts] at member
    rcases List.mem_cons.1 member with rfl | member
    · exact ⟨t, .typed form⟩
    · exact HasForm.parts x form e' member
  | .int .., _, typed, _, _ | .double .., _, typed, _, _ | .bool .., _, typed, _, _
  | .string .., _, typed, _, _ | .ident .., _, typed, _, _ | .unary .., _, typed, _, _
  | .binary .., _, typed, _, _ | .call .., _, typed, _, _ | .index .., _, typed, _, _
  | .new .., _, typed, _, _ | .length .., _, typed, _, _ => nomatch typed

theorem HasForm.parts : ∀ (x : Expr) {t : Ty}, HasForm σ Γ x t → ∀ e' ∈ x.parts, ∃ u, HasType σ Γ e' u
  | .int .., _, _, e', member | .double .., _, _, e', member | .bool .., _, _, e', member
  | .string .., _, _, e', member | .ident .., _, _, e', member => by simp [Expr.parts] at member
  | .unary _ _ x, _, .unary _ operand, e', member => by
    rw [Expr.parts] at member
    exact HasType.parts x operand e' member
  | .binary _ _ x y, _, .binary _ left right, e', member => by
    rw [Expr.parts] at member
    rcases List.mem_append.1 member with member | member
    · exact HasType.parts x left e' member
    · exact HasType.parts y right e' member
  | .call _ _ args, _, .call _ arguments, e', member => by
    rw [Expr.parts] at member
    exact HasTypes.parts args arguments e' member
  | .index _ a i, _, .index _ array index, e', member => by
    rw [Expr.parts] at member
    rcases List.mem_append.1 member with member | member
    · exact HasType.parts a array e' member
    · exact HasType.parts i index e' member
  | .new _ _ sizes, _, .new _ _ ints, e', member => by
    rw [Expr.parts] at member
    exact HasTypes.parts sizes ints e' member
  | .length _ a _, _, .length _ _ array, e', member => by
    rw [Expr.parts] at member
    exact HasType.parts a array e' member
  | .typed .., _, form, _, _ => nomatch form

theorem HasTypes.parts : ∀ (es : List Expr) {ts : List Ty}, HasTypes σ Γ es ts →
    ∀ e' ∈ Expr.partsOfAll es, ∃ u, HasType σ Γ e' u
  | [], _, .nil, e', member => by simp [Expr.partsOfAll] at member
  | e :: es, _, .cons first rest, e', member => by
    rw [Expr.partsOfAll] at member
    rcases List.mem_append.1 member with member | member
    · exact HasType.parts e first e' member
    · exact HasTypes.parts es rest e' member

end

theorem Declares.heads {t : Ty} {items : List DeclItem} {Γ' : Context}
    (declares : Declares σ t Γ items Γ') :
    ∀ e ∈ items.filterMap DeclItem.init, ∃ Γ₁, HasType σ Γ₁ e t := by
  induction declares with
  | nil => simp
  | @cons Γ Γ' item rest start _ ih =>
    intro e member
    obtain ⟨item', inside, init⟩ := List.mem_filterMap.1 member
    rcases List.mem_cons.1 inside with rfl | inside
    · exact ⟨Γ, start e init⟩
    · exact ih e (List.mem_filterMap.2 ⟨item', inside, init⟩)

/-- The expressions of a statement are typed, each with the variables in scope at it. -/
theorem Fits.heads {s : Stmt} {Γ' : Context} (fits : Fits σ ret Γ s Γ') :
    ∀ e ∈ s.heads, ∃ Γ₁ t, HasType σ Γ₁ e t := by
  have one : ∀ {e : Expr} {t : Ty}, HasType σ Γ e t → ∀ e' ∈ [e], ∃ Γ₁ t, HasType σ Γ₁ e' t := by
    intro e t typed e' member
    cases List.mem_singleton.1 member
    exact ⟨Γ, t, typed⟩
  cases fits with
  | decl _ declares =>
    intro e member
    obtain ⟨Γ₁, typed⟩ := declares.heads e member
    exact ⟨Γ₁, _, typed⟩
  | assign _ left right => exact List.forall_mem_cons.2 ⟨⟨Γ, _, left⟩, one right⟩
  | ifThen cond | ifElse cond | «while» cond => exact one cond
  | forEach whole => exact one whole
  | ret _ answer => exact one answer
  | expr effect => exact one effect
  | block | incr | retVoid | empty => simp [Stmt.heads]

mutual

/-- All parts of a well typed statement are well typed. -/
theorem Fits.parts : ∀ (s : Stmt) {Γ Γ' : Context}, Fits σ ret Γ s Γ' →
    ∀ s' ∈ s.parts, ∃ Γ₁ Γ₂, Fits σ ret Γ₁ s' Γ₂
  | .block _ body, Γ, _, .block inner, s', member => by
    rw [Stmt.parts] at member
    rcases List.mem_cons.1 member with rfl | member
    · exact ⟨Γ, _, .block inner⟩
    · exact FitsAll.parts body inner s' member
  | .ifThen _ _ yes, Γ, _, .ifThen cond inner, s', member => by
    rw [Stmt.parts] at member
    rcases List.mem_cons.1 member with rfl | member
    · exact ⟨Γ, _, .ifThen cond inner⟩
    · exact Fits.parts yes inner s' member
  | .ifElse _ _ yes no, Γ, _, .ifElse cond inner inner', s', member => by
    rw [Stmt.parts] at member
    rcases List.mem_cons.1 member with rfl | member
    · exact ⟨Γ, _, .ifElse cond inner inner'⟩
    · rcases List.mem_append.1 member with member | member
      · exact Fits.parts yes inner s' member
      · exact Fits.parts no inner' s' member
  | .while _ _ body, Γ, _, .while cond inner, s', member => by
    rw [Stmt.parts] at member
    rcases List.mem_cons.1 member with rfl | member
    · exact ⟨Γ, _, .while cond inner⟩
    · exact Fits.parts body inner s' member
  | .forEach _ _ _ _ body, Γ, _, .forEach whole elems inner, s', member => by
    rw [Stmt.parts] at member
    rcases List.mem_cons.1 member with rfl | member
    · exact ⟨Γ, _, .forEach whole elems inner⟩
    · exact Fits.parts body inner s' member
  | .decl .., Γ, Γ', fits, s', member | .assign .., Γ, Γ', fits, s', member
  | .incr .., Γ, Γ', fits, s', member | .ret .., Γ, Γ', fits, s', member
  | .retVoid .., Γ, Γ', fits, s', member | .expr .., Γ, Γ', fits, s', member
  | .empty .., Γ, Γ', fits, s', member => by
    rw [Stmt.parts] at member
    · cases List.mem_singleton.1 member
      exact ⟨Γ, Γ', fits⟩
    all_goals simp

theorem FitsAll.parts : ∀ (ss : List Stmt) {Γ Γ' : Context}, FitsAll σ ret Γ ss Γ' →
    ∀ s' ∈ Stmt.partsOfAll ss, ∃ Γ₁ Γ₂, Fits σ ret Γ₁ s' Γ₂
  | [], _, _, .nil, s', member => by simp [Stmt.partsOfAll] at member
  | s :: ss, _, _, .cons first rest, s', member => by
    rw [Stmt.partsOfAll] at member
    rcases List.mem_append.1 member with member | member
    · exact Fits.parts s first s' member
    · exact FitsAll.parts ss rest s' member

end

end Typing

/-! ## Programs -/

namespace Fold

variable {σ : Signatures} {f : FuncDef}

theorem function_sound (fits : FitsFunction σ f) :
    (function f).stop = none ∧ FitsFunction σ (function f).tree ∧
      ∀ call n args, run call n (function f).tree args = run call n f args := by
  obtain ⟨Γ, inner⟩ := fits.body
  have all := stmts_sound f.body inner
  refine ⟨all.through, ⟨fits.params, Γ, all.fits⟩, fun call n args => ?_⟩
  simp only [run, function, Folded.map, all.same]
  rfl

end Fold

namespace Program

variable {σ : Signatures} {p : Program}

/-- All functions are folded, by any number of threads. -/
theorem fold_eq (fits : ∀ f ∈ p.functions, FitsFunction σ f) (threads : Int) :
    p.fold threads = ⟨⟨p.functions.map fun f => (Fold.function f).tree⟩, none⟩ := by
  have through : ∀ f ∈ p.functions, (Fold.function f).stop = none :=
    fun f member => (Fold.function_sound (fits f member)).1
  rw [Program.fold, Jobs.run_eq threads through]

theorem fold_function? (fits : ∀ f ∈ p.functions, FitsFunction σ f) (threads : Int) (name : Text) :
    (p.fold threads).tree.function? name = (p.function? name).map fun f => (Fold.function f).tree := by
  rw [fold_eq fits, function?, function?, List.find?_map]
  rfl

/-- A call of a folded function does what a call of the function does. -/
theorem fold_call (fits : ∀ f ∈ p.functions, FitsFunction σ f) (threads : Int) (oracle : Oracle)
    (n : Nat) : (p.fold threads).tree.call oracle n = p.call oracle n := by
  induction n with
  | zero =>
    funext name args
    rw [call, call, fold_function? fits]
    cases p.function? name <;> rfl
  | succ n ih =>
    funext name args
    rw [call, call, fold_function? fits, ih]
    cases known : p.function? name with
    | none => rfl
    | some f =>
      have member : f ∈ p.functions := List.mem_of_find?_eq_some known
      exact (Fold.function_sound (fits f member)).2.2 (p.call oracle n) n args

/-- Folded programs end as the programs do. -/
theorem fold_ends (fits : ∀ f ∈ p.functions, FitsFunction σ f) (threads : Int) (oracle : Oracle)
    (name : Text) (args : List Val) (heap : Heap) (o : Outcome) :
    (p.fold threads).tree.Ends oracle name args heap o ↔ p.Ends oracle name args heap o := by
  simp only [Ends, fold_function? fits, fold_call fits]
  cases known : p.function? name with
  | none => simp
  | some f =>
    have member : f ∈ p.functions := List.mem_of_find?_eq_some known
    have same := (Fold.function_sound (fits f member)).2.2
    simp only [Option.map_some, Option.some.injEq, exists_eq_left', same]

end Program

/-- Folding preserves meaning: the tree of a checked program is folded function by function, with
any number of threads, and none of its expressions is without annotation. Each of its expressions
and statements has a type or fits as before, and is evaluated or executed as before in every state:
with the same value and faults, the same calls in the same order and the same changes of arrays.
So the program ends in an outcome if and only if it does so folded. -/
theorem folding_preserves_meaning {p q : Program} (checked : p.check = (q, none)) (threads : Int) :
    q.fold threads = ⟨⟨q.functions.map fun f => { f with body := (Fold.stmts f.body).tree }⟩, none⟩ ∧
    (∀ f ∈ q.functions, ∀ s ∈ Stmt.partsOfAll f.body,
      (∃ Γ Γ', Fits p.signatures f.ret Γ s Γ' ∧ Fold.SoundStmt p.signatures f.ret Γ s Γ') ∧
      ∀ e ∈ s.heads, ∀ e' ∈ e.parts,
        ∃ Γ t, HasType p.signatures Γ e' t ∧ Fold.Sound p.signatures Γ e' t) ∧
    ∀ oracle name args heap o,
      (q.fold threads).tree.Ends oracle name args heap o ↔ q.Ends oracle name args heap o := by
  have admits := Program.check_admits (show p.check.2 = none by rw [checked])
  rw [checked] at admits
  have fits : ∀ f ∈ q.functions, FitsFunction p.signatures f :=
    fun f member => (admits.functions f member).fits
  refine ⟨Program.fold_eq fits threads, fun f member s inside => ?_, Program.fold_ends fits threads⟩
  obtain ⟨Γ, inner⟩ := (fits f member).body
  obtain ⟨Γ₁, Γ₂, fit⟩ := FitsAll.parts f.body inner s inside
  refine ⟨⟨Γ₁, Γ₂, fit, Fold.stmt_sound s fit⟩, fun e head e' part => ?_⟩
  obtain ⟨Γ₃, t, typed⟩ := fit.heads e head
  obtain ⟨u, typed'⟩ := HasType.parts e typed e' part
  exact ⟨Γ₃, u, typed', Fold.expr_sound e' typed'⟩

/-- A program with constants of all kinds, and a remainder by zero that is found to be one by
folding only. -/
def constantsText : Text :=
  "int main() \x7b " ++
    "int x = 2 * (3 + 4) / -1; " ++
    "printInt(x); " ++
    "double d = -2.5; " ++
    "if (!(1 < 2) || false) return 1; " ++
    "return 7 % (3 - 3); \x7d"

def constants : Program :=
  match Program.parse constantsText with
  | .ok p => p
  | .error _ => ⟨[]⟩

/-- Folded, the program still prints -14 and then faults. -/
theorem constants_fault_folded : ∃ q, constants.check = (q, none) ∧ (q.fold 2).stop = none ∧
    (q.fold 2).tree.Ends (fun _ => .unit) "main" [] []
      ⟨.error .divisionByZero, ⟨[], [⟨"printInt", [.int (-14)]⟩]⟩⟩ := by
  have checked : constants.check.2 = none := Option.isNone_iff_eq_none.1 (by decide +kernel)
  have faults : ((constants.check.1.function? "main").bind fun f =>
      (Semantics.run (constants.check.1.call (fun _ => .unit) 9) 9 f [] ⟨[], []⟩).outcome?) =
        some ⟨.error .divisionByZero, ⟨[], [⟨"printInt", [.int (-14)]⟩]⟩⟩ := by
    decide +kernel
  obtain ⟨f, known, ran⟩ := Option.bind_eq_some_iff.1 faults
  have same : constants.check = (constants.check.1, none) := Prod.ext rfl checked
  obtain ⟨folds, -, ends⟩ := folding_preserves_meaning same 2
  exact ⟨_, same, by rw [folds], (ends _ _ _ _ _).2 ⟨f, known, 9, ran⟩⟩

end ImpCompiler
