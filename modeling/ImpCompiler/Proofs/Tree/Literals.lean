import ImpCompiler.Proofs.Tree.Normal

/-!
# Proofs.Tree.Literals — the string literals of a program

The string literals of a program from left to right. They do not depend on annotations, so a
checked program has those that were read, and no operator is applied to strings when constants are
folded, so a folded program has them too.
-/

namespace ImpCompiler

set_option autoImplicit false

namespace Expr

mutual

/-- The string literals of an expression from left to right. -/
def strings : Expr → List Text
  | .string _ s => [s]
  | .int .. | .double .. | .bool .. | .ident .. => []
  | .unary _ _ x | .length _ x _ | .typed x _ => x.strings
  | .binary _ _ x y | .index _ x y => x.strings ++ y.strings
  | .call _ _ es | .new _ _ es => stringsOfAll es

def stringsOfAll : List Expr → List Text
  | [] => []
  | e :: es => e.strings ++ stringsOfAll es

end

theorem strings_strip : ∀ (e : Expr), e.strip.strings = e.strings
  | .typed x _ => by rw [strip, strings, strings_strip x]
  | .int .. | .double .. | .bool .. | .string .. | .ident .. | .unary .. | .binary .. | .call ..
  | .index .. | .new .. | .length .. => rfl

mutual

theorem strings_erase : ∀ (e : Expr), e.erase.strings = e.strings
  | .int .. | .double .. | .bool .. | .string .. | .ident .. => rfl
  | .unary _ _ x | .length _ x _ | .typed x _ => by simp only [erase, strings, strings_erase x]
  | .binary _ _ x y | .index _ x y => by simp only [erase, strings, strings_erase x, strings_erase y]
  | .call _ _ es | .new _ _ es => by simp only [erase, strings, stringsOfAll_eraseAll es]

theorem stringsOfAll_eraseAll : ∀ (es : List Expr), stringsOfAll (eraseAll es) = stringsOfAll es
  | [] => rfl
  | e :: es => by
    simp only [eraseAll, stringsOfAll, strings_erase e, stringsOfAll_eraseAll es]

end

end Expr

/-! ## Folding -/

namespace Fold

open Semantics

theorem Literal.strings {e : Expr} {v : Val} {t : Ty} (literal : Literal e v t) : e.strings = [] := by
  cases literal <;> rfl

/-- Folding a sign loses no string. -/
theorem unary?_strings {p : Pos} {x r : Expr} (folds : unary? p x = some r) :
    r.strings = x.strings := by
  obtain ⟨v, t, literal⟩ := unary?_literal folds
  rw [literal.strings]
  unfold unary? at folds
  split at folds
  · rfl
  · rfl
  · rfl
  · cases folds

theorem binary?_strings {p : Pos} {op : BinOp} {x y r : Expr} (folds : binary? p op x y = some r) :
    r.strings = x.strings ++ y.strings := by
  obtain ⟨v, t, literal⟩ := binary?_literal folds
  rw [literal.strings]
  unfold binary? at folds
  split at folds
  · rfl
  · rfl
  · rfl
  · cases folds

/-- An attempt that keeps the literals if it succeeds keeps them in any case. -/
theorem getD_strings {r : Option Expr} {e : Expr}
    (tried : ∀ e', r = some e' → e'.strings = e.strings) : (r.getD e).strings = e.strings := by
  cases r with
  | none => rfl
  | some e' => exact tried e' rfl

/-- What each of two parts keeps, both keep, also if the second is left alone. -/
theorem andThen_strings {α β : Type} {f : α → List Text} {g : β → List Text} {x : α} {y : β}
    {q : Folded α} {r : Folded β} (first : f q.tree = f x) (second : g r.tree = g y) :
    f (q.andThen y r).tree.1 = f x ∧ g (q.andThen y r).tree.2 = g y := by
  unfold Folded.andThen
  split
  · exact ⟨first, rfl⟩
  · exact ⟨first, second⟩

mutual

/-- An expression keeps its string literals. -/
theorem expr_strings : ∀ (e : Expr), (expr e).tree.strings = e.strings
  | .typed (.unary _ _ x) _ => by
    have operand := expr_strings x
    rw [expr]
    split
    · exact operand
    · refine Eq.trans ?_ operand
      exact getD_strings fun _ folds => (unary?_strings folds).trans rfl
  | .typed (.binary _ _ x y) _ => by
    obtain ⟨left, right⟩ := andThen_strings (expr_strings x) (expr_strings y)
    have both := congrArg₂ (· ++ ·) left right
    rw [expr]
    split
    · exact both
    · refine Eq.trans ?_ both
      exact getD_strings fun _ folds => (binary?_strings folds).trans rfl
  | .typed (.call _ _ es) _ | .typed (.new _ _ es) _ => exprs_strings es
  | .typed (.index _ x i) _ => by
    obtain ⟨array, index⟩ := andThen_strings (expr_strings x) (expr_strings i)
    exact congrArg₂ (· ++ ·) array index
  | .typed (.length _ x _) _ => expr_strings x
  | .typed (.int ..) _ | .typed (.double ..) _ | .typed (.bool ..) _ | .typed (.string ..) _
  | .typed (.ident ..) _ | .typed (.typed ..) _ | .int .. | .double .. | .bool .. | .string ..
  | .ident .. | .unary .. | .binary .. | .call .. | .index .. | .new .. | .length .. => rfl

theorem exprs_strings : ∀ (es : List Expr),
    Expr.stringsOfAll (exprs es).tree = Expr.stringsOfAll es
  | [] => rfl
  | e :: es => by
    obtain ⟨first, others⟩ := andThen_strings (expr_strings e) (exprs_strings es)
    exact congrArg₂ (· ++ ·) first others

end

end Fold

/-! ## Statements and programs -/

mutual

theorem Stmt.erase_eq_mapExprs : ∀ (s : Stmt), s.erase = s.mapExprs Expr.erase
  | .block _ body => by rw [Stmt.erase, Stmt.mapExprs, Stmt.eraseAll_eq_mapAll body]
  | .ifThen _ _ yes => by rw [Stmt.erase, Stmt.mapExprs, Stmt.erase_eq_mapExprs yes]
  | .ifElse _ _ yes no => by
    rw [Stmt.erase, Stmt.mapExprs, Stmt.erase_eq_mapExprs yes, Stmt.erase_eq_mapExprs no]
  | .while _ _ body | .forEach _ _ _ _ body => by
    rw [Stmt.erase, Stmt.mapExprs, Stmt.erase_eq_mapExprs body]
  | .decl .. | .assign .. | .incr .. | .ret .. | .retVoid _ | .expr .. | .empty _ => rfl

theorem Stmt.eraseAll_eq_mapAll : ∀ (ss : List Stmt), Stmt.eraseAll ss = Stmt.mapAll Expr.erase ss
  | [] => rfl
  | s :: ss => by
    rw [Stmt.eraseAll, Stmt.mapAll, Stmt.erase_eq_mapExprs s, Stmt.eraseAll_eq_mapAll ss]

end

/-- The string literals of a function from left to right, also where control never gets. -/
def FuncDef.literals (f : FuncDef) : List Text := f.expressions.flatMap Expr.strings

/-- The string literals of a program, function by function. -/
def Program.literals (p : Program) : List Text := p.functions.flatMap FuncDef.literals

theorem FuncDef.literals_mapExprs {g : Expr → Expr} (keeps : ∀ e, (g e).strings = e.strings)
    (f : FuncDef) : (f.mapExprs g).literals = f.literals := by
  simp only [literals, expressions_mapExprs, List.flatMap_map, keeps]

namespace Program

theorem literals_map {g : FuncDef → FuncDef} (keeps : ∀ f, (g f).literals = f.literals)
    (fs : List FuncDef) : Program.literals ⟨fs.map g⟩ = Program.literals ⟨fs⟩ := by
  simp only [literals, List.flatMap_map, keeps]

theorem literals_erase (p : Program) : p.erase.literals = p.literals := by
  refine literals_map (fun f => ?_) p.functions
  rw [FuncDef.erase, Stmt.eraseAll_eq_mapAll]
  exact FuncDef.literals_mapExprs Expr.strings_erase f

/-- A check keeps the string literals. -/
theorem literals_check (p : Program) : p.check.1.literals = p.literals := by
  rw [← literals_erase, check_erase, literals_erase]

/-- Folding a checked program keeps the string literals. -/
theorem literals_fold {p q : Program} (checked : p.check = (q, none)) (threads : Int) :
    (q.fold threads).tree.literals = q.literals := by
  have admits := check_admits (show p.check.2 = none by rw [checked])
  rw [checked] at admits
  rw [fold_of_admits admits]
  exact literals_map (FuncDef.literals_mapExprs Fold.expr_strings) q.functions

end Program

end ImpCompiler
