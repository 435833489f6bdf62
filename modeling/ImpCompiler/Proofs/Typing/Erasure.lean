import ImpCompiler.Proofs.Typing.Runs

/-!
# Proofs.Typing.Erasure — checking changes nothing but annotations

The tree that a check answers with is the tree it was given, up to annotations; this
holds of checks that stop too. So it has the same types in it, and it returns where the
other does.
-/

namespace ImpCompiler

set_option autoImplicit false

namespace Stmt

mutual

theorem returns_erase : ∀ (s : Stmt), s.erase.returns = s.returns
  | .block _ body => anyReturns_eraseAll body
  | .ifElse _ _ yes no => by rw [erase, returns, returns, returns_erase yes, returns_erase no]
  | .decl .. | .assign .. | .incr .. | .ifThen .. | .while .. | .forEach .. | .ret .. | .retVoid ..
  | .expr .. | .empty .. => rfl

theorem anyReturns_eraseAll : ∀ (ss : List Stmt), anyReturns (eraseAll ss) = anyReturns ss
  | [] => rfl
  | s :: ss => by rw [eraseAll, anyReturns, anyReturns, returns_erase s, anyReturns_eraseAll ss]

end

end Stmt

namespace Typing

variable {env : Env}

mutual

/-- Inferring types only adds annotations. -/
theorem infer_erase : ∀ (e : Expr) {t : Ty} {e' : Expr}, infer env e = .ok (t, e') →
    e'.erase = e.erase
  | .typed x _, _, _, ran => by
    rw [infer] at ran
    exact infer_erase x ran
  | .int .., _, _, ran | .double .., _, _, ran | .bool .., _, _, ran | .string .., _, _, ran => by
    cases ran
    rfl
  | .ident .., _, _, ran => by
    obtain ⟨-, rfl⟩ := infer_ident_ok.1 ran
    rfl
  | .unary _ _ x, _, _, ran => by
    obtain ⟨x', operand, -, rfl⟩ := infer_unary_ok.1 ran
    simp only [Expr.erase, infer_erase x operand]
  | .binary _ _ x y, _, _, ran => by
    obtain ⟨u, x', y', left, right, -, -, rfl⟩ := infer_binary_ok.1 ran
    simp only [Expr.erase, infer_erase x left, infer_erase y right]
  | .call _ _ args, _, _, ran => by
    obtain ⟨s, args', -, arity, arguments, -, rfl⟩ := infer_call_ok.1 ran
    simp only [Expr.erase, inferArguments_erase args arity arguments]
  | .length _ x _, _, _, ran => by
    obtain ⟨u, x', array, -, -, -, rfl⟩ := infer_length_ok.1 ran
    simp only [Expr.erase, infer_erase x array]
  | .index _ x i, _, _, ran => by
    obtain ⟨i', c, index, chain, -, -, rfl⟩ := infer_index_ok.1 ran
    simp only [Chain.apply, Expr.erase, inferChain_erase x chain, infer_erase i index]
  | .new _ _ sizes, _, _, ran => by
    obtain ⟨sizes', -, -, ints, -, rfl⟩ := infer_new_ok.1 ran
    simp only [Expr.erase, inferSizes_erase sizes ints]
termination_by e => (sizeOf e, 0)

theorem inferChain_erase : ∀ (e : Expr) {c : Chain}, inferChain env e = .ok c →
    c.tree.erase = e.erase
  | .typed x _, _, ran => by
    rw [inferChain] at ran
    exact inferChain_erase x ran
  | .index p x i, _, ran => by
    obtain ⟨i', d, index, chain, rfl⟩ := inferChain_index_ok.1 ran
    simp only [Chain.apply, Expr.erase, inferChain_erase x chain, infer_erase i index]
  | .ident .., _, ran | .call .., _, ran | .new .., _, ran => by
    obtain ⟨t, e', typed, rfl⟩ := (inferChain_base_ok rfl).1 ran
    exact infer_erase _ typed
  | .int .., _, ran | .double .., _, ran | .bool .., _, ran | .string .., _, ran
  | .unary .., _, ran | .binary .., _, ran | .length .., _, ran => by
    simp [inferChain] at ran
termination_by e => (sizeOf e, 1)

theorem inferArguments_erase : ∀ (es : List Expr) {name : Text} {k : Nat} {ts : List Ty}
    {es' : List Expr}, ts.length = es.length → inferArguments env name k ts es = .ok es' →
    Expr.eraseAll es' = Expr.eraseAll es
  | [], _, _, ts, _, same, ran => by
    cases List.eq_nil_of_length_eq_zero same
    cases ran
    rfl
  | e :: es, _, _, ts, _, same, ran => by
    obtain ⟨t, ts, rfl⟩ := List.exists_cons_of_length_eq_add_one same
    obtain ⟨e₁, es₁, first, rest, rfl⟩ := inferArguments_cons_ok.1 ran
    simp only [Expr.eraseAll, infer_erase e first,
      inferArguments_erase es (Nat.succ.inj same) rest]
termination_by es => (sizeOf es, 0)

theorem inferSizes_erase : ∀ (es : List Expr) {es' : List Expr}, inferSizes env es = .ok es' →
    Expr.eraseAll es' = Expr.eraseAll es
  | [], _, ran => by
    cases ran
    rfl
  | e :: es, _, ran => by
    obtain ⟨e₁, es₁, first, rest, rfl⟩ := inferSizes_cons_ok.1 ran
    simp only [Expr.eraseAll, infer_erase e first, inferSizes_erase es rest]
termination_by es => (sizeOf es, 0)

end

theorem checkItems_erase {t : Ty} : ∀ (items : List DeclItem) {env : Env},
    (checkItems env t items).tree.map DeclItem.erase = items.map DeclItem.erase
  | [], _ => rfl
  | item :: rest, env => by
    rw [checkItems]
    cases started : inferInit env t item with
    | error e => rfl
    | ok item' =>
      have same : item'.erase = item.erase := by
        cases init : item.init with
        | none =>
          rw [inferInit_none init] at started
          cases started
          rfl
        | some e =>
          obtain ⟨e', typed, rfl⟩ := (inferInit_some init).1 started
          simp [DeclItem.erase, init, infer_erase e typed]
      dsimp only
      split
      · simp [same]
      · simp [same, checkItems_erase rest]

mutual

/-- Checking a statement only adds annotations, also where it stops. -/
theorem checkStmt_erase : ∀ (s : Stmt) {env : Env}, (checkStmt env s).tree.erase = s.erase
  | .block p body, env => by
    simp [checkStmt, Stmt.erase, checkStmts_erase body]
  | .decl p t items, env => by
    rw [checkStmt]
    split
    · rfl
    · simp [Stmt.erase, checkItems_erase items]
  | .assign p target value, env => by
    rw [checkStmt]
    cases ran : inferAssignment env p target value with
    | error e => rfl
    | ok both =>
      obtain ⟨-, t, left, right⟩ := inferAssignment_ok.1 ran
      simp [Checked.done, Stmt.erase, infer_erase target left, infer_erase value right]
  | .incr p name decrement, env => by
    rw [checkStmt]
    split <;> rfl
  | .ifThen p c yes, env => by
    rw [checkStmt]
    cases ran : inferCondition env c with
    | error e => rfl
    | ok c' => simp [Stmt.erase, infer_erase c (inferCondition_ok.1 ran), checkStmt_erase yes]
  | .ifElse p c yes no, env => by
    rw [checkStmt]
    cases ran : inferCondition env c with
    | error e => rfl
    | ok c' =>
      dsimp only
      split <;>
        simp [Stmt.erase, infer_erase c (inferCondition_ok.1 ran), checkStmt_erase yes,
          checkStmt_erase no]
  | .while p c body, env => by
    rw [checkStmt]
    cases ran : inferCondition env c with
    | error e => rfl
    | ok c' => simp [Stmt.erase, infer_erase c (inferCondition_ok.1 ran), checkStmt_erase body]
  | .forEach p elem name array body, env => by
    rw [checkStmt]
    cases ran : inferIteration env p elem name array with
    | error e => rfl
    | ok array' =>
      obtain ⟨t, whole, -⟩ := inferIteration_ok.1 ran
      dsimp only
      split <;> simp [Stmt.erase, infer_erase array whole, checkStmt_erase body]
  | .ret p value, env => by
    rw [checkStmt]
    cases ran : inferReturn env p value with
    | error e => rfl
    | ok value' => simp [Checked.done, Stmt.erase, infer_erase value (inferReturn_ok.1 ran).2]
  | .retVoid p, env => by
    rw [checkStmt]
    split <;> rfl
  | .expr p e, env => by
    rw [checkStmt]
    cases ran : inferEffect env p e with
    | error err => rfl
    | ok e' => simp [Checked.done, Stmt.erase, infer_erase e (inferEffect_ok.1 ran)]
  | .empty p, env => rfl

theorem checkStmts_erase : ∀ (ss : List Stmt) {env : Env},
    Stmt.eraseAll (checkStmts env ss).tree = Stmt.eraseAll ss
  | [], _ => rfl
  | s :: rest, env => by
    rw [checkStmts]
    split <;> simp [Stmt.eraseAll, checkStmt_erase s, checkStmts_erase rest]

end

/-- Checking a function only adds annotations. -/
theorem checkFunction_erase (f : FuncDef) {env : Env} : (checkFunction env f).tree.erase = f.erase := by
  unfold checkFunction
  split
  · rfl
  · split
    · rfl
    · dsimp only
      split
      · simp [FuncDef.erase, checkStmts_erase]
      · split <;> simp [Checked.failed, FuncDef.erase, checkStmts_erase]

theorem checkFunctions_erase : ∀ (fs : List FuncDef) {env : Env},
    (checkFunctions env fs).1.map FuncDef.erase = fs.map FuncDef.erase
  | [], _ => rfl
  | f :: rest, env => by
    rw [checkFunctions]
    dsimp only
    split <;> simp [checkFunction_erase, checkFunctions_erase rest]

end Typing

/-- Checking a program changes nothing but annotations. -/
theorem Program.check_erase (p : Program) : p.check.1.erase = p.erase := by
  unfold check
  split
  · rfl
  · simp [Program.erase, Typing.checkFunctions_erase]

theorem Program.map_of_erase {p q : Program} (same : q.erase = p.erase) {α : Type} (g : FuncDef → α)
    (blind : ∀ f, g f.erase = g f) : q.functions.map g = p.functions.map g := by
  have erased : ∀ r : Program, r.erase.functions.map g = r.functions.map g := by
    intro r
    simp only [Program.erase, List.map_map]
    exact List.map_congr_left fun f _ => blind f
  rw [← erased q, ← erased p, same]

theorem Program.signatures_of_erase {p q : Program} (same : q.erase = p.erase) :
    q.signatures = p.signatures := by
  rw [Program.signatures, Program.signatures,
    Program.map_of_erase same (fun f => (f.name, f.signature)) fun _ => rfl]

end ImpCompiler
