import ImpCompiler.Proofs.Typing.Erasure

/-!
# Proofs.Typing.Annotations — what a check depends on

A check looks through the annotations that a tree has, wherever they stand, and asks an
environment for names only. So the check of a tree in one environment and the check of the
tree without annotations in another one that knows the same names (`Env.Alike`) end for the
same reason and, if nothing stops them, with the same tree (`Checked.Agrees`). An expression
even gets the same answer in both cases (`infer_erased`), since an answer is a new tree and
an error has the place of a node inside.
-/

namespace ImpCompiler

set_option autoImplicit false

@[simp] theorem Expr.pos_erase : ∀ (e : Expr), e.erase.pos = e.pos
  | .typed x _ => pos_erase x
  | .int .. | .double .. | .bool .. | .string .. | .ident .. | .unary .. | .binary .. | .call ..
  | .index .. | .new .. | .length .. => rfl

@[simp] theorem Expr.length_eraseAll (es : List Expr) : (eraseAll es).length = es.length := by
  rw [eraseAll_eq_map, List.length_map]

/-! ## Environments that know the same names -/

/-- Two environments that may list the signatures of functions in different orders. -/
structure Env.Alike (env env' : Env) : Prop where
  scopes : env.scopes = env'.scopes
  signatures : ∀ name, env.signatures.lookup name = env'.signatures.lookup name
  current : env.current = env'.current
  currentType : env.currentType = env'.currentType

namespace Env.Alike

variable {env env' : Env}

theorem refl (env : Env) : env.Alike env := ⟨rfl, fun _ => rfl, rfl, rfl⟩

theorem typeOf (alike : env.Alike env') (name : Text) (p : Pos) :
    env.typeOf name p = env'.typeOf name p := by
  simp only [Env.typeOf, alike.scopes]

theorem signatureOf (alike : env.Alike env') (name : Text) (p : Pos) :
    env.signatureOf name p = env'.signatureOf name p := by
  simp only [Env.signatureOf, alike.signatures]

theorem enter (alike : env.Alike env') : env.enter.Alike env'.enter where
  scopes := congrArg (List.cons []) alike.scopes
  signatures := alike.signatures
  current := alike.current
  currentType := alike.currentType

theorem leave (alike : env.Alike env') : env.leave.Alike env'.leave where
  scopes := congrArg List.tail alike.scopes
  signatures := alike.signatures
  current := alike.current
  currentType := alike.currentType

/-- Both refuse a declaration for the same reason, or both make it. -/
theorem declare (alike : env.Alike env') (name : Text) (t : Ty) (p : Pos) :
    (∃ stop, env.declare name t p = .error stop ∧ env'.declare name t p = .error stop) ∨
      ∃ next next', env.declare name t p = .ok next ∧ env'.declare name t p = .ok next' ∧
        next.Alike next' := by
  simp only [Env.declare, alike.scopes]
  split
  · exact .inl ⟨_, rfl, rfl⟩
  · split
    · exact .inl ⟨_, rfl, rfl⟩
    · exact .inr ⟨_, _, rfl, rfl, rfl, alike.signatures, alike.current, alike.currentType⟩

theorem enterFunction (alike : env.Alike env') (name : Text) (p : Pos) :
    (∃ e, env.enterFunction name p = .error e ∧ env'.enterFunction name p = .error e) ∨
      ∃ next next', env.enterFunction name p = .ok next ∧ env'.enterFunction name p = .ok next' ∧
        next.Alike next' := by
  simp only [Env.enterFunction, alike.signatureOf]
  cases env'.signatureOf name p with
  | error e => exact .inl ⟨e, rfl, rfl⟩
  | ok s => exact .inr ⟨_, _, rfl, rfl, alike.scopes, alike.signatures, rfl, rfl⟩

theorem declareParams (alike : env.Alike env') (ps : List Param) :
    (∃ stop, Typing.declareParams env ps = .error stop ∧
        Typing.declareParams env' ps = .error stop) ∨
      ∃ next next', Typing.declareParams env ps = .ok next ∧
        Typing.declareParams env' ps = .ok next' ∧ next.Alike next' := by
  induction ps generalizing env env' with
  | nil => exact .inr ⟨_, _, rfl, rfl, alike⟩
  | cons q rest ih =>
    rw [Typing.declareParams, Typing.declareParams]
    rcases alike.declare q.name q.type q.pos with ⟨stop, one, other⟩ | ⟨_, _, one, other, alike⟩
    · rw [one, other]
      exact .inl ⟨stop, rfl, rfl⟩
    · rw [one, other]
      exact ih alike

end Env.Alike

/-- Two checks end for the same reason in environments that are alike, and if nothing stops
them, with the same tree. -/
structure Checked.Agrees {α : Type} (r r' : Checked α) : Prop where
  env : r.env.Alike r'.env
  stop : r.stop = r'.stop
  tree : r.stop = none → r.tree = r'.tree

namespace Checked.Agrees

variable {α β : Type} {r r' : Checked α} {env env' : Env}

theorem done (alike : env.Alike env') (a : α) : (Checked.done env a).Agrees (.done env' a) :=
  ⟨alike, rfl, fun _ => rfl⟩

theorem failed (alike : env.Alike env') {a b : α} {e : TypeError} :
    (Checked.failed env a e).Agrees (.failed env' b e) :=
  ⟨alike, rfl, fun ended => by cases ended⟩

theorem stopped (alike : env.Alike env') {a b : α} {s : Stop} :
    Agrees ⟨env, a, some s⟩ ⟨env', b, some s⟩ :=
  ⟨alike, rfl, fun ended => by cases ended⟩

/-- Checks that agree still do so inside larger trees. -/
theorem map (agrees : r.Agrees r') {f g : α → β} (same : ∀ a, f a = g a) :
    (r.map f).Agrees (r'.map g) where
  env := agrees.env
  stop := agrees.stop
  tree ended := by rw [map_tree, map_tree, agrees.tree ended, same]

/-- Inside larger trees that differ elsewhere, checks that were stopped still agree. -/
theorem map_stopped (agrees : r.Agrees r') {f g : α → β} {s : Stop} (stopped : r.stop = some s) :
    (r.map f).Agrees (r'.map g) where
  env := agrees.env
  stop := agrees.stop
  tree ended := by
    rw [map_stop, stopped] at ended
    cases ended

theorem leave (agrees : r.Agrees r') : r.leave.Agrees r'.leave where
  env := by
    unfold Checked.leave
    rw [← agrees.stop]
    split
    · exact agrees.env.leave
    · exact agrees.env
  stop := by rw [leave_stop, leave_stop, agrees.stop]
  tree ended := by
    rw [leave_stop] at ended
    rw [leave_tree, leave_tree, agrees.tree ended]

end Checked.Agrees

namespace Typing

section Expressions

variable {env env' : Env}

theorem callee_alike (alike : env.Alike env') (p : Pos) (name : Text) (n : Nat) :
    callee env p name n = callee env' p name n := by
  simp only [callee, alike.signatureOf]

mutual

/-- Annotations do not change the type. -/
theorem infer_erased (alike : env.Alike env') : ∀ (e : Expr), infer env e.erase = infer env' e
  | .typed x _ => by rw [Expr.erase, infer, infer_erased alike x]
  | .int .. | .double .. | .bool .. | .string .. => rfl
  | .ident .. => by simp only [Expr.erase, infer, alike.typeOf]
  | .unary _ _ x => by simp only [Expr.erase, infer, infer_erased alike x]
  | .binary _ _ x y => by
    simp only [Expr.erase, infer, infer_erased alike x, infer_erased alike y, Expr.pos_erase]
  | .call _ _ args => by
    simp only [Expr.erase, infer, Expr.length_eraseAll, callee_alike alike,
      inferArguments_erased alike args]
  | .length _ x _ => by simp only [Expr.erase, infer, infer_erased alike x]
  | .index _ x i => by
    simp only [Expr.erase, infer, infer_erased alike i, inferChain_erased alike x, Expr.pos_erase]
  | .new _ _ sizes => by
    simp only [Expr.erase, infer, Expr.length_eraseAll, inferSizes_erased alike sizes]

theorem inferChain_erased (alike : env.Alike env') : ∀ (e : Expr),
    inferChain env e.erase = inferChain env' e
  | .typed x _ => by rw [Expr.erase, inferChain, inferChain_erased alike x]
  | .int .. | .double .. | .bool .. | .string .. => rfl
  | .ident .. => by simp only [Expr.erase, inferChain, alike.typeOf]
  | .index _ x i => by
    simp only [Expr.erase, inferChain, infer_erased alike i, inferChain_erased alike x,
      Expr.pos_erase]
  | .call _ _ args => by
    simp only [Expr.erase, inferChain, Expr.length_eraseAll, callee_alike alike,
      inferArguments_erased alike args]
  | .new _ _ sizes => by
    simp only [Expr.erase, inferChain, Expr.length_eraseAll, inferSizes_erased alike sizes]
  | .unary .. | .binary .. | .length .. => by simp only [Expr.erase, inferChain, Expr.pos]

theorem inferArguments_erased (alike : env.Alike env') : ∀ (es : List Expr) {name : Text} {k : Nat}
    {ts : List Ty},
    inferArguments env name k ts (Expr.eraseAll es) = inferArguments env' name k ts es
  | [], _, _, [] | [], _, _, _ :: _ => rfl
  | e :: es, _, _, [] => by simp only [Expr.eraseAll, inferArguments]
  | e :: es, _, _, t :: ts => by
    simp only [Expr.eraseAll, inferArguments, infer_erased alike e,
      inferArguments_erased alike es, Expr.pos_erase]

theorem inferSizes_erased (alike : env.Alike env') : ∀ (es : List Expr),
    inferSizes env (Expr.eraseAll es) = inferSizes env' es
  | [] => rfl
  | e :: es => by
    simp only [Expr.eraseAll, inferSizes, infer_erased alike e, inferSizes_erased alike es,
      Expr.pos_erase]

end

theorem inferCondition_erased (alike : env.Alike env') (c : Expr) :
    inferCondition env c.erase = inferCondition env' c := by
  simp only [inferCondition, infer_erased alike, Expr.pos_erase]

theorem inferInit_erased (alike : env.Alike env') (t : Ty) (item : DeclItem) :
    inferInit env t item.erase = inferInit env' t item := by
  obtain ⟨p, name, init⟩ := item
  cases init with
  | none => rfl
  | some e => simp only [inferInit, DeclItem.erase, Option.map_some, infer_erased alike]

/-- A target is looked at through the annotations around it. -/
theorem inferAssignment_erased (alike : env.Alike env') (p : Pos) (value : Expr) :
    ∀ (target : Expr),
      inferAssignment env p target.erase value.erase = inferAssignment env' p target value
  | .typed x t => by
    have through :
        inferAssignment env' p (.typed x t) value = inferAssignment env' p x value := by
      simp only [inferAssignment, Expr.strip, infer]
    rw [through, Expr.erase, inferAssignment_erased alike p value x]
  | .ident .. | .index .. | .int .. | .double .. | .bool .. | .string .. | .unary .. | .binary ..
  | .call .. | .new .. | .length .. => by
    unfold inferAssignment
    rw [infer_erased alike, infer_erased alike]
    rfl

theorem inferIteration_erased (alike : env.Alike env') (p : Pos) (elem : Ty) (name : Text)
    (array : Expr) : inferIteration env p elem name array.erase =
      inferIteration env' p elem name array := by
  simp only [inferIteration, infer_erased alike, Expr.pos_erase]

theorem inferReturn_erased (alike : env.Alike env') (p : Pos) (value : Expr) :
    inferReturn env p value.erase = inferReturn env' p value := by
  simp only [inferReturn, infer_erased alike, alike.current, alike.currentType]

theorem inferEffect_erased (alike : env.Alike env') (p : Pos) (e : Expr) :
    inferEffect env p e.erase = inferEffect env' p e := by
  simp only [inferEffect, infer_erased alike]

theorem checkCounter_alike (alike : env.Alike env') (p : Pos) (name : Text) :
    checkCounter env p name = checkCounter env' p name := by
  simp only [checkCounter, alike.typeOf]

end Expressions

/-! ## Statements -/

theorem checkItems_erased (t : Ty) : ∀ (items : List DeclItem) {env env' : Env}, env.Alike env' →
    (checkItems env t (items.map DeclItem.erase)).Agrees (checkItems env' t items)
  | [], _, _, alike => .done alike []
  | item :: rest, env, env', alike => by
    rw [List.map_cons, checkItems, checkItems, inferInit_erased alike]
    cases inferInit env' t item with
    | error e => exact .failed alike
    | ok item' =>
      rcases alike.declare item.name t item.pos with
        ⟨stop, one, other⟩ | ⟨_, _, one, other, alike'⟩
      · simp only [DeclItem.erase, one, other]
        exact .stopped alike
      · simp only [DeclItem.erase, one, other]
        exact (checkItems_erased t rest alike').map fun _ => rfl

mutual

/-- Annotations do not change how a statement is checked. -/
theorem checkStmt_erased : ∀ (s : Stmt) {env env' : Env}, env.Alike env' →
    (checkStmt env s.erase).Agrees (checkStmt env' s)
  | .block p body, _, _, alike => by
    rw [Stmt.erase, checkStmt, checkStmt]
    exact (checkStmts_erased body alike.enter).leave.map fun _ => rfl
  | .decl p t items, _, _, alike => by
    rw [Stmt.erase, checkStmt, checkStmt]
    split
    · exact .failed alike
    · exact (checkItems_erased t items alike).map fun _ => rfl
  | .assign p target value, _, env', alike => by
    rw [Stmt.erase, checkStmt, checkStmt, inferAssignment_erased alike]
    cases inferAssignment env' p target value with
    | error e => exact .failed alike
    | ok both => exact .done alike _
  | .incr p name decrement, _, env', alike => by
    rw [Stmt.erase, checkStmt, checkStmt, checkCounter_alike alike]
    cases checkCounter env' p name with
    | error e => exact .failed alike
    | ok _ => exact .done alike _
  | .ifThen p c yes, _, env', alike => by
    rw [Stmt.erase, checkStmt, checkStmt, inferCondition_erased alike]
    cases inferCondition env' c with
    | error e => exact .failed alike
    | ok c' => exact (checkStmt_erased yes alike.enter).leave.map fun _ => rfl
  | .ifElse p c yes no, _, env', alike => by
    rw [Stmt.erase, checkStmt, checkStmt, inferCondition_erased alike]
    cases inferCondition env' c with
    | error e => exact .failed alike
    | ok c' =>
      have first := (checkStmt_erased yes alike.enter).leave
      dsimp only
      cases ended : (checkStmt env'.enter yes).leave.stop with
      | some stop =>
        rw [first.stop, ended]
        exact first.map_stopped (first.stop.trans ended)
      | none =>
        rw [first.stop, ended]
        refine (checkStmt_erased no first.env.enter).leave.map fun no' => ?_
        rw [first.tree (first.stop.trans ended)]
  | .while p c body, _, env', alike => by
    rw [Stmt.erase, checkStmt, checkStmt, inferCondition_erased alike]
    cases inferCondition env' c with
    | error e => exact .failed alike
    | ok c' => exact (checkStmt_erased body alike.enter).leave.map fun _ => rfl
  | .forEach p elem name array body, _, env', alike => by
    rw [Stmt.erase, checkStmt, checkStmt, inferIteration_erased alike]
    cases inferIteration env' p elem name array with
    | error e => exact .failed alike
    | ok array' =>
      rcases alike.enter.declare name elem p with
        ⟨stop, one, other⟩ | ⟨_, _, one, other, alike'⟩
      · simp only [one, other]
        exact .stopped alike.enter
      · simp only [one, other]
        exact (checkStmt_erased body alike'.enter).leave.leave.map fun _ => rfl
  | .ret p value, _, env', alike => by
    rw [Stmt.erase, checkStmt, checkStmt, inferReturn_erased alike]
    cases inferReturn env' p value with
    | error e => exact .failed alike
    | ok value' => exact .done alike _
  | .retVoid p, _, _, alike => by
    rw [Stmt.erase, checkStmt, checkStmt, alike.current, alike.currentType]
    split
    · exact .done alike _
    · exact .failed alike
  | .expr p e, _, env', alike => by
    rw [Stmt.erase, checkStmt, checkStmt, inferEffect_erased alike]
    cases inferEffect env' p e with
    | error err => exact .failed alike
    | ok e' => exact .done alike _
  | .empty .., _, _, alike => .done alike _

theorem checkStmts_erased : ∀ (ss : List Stmt) {env env' : Env}, env.Alike env' →
    (checkStmts env (Stmt.eraseAll ss)).Agrees (checkStmts env' ss)
  | [], _, _, alike => .done alike []
  | s :: rest, _, env', alike => by
    have first := checkStmt_erased s alike
    rw [Stmt.eraseAll, checkStmts, checkStmts]
    cases ended : (checkStmt env' s).stop with
    | some stop =>
      rw [first.stop, ended]
      exact first.map_stopped (first.stop.trans ended)
    | none =>
      rw [first.stop, ended]
      refine (checkStmts_erased rest first.env).map fun rest' => ?_
      rw [first.tree (first.stop.trans ended)]

end

/-! ## Functions and programs -/

/-- Annotations do not change how a function is checked. -/
theorem checkFunction_erased (f : FuncDef) {env env' : Env} (alike : env.Alike env') :
    (checkFunction env f.erase).Agrees (checkFunction env' f) := by
  obtain ⟨p, name, ret, params, q, body⟩ := f
  rw [FuncDef.erase]
  unfold checkFunction
  dsimp only
  rcases alike.enterFunction name p with ⟨e, one, other⟩ | ⟨_, _, one, other, alike⟩
  · rw [one, other]
    exact .failed alike
  · rw [one, other]
    dsimp only
    rcases alike.enter.declareParams params with ⟨stop, one, other⟩ | ⟨_, env₂, one, other, alike⟩
    · rw [one, other]
      exact .stopped alike.enter
    · have inner := (checkStmts_erased body alike).leave
      simp only [one, other, Checked.map_stop, Checked.map_env, Stmt.anyReturns_eraseAll]
      cases ended : (checkStmts env₂ body).leave.stop with
      | some stop =>
        rw [inner.stop, ended]
        exact inner.map_stopped (inner.stop.trans ended)
      | none =>
        rw [inner.stop, ended]
        dsimp only
        split
        · exact .failed inner.env
        · exact inner.map fun _ => rfl

/-- A function is checked alike in environments that are alike. -/
theorem checkFunction_alike (f : FuncDef) {env env' : Env} (alike : env.Alike env') :
    (checkFunction env f).stop = (checkFunction env' f).stop ∧
      ((checkFunction env f).stop = none →
        (checkFunction env f).tree = (checkFunction env' f).tree) := by
  have other := checkFunction_erased f alike
  have own := checkFunction_erased f (.refl env)
  refine ⟨own.stop.symm.trans other.stop, fun ended => ?_⟩
  rw [← own.tree (own.stop.trans ended), other.tree (own.stop.trans ended)]

/-- Functions without annotations are refused for the same reason, or become the same. -/
theorem checkFunctions_erased : ∀ (fs : List FuncDef) {env env' : Env}, env.Alike env' →
    (checkFunctions env (fs.map FuncDef.erase)).2 = (checkFunctions env' fs).2 ∧
      ((checkFunctions env' fs).2 = none →
        (checkFunctions env (fs.map FuncDef.erase)).1 = (checkFunctions env' fs).1)
  | [], _, _, _ => ⟨rfl, fun _ => rfl⟩
  | f :: rest, env, env', alike => by
    have first := checkFunction_erased f alike
    rw [List.map_cons, checkFunctions, checkFunctions]
    dsimp only
    cases ended : (checkFunction env' f).stop with
    | some stop =>
      rw [first.stop, ended]
      exact ⟨rfl, fun accepted => by cases accepted⟩
    | none =>
      rw [first.stop, ended, first.tree (first.stop.trans ended)]
      obtain ⟨refusal, trees⟩ := checkFunctions_erased rest first.env
      exact ⟨refusal, fun accepted => congrArg (List.cons _) (trees accepted)⟩

theorem declareFunctions_erased : ∀ (fs : List FuncDef) {env : Env},
    declareFunctions env (fs.map FuncDef.erase) = declareFunctions env fs
  | [], _ => rfl
  | f :: rest, env => by
    rw [List.map_cons, declareFunctions, declareFunctions]
    simp only [declareFunctions_erased rest, FuncDef.erase, FuncDef.signature]

theorem globalEnv_erased (p : Program) : globalEnv p.erase = globalEnv p := by
  simp only [globalEnv, Program.erase, declareFunctions_erased]

end Typing

/-- A program without its annotations is refused for the same reason, or becomes the same. -/
theorem Program.check_erased (p : Program) :
    p.erase.check.2 = p.check.2 ∧ (p.check.2 = none → p.erase.check.1 = p.check.1) := by
  unfold check
  rw [Typing.globalEnv_erased]
  cases Typing.globalEnv p with
  | error e => exact ⟨rfl, fun accepted => by cases accepted⟩
  | ok env =>
    obtain ⟨refusal, trees⟩ := Typing.checkFunctions_erased p.functions (.refl env)
    exact ⟨refusal, fun accepted => congrArg Program.mk (trees accepted)⟩

/-- Annotations do not influence a check: a program is refused for the same reason as
without them, or becomes the same, and what it becomes is accepted and stays as it is. -/
theorem annotations_do_not_influence_checks (p : Program) :
    p.check.2 = p.erase.check.2 ∧
      (p.check.2 = none → p.check.1 = p.erase.check.1 ∧ p.check.1.check = (p.check.1, none)) := by
  obtain ⟨refusal, trees⟩ := p.check_erased
  refine ⟨refusal.symm, fun accepted => ⟨(trees accepted).symm, ?_⟩⟩
  obtain ⟨refusal', trees'⟩ := p.check.1.check_erased
  rw [p.check_erase] at refusal' trees'
  have again : p.check.1.check.2 = none := by rw [← refusal', refusal, accepted]
  apply Prod.ext
  · rw [← trees' again, trees accepted]
  · exact again

end ImpCompiler
