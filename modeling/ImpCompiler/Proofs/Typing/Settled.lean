import ImpCompiler.Proofs.Typing.Indices

/-!
# Proofs.Typing.Settled — a checked tree passes a check as it is

A well typed tree with one annotation around each expression is what a check of it answers with:
every expression gets the annotation that it has, and every statement leads to the scope that the
rules give (`checkStmt_settled`). This holds of all trees of which the rules for annotated
expressions hold, wherever they come from.
-/

namespace ImpCompiler

set_option autoImplicit false

namespace Typing

variable (env : Env)

/-! ## Expressions -/

mutual

theorem HasType.infer_eq {e : Expr} {t : Ty} (typed : HasType env.signatures env.context e t) :
    infer env e = .ok (t, e) := by
  match typed with
  | .typed form =>
    rw [infer]
    exact form.infer_eq

/-- An annotated expression is given its own annotations. -/
theorem HasForm.infer_eq {x : Expr} {t : Ty} (form : HasForm env.signatures env.context x t) :
    infer env x = .ok (t, .typed x t) := by
  match form with
  | .int | .double | .bool | .string =>
    rw [infer]
    rfl
  | .ident known => exact infer_ident_ok.2 ⟨known, rfl⟩
  | .unary accepts operand => exact infer_unary_ok.2 ⟨_, operand.infer_eq, accepts, rfl⟩
  | .binary accepts left right =>
    exact infer_binary_ok.2 ⟨_, _, _, left.infer_eq, right.infer_eq, accepts, rfl, rfl⟩
  | .call known arguments =>
    obtain ⟨arity, same, -⟩ := arguments.infer_eq
    exact infer_call_ok.2 ⟨_, _, known, arity, same _ _, rfl, rfl⟩
  | .index elem array index =>
    exact infer_index_iff.2 ⟨_, _, _, index.infer_eq, array.infer_eq, elem, rfl⟩
  | .new constructible nonempty ints =>
    obtain ⟨-, -, same⟩ := ints.infer_eq
    have sizes := same fun t member => (List.mem_replicate.1 member).2
    exact infer_new_ok.2 ⟨_, by simpa using nonempty, constructible, sizes, rfl, rfl⟩
  | .length isArray member array =>
    exact infer_length_ok.2 ⟨_, _, array.infer_eq, isArray, member, rfl, rfl⟩

/-- Expressions one after another, as arguments or as sizes. -/
theorem HasTypes.infer_eq {es : List Expr} {ts : List Ty}
    (typed : HasTypes env.signatures env.context es ts) :
    ts.length = es.length ∧ (∀ name k, inferArguments env name k ts es = .ok es) ∧
      ((∀ t ∈ ts, t = Ty.int) → inferSizes env es = .ok es) := by
  match typed with
  | .nil => exact ⟨rfl, fun _ _ => rfl, fun _ => rfl⟩
  | .cons first rest =>
    obtain ⟨arity, arguments, sizes⟩ := rest.infer_eq
    refine ⟨congrArg (· + 1) arity, fun name k => ?_, fun ints => ?_⟩
    · exact inferArguments_cons_ok.2 ⟨_, _, first.infer_eq, arguments _ _, rfl⟩
    · obtain ⟨rfl, others⟩ := List.forall_mem_cons.1 ints
      exact inferSizes_cons_ok.2 ⟨_, _, first.infer_eq, sizes others, rfl⟩

end

/-! ## Statements -/

/-- Declarations that were checked are accepted as they are. -/
theorem checkItems_settled {t : Ty} {Δ Δ' : Scope} {items : List DeclItem}
    (introduces : Introduces (HasType env.signatures) t env.context Δ items Δ') :
    checkItems (env.withScope Δ) t items = .done (env.withScope Δ') items := by
  induction introduces with
  | nil => rfl
  | @cons Δ Δ' item rest start new _ ih =>
    have started : inferInit (env.withScope Δ) t item = .ok item := by
      cases init : item.init with
      | none => exact inferInit_none init
      | some e =>
        have typed := (start e init).infer_eq (env.withScope Δ)
        exact (inferInit_some init).2 ⟨e, typed, by rw [← init]⟩
    have declared : (env.withScope Δ).declare item.name t item.pos =
        .ok (env.withScope ((item.name, t) :: Δ)) :=
      Env.declare_ok.2 ⟨new, rfl⟩
    simp only [checkItems, started, declared, ih]
    rfl

/-- A scope of its own is closed behind what was checked in it. -/
theorem done_leave {α : Type} (Δ : Scope) (tree : α) :
    (Checked.done (env.withScope Δ) tree).leave = .done env tree := rfl

mutual

/-- A statement that was checked is accepted as it is. -/
theorem checkStmt_settled (env : Env) {Δ Δ' : Scope} {s : Stmt}
    (admits : Admits (HasType env.signatures) env.currentType.ret env.context Δ s Δ') :
    checkStmt (env.withScope Δ) s = .done (env.withScope Δ') s := by
  match admits with
  | .block inner =>
    rw [checkStmt, Env.enter_eq, checkStmts_settled (env.withScope Δ) inner, done_leave]
    rfl
  | .decl value introduces =>
    rw [checkStmt, if_neg value, checkItems_settled env introduces]
    rfl
  | .assign assignable left right =>
    have target := left.infer_eq (env.withScope Δ)
    have value := right.infer_eq (env.withScope Δ)
    rw [checkStmt, inferAssignment_ok.2 ⟨assignable, _, target, value⟩]
  | .incr known => rw [checkStmt, checkCounter_ok (u := ()).2 known]
  | .ifThen cond inner =>
    rw [checkStmt, inferCondition_ok.2 (cond.infer_eq (env.withScope Δ))]
    dsimp only
    rw [Env.enter_eq, checkStmt_settled (env.withScope Δ) inner, done_leave]
    rfl
  | .ifElse cond inner inner' =>
    rw [checkStmt, inferCondition_ok.2 (cond.infer_eq (env.withScope Δ))]
    dsimp only
    rw [Env.enter_eq, checkStmt_settled (env.withScope Δ) inner, done_leave]
    dsimp only [Checked.done]
    rw [Env.enter_eq, checkStmt_settled (env.withScope Δ) inner', done_leave]
    rfl
  | .while cond inner =>
    rw [checkStmt, inferCondition_ok.2 (cond.infer_eq (env.withScope Δ))]
    dsimp only
    rw [Env.enter_eq, checkStmt_settled (env.withScope Δ) inner, done_leave]
    rfl
  | @Admits.forEach _ _ _ _ _ p elem t name array body whole elems inner =>
    have declared : (env.withScope Δ).enter.declare name elem p =
        .ok ((env.withScope Δ).withScope [(name, elem)]) :=
      Env.declare_ok.2 ⟨rfl, rfl⟩
    rw [checkStmt, inferIteration_ok.2 ⟨_, whole.infer_eq (env.withScope Δ), elems⟩]
    simp only [declared]
    rw [Env.enter_eq,
      checkStmt_settled ((env.withScope Δ).withScope [(name, elem)]) inner, done_leave,
      done_leave]
    rfl
  | .ret value answer =>
    have given := answer.infer_eq (env.withScope Δ)
    have giving : (env.withScope Δ).currentType.ret ≠ Ty.void := value
    rw [checkStmt, inferReturn_ok.2 ⟨giving, given⟩]
  | .retVoid void =>
    have nothing : (env.withScope Δ).currentType.ret = Ty.void := void
    rw [checkStmt, if_pos nothing]
  | .expr effect => rw [checkStmt, inferEffect_ok.2 (effect.infer_eq (env.withScope Δ))]
  | .empty => rw [checkStmt]

theorem checkStmts_settled (env : Env) {Δ Δ' : Scope} {ss : List Stmt}
    (admits : AdmitsAll (HasType env.signatures) env.currentType.ret env.context Δ ss Δ') :
    checkStmts (env.withScope Δ) ss = .done (env.withScope Δ') ss := by
  match admits with
  | .nil => rw [checkStmts]
  | .cons first others =>
    rw [checkStmts, checkStmt_settled env first]
    dsimp only [Checked.done]
    rw [checkStmts_settled env others]
    rfl

end

/-! ## Functions and programs -/

theorem checkFunction_settled {f : FuncDef} (closed : env.scopes = [])
    (known : env.signatures.lookup f.name = some f.signature)
    (admits : AdmitsFunction (HasType env.signatures) f) :
    checkFunction env f = .done (env.inFunction f) f := by
  obtain ⟨Δ, all⟩ := admits.body
  have none : (env.inFunction f).context = [] := by simp [Env.context, Env.inFunction, closed]
  rw [← none] at all
  have body : checkBody env f = .done ((env.inFunction f).withScope Δ) f.body :=
    checkStmts_settled (env.inFunction f) all
  have accepted : (checkFunction env f).stop = .none :=
    (checkFunction_ok known).2 ⟨admits.names, by rw [body]; rfl,
      fun value => (anyReturns_iff _).2 (admits.returns value)⟩
  obtain ⟨tree, left⟩ := checkFunction_done known accepted
  rw [body] at tree left
  calc checkFunction env f
      = ⟨(checkFunction env f).env, (checkFunction env f).tree, (checkFunction env f).stop⟩ := rfl
    _ = .done (env.inFunction f) f := by
      rw [left, tree, accepted]
      rfl

theorem checkFunctions_settled : ∀ (fs : List FuncDef) (env : Env), env.scopes = [] →
    (∀ f ∈ fs, env.signatures.lookup f.name = some f.signature) →
    (∀ f ∈ fs, AdmitsFunction (HasType env.signatures) f) → checkFunctions env fs = (fs, none)
  | [], _, _, _, _ => rfl
  | f :: rest, env, closed, known, admits => by
    have others := checkFunctions_settled rest (env.inFunction f) closed
      (fun g member => known g (by simp [member])) fun g member => admits g (by simp [member])
    rw [checkFunctions, checkFunction_settled env closed (known f (by simp)) (admits f (by simp))]
    simp only [Checked.done, others]

end Typing

/-- A program of which the rules for annotated trees hold is accepted and stays as it is. -/
theorem Program.check_settled {p : Program}
    (admits : Typing.AdmitsProgram (Typing.HasType p.signatures) p) : p.check = (p, none) := by
  have global := Typing.globalEnv_ok.2 ⟨fun f member => (admits.functions f member).params,
    admits.names, admits.own, admits.main, rfl⟩
  rw [Program.check, global]
  dsimp only
  rw [Typing.checkFunctions_settled p.functions _ rfl
    (fun f member => Typing.signatures_lookup admits.names member) admits.functions]

end ImpCompiler
