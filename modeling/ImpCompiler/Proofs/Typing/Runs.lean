import ImpCompiler.Proofs.Basics
import ImpCompiler.Proofs.Typing.Language

/-!
# Proofs.Typing.Runs — what a check consists of

The lemmas `…_ok` say of each form of tree when its check succeeds, in terms of the
checks of its parts, and what it answers. A statement is checked in an environment with
one scope more (`Env.withScope`). Proofs about checking use these and do not look into
its definition.
-/

namespace ImpCompiler

set_option autoImplicit false

namespace Env

def context (env : Env) : Typing.Context := env.scopes.flatten

theorem lookupIn_eq_lookup (scopes : List Scope) (name : Text) :
    lookupIn scopes name = scopes.flatten.lookup name := by
  induction scopes with
  | nil => rfl
  | cons scope rest ih => rw [lookupIn, List.flatten_cons, List.lookup_append, ih]

theorem typeOf_ok {env : Env} {name : Text} {p : Pos} {t : Ty} :
    env.typeOf name p = .ok t ↔ env.context.lookup name = some t := by
  simp only [typeOf, lookupIn_eq_lookup, context]
  cases env.scopes.flatten.lookup name <;> simp

theorem signatureOf_ok {env : Env} {name : Text} {p : Pos} {s : Signature} :
    env.signatureOf name p = .ok s ↔ env.signatures.lookup name = some s := by
  simp only [signatureOf]
  cases env.signatures.lookup name <;> simp

def withScope (env : Env) (Δ : Scope) : Env := { env with scopes := Δ :: env.scopes }

section WithScope

variable (env : Env) (Δ : Scope)

@[simp] theorem withScope_context : (env.withScope Δ).context = Δ ++ env.context := rfl

@[simp] theorem withScope_signatures : (env.withScope Δ).signatures = env.signatures := rfl

@[simp] theorem withScope_currentType : (env.withScope Δ).currentType = env.currentType := rfl

@[simp] theorem withScope_leave : (env.withScope Δ).leave = env := rfl

theorem enter_eq : env.enter = env.withScope [] := rfl

end WithScope

theorem declare_ok {env env' : Env} {Δ : Scope} {name : Text} {t : Ty} {p : Pos} :
    (env.withScope Δ).declare name t p = .ok env' ↔
      Δ.lookup name = none ∧ env' = env.withScope ((name, t) :: Δ) := by
  simp only [declare, withScope]
  cases Δ.lookup name <;> simp [eq_comm]

end Env

namespace Checked

variable {α β : Type} (r : Checked α)

@[simp] theorem leave_stop : r.leave.stop = r.stop := by
  unfold leave
  split <;> rfl

@[simp] theorem leave_tree : r.leave.tree = r.tree := by
  unfold leave
  split <;> rfl

theorem leave_env (ended : r.stop = none) : r.leave.env = r.env.leave := by
  simp [leave, ended]

@[simp] theorem map_stop (f : α → β) : (r.map f).stop = r.stop := rfl

@[simp] theorem map_tree (f : α → β) : (r.map f).tree = f r.tree := rfl

@[simp] theorem map_env (f : α → β) : (r.map f).env = r.env := rfl

end Checked

namespace Typing

variable {env : Env} {p : Pos} {name : Text} {e : Expr}

/-! ## Expressions -/

/-- A call needs a known function and as many arguments as it has parameters. -/
theorem callee_ok {n : Nat} {s : Signature} :
    callee env p name n = .ok s ↔ env.signatures.lookup name = some s ∧ s.params.length = n := by
  simp only [callee, Except.bind_eq_ok, Env.signatureOf_ok]
  constructor
  · rintro ⟨u, known, answer⟩
    split at answer
    · rename_i fits
      simp only [Except.pure_eq_ok] at answer
      subst answer
      exact ⟨known, fits⟩
    · simp at answer
  · rintro ⟨known, fits⟩
    exact ⟨s, known, by simp [fits]⟩

theorem constructible_ok {elem : Ty} {n : Nat} {u : Unit} :
    constructible p elem n = .ok u ↔ n ≠ 0 ∧ elem.base.isConstructible = true := by
  simp only [constructible]
  split
  · simp_all
  · split <;> simp_all

section Required

variable {α : Type} {e e' : Expr} {t : Ty} {g : Ty → TypeError} {k : Expr → Except TypeError α} {a : α}

/-- An expression that is required to be of a type: the check goes on with what is made of the
expression if it is, and stops if it is not. -/
theorem infer_required :
    (infer env e >>= fun r => if r.1 = t then k r.2 else throw (g r.1)) = .ok a ↔
      ∃ e', infer env e = .ok (t, e') ∧ k e' = .ok a := by
  simp only [Except.bind_eq_ok, Except.ite_throw_eq_ok]
  constructor
  · rintro ⟨⟨u, e'⟩, typed, rfl, ran⟩
    exact ⟨e', typed, ran⟩
  · rintro ⟨e', typed, ran⟩
    exact ⟨_, typed, rfl, ran⟩

theorem infer_demanded :
    (infer env e >>= fun r => if r.1 ≠ t then throw (g r.1) >>= fun _ : PUnit => k r.2 else k r.2) = .ok a ↔
      ∃ e', infer env e = .ok (t, e') ∧ k e' = .ok a := by
  rw [← infer_required (g := g)]
  simp only [ne_eq, ite_not]
  rfl

theorem infer_typed :
    (infer env e >>= fun r => if r.1 = t then return r.2 else throw (g r.1)) = .ok e' ↔
      infer env e = .ok (t, e') := by
  rw [infer_required (k := pure)]
  simp

end Required

section Forms

attribute [local simp] infer inferChain

variable {p : Pos} {t : Ty} {e' : Expr}

theorem infer_ident_ok {name : Text} :
    infer env (.ident p name) = .ok (t, e') ↔
      env.context.lookup name = some t ∧ e' = .typed (.ident p name) t := by
  simp only [infer, annotate, Except.bind_eq_ok, Env.typeOf_ok, Except.pure_eq_ok, Prod.mk.injEq]
  constructor
  · rintro ⟨u, known, rfl, rfl⟩
    exact ⟨known, rfl⟩
  · rintro ⟨known, rfl⟩
    exact ⟨t, known, rfl, rfl⟩

theorem infer_unary_ok {op : UnOp} {x : Expr} :
    infer env (.unary p op x) = .ok (t, e') ↔
      ∃ x', infer env x = .ok (t, x') ∧ op.accepts t = true ∧ e' = .typed (.unary p op x') t := by
  simp only [infer, annotate, Except.bind_eq_ok]
  constructor
  · rintro ⟨⟨u, x'⟩, operand, ran⟩
    split at ran
    · rename_i accepts
      simp only [Except.pure_eq_ok, Prod.mk.injEq] at ran
      obtain ⟨rfl, rfl⟩ := ran
      exact ⟨x', operand, accepts, rfl⟩
    · simp at ran
  · rintro ⟨x', operand, accepts, rfl⟩
    exact ⟨_, operand, by simp [accepts]⟩

theorem infer_binary_ok {op : BinOp} {x y : Expr} :
    infer env (.binary p op x y) = .ok (t, e') ↔
      ∃ u x' y', infer env x = .ok (u, x') ∧ infer env y = .ok (u, y') ∧ op.accepts u = true ∧
        t = op.result u ∧ e' = .typed (.binary p op x' y') t := by
  simp only [infer, annotate, Except.bind_eq_ok]
  constructor
  · rintro ⟨⟨u, x'⟩, left, ⟨v, y'⟩, right, ran⟩
    split at ran
    · simp at ran
    · rename_i accepts
      split at ran
      · simp at ran
      · split at ran
        · rename_i same
          simp only at same
          subst same
          simp only [Except.pure_eq_ok, Prod.mk.injEq] at ran
          obtain ⟨rfl, rfl⟩ := ran
          exact ⟨u, x', y', left, right, by simpa using accepts, rfl, rfl⟩
        · simp at ran
  · rintro ⟨u, x', y', left, right, accepts, rfl, rfl⟩
    exact ⟨_, left, _, right, by simp [accepts]⟩

theorem infer_call_ok {name : Text} {args : List Expr} :
    infer env (.call p name args) = .ok (t, e') ↔
      ∃ s args', env.signatures.lookup name = some s ∧ s.params.length = args.length ∧
        inferArguments env name 1 s.params args = .ok args' ∧ t = s.ret ∧
        e' = .typed (.call p name args') t := by
  simp only [infer, annotate, Except.bind_eq_ok, callee_ok, Except.pure_eq_ok, Prod.mk.injEq]
  constructor
  · rintro ⟨s, ⟨known, arity⟩, args', arguments, rfl, rfl⟩
    exact ⟨s, args', known, arity, arguments, rfl, rfl⟩
  · rintro ⟨s, args', known, arity, arguments, rfl, rfl⟩
    exact ⟨s, ⟨known, arity⟩, args', arguments, rfl, rfl⟩

theorem infer_length_ok {x : Expr} {m : Text} :
    infer env (.length p x m) = .ok (t, e') ↔
      ∃ u x', infer env x = .ok (u, x') ∧ u.isArray = true ∧ m = "length" ∧ t = Ty.int ∧
        e' = .typed (.length p x' m) t := by
  simp only [infer, annotate, Except.bind_eq_ok]
  constructor
  · rintro ⟨⟨u, x'⟩, array, ran⟩
    split at ran
    · simp at ran
    · rename_i isArray
      split at ran
      · rename_i member
        simp only [Except.pure_eq_ok, Prod.mk.injEq] at ran
        obtain ⟨rfl, rfl⟩ := ran
        exact ⟨u, x', array, by simpa using isArray, member, rfl, rfl⟩
      · simp at ran
  · rintro ⟨u, x', array, isArray, member, rfl, rfl⟩
    exact ⟨_, array, by simp [isArray, member]⟩

theorem infer_new_ok {elem : Ty} {sizes : List Expr} :
    infer env (.new p elem sizes) = .ok (t, e') ↔
      ∃ sizes', sizes.length ≠ 0 ∧ elem.base.isConstructible = true ∧
        inferSizes env sizes = .ok sizes' ∧ t = elem.arrayOf sizes.length ∧
        e' = .typed (.new p elem sizes') t := by
  simp only [infer, annotate, Except.bind_eq_ok, constructible_ok, Except.pure_eq_ok, Prod.mk.injEq]
  constructor
  · rintro ⟨_, ⟨some, constructible⟩, sizes', ints, rfl, rfl⟩
    exact ⟨sizes', some, constructible, ints, rfl, rfl⟩
  · rintro ⟨sizes', some, constructible, ints, rfl, rfl⟩
    exact ⟨(), ⟨some, constructible⟩, sizes', ints, rfl, rfl⟩

/-- An index is an integer, and there are no more indices than dimensions. -/
theorem infer_index_ok {x i : Expr} :
    infer env (.index p x i) = .ok (t, e') ↔
      ∃ i' c, infer env i = .ok (Ty.int, i') ∧ inferChain env x = .ok c ∧
        c.indices + 1 ≤ c.array.dims ∧ t = ⟨c.array.base, c.array.dims - (c.indices + 1)⟩ ∧
        e' = (c.apply p i').tree := by
  have rest : ∀ c : Chain, c.array.scalar.arrayOf ((c.array.dims : Int) - (c.indices + 1 : Nat)) =
      ⟨c.array.base, c.array.dims - (c.indices + 1)⟩ := by
    intro c
    simp only [Ty.arrayOf, Ty.scalar, Ty.mk.injEq, true_and]
    omega
  rw [infer]
  refine (infer_demanded (g := fun t => ⟨.indexType t, i.pos⟩) (k := fun i' => do
    let c := (← inferChain env x).apply p i'
    if c.array.dims < c.indices then throw ⟨.indexDepth c.array c.indices, p⟩
    else return (c.array.scalar.arrayOf ((c.array.dims : Int) - c.indices), c.tree))).trans ?_
  simp only [Except.bind_eq_ok]
  constructor
  · rintro ⟨i', index, c, chain, ran⟩
    split at ran
    · simp at ran
    · rename_i enough
      simp only [Except.pure_eq_ok, Prod.mk.injEq] at ran
      obtain ⟨rfl, rfl⟩ := ran
      exact ⟨i', c, index, chain, Nat.not_lt.1 enough, rest c, rfl⟩
  · rintro ⟨i', c, index, chain, enough, rfl, rfl⟩
    have enough : ¬ (c.apply p i').array.dims < (c.apply p i').indices := Nat.not_lt.2 enough
    refine ⟨i', index, c, chain, ?_⟩
    rw [← rest c]
    exact if_neg enough

theorem inferChain_index_ok {x i : Expr} {c : Chain} :
    inferChain env (.index p x i) = .ok c ↔
      ∃ i' d, infer env i = .ok (Ty.int, i') ∧ inferChain env x = .ok d ∧ c = d.apply p i' := by
  rw [inferChain]
  refine (infer_demanded (g := fun t => ⟨.indexType t, i.pos⟩)
    (k := fun i' => return (← inferChain env x).apply p i')).trans ?_
  simp only [Except.bind_eq_ok, Except.pure_eq_ok, exists_and_left]

end Forms

/-- Whether a chain of indices may start with the expression. -/
def isChainBase : Expr → Bool
  | .ident .. | .call .. | .new .. => true
  | _ => false

/-- An expression that is no indexing counts as a chain without indices. -/
theorem inferChain_base_ok (base : isChainBase e = true) {c : Chain} :
    inferChain env e = .ok c ↔ ∃ t e', infer env e = .ok (t, e') ∧ c = .ofTyped (t, e') := by
  have same : inferChain env e = (infer env e).map Chain.ofTyped := by
    cases e with
    | ident p name =>
      simp only [infer, inferChain]
      cases env.typeOf name p <;> rfl
    | call p name args =>
      simp only [infer, inferChain]
      cases callee env p name args.length with
      | error err => rfl
      | ok s =>
        change (inferArguments env name 1 s.params args >>= _) =
          Except.map _ (inferArguments env name 1 s.params args >>= _)
        cases inferArguments env name 1 s.params args <;> rfl
    | new p elem sizes =>
      simp only [infer, inferChain]
      cases constructible p elem sizes.length with
      | error err => rfl
      | ok u =>
        change (inferSizes env sizes >>= _) = Except.map _ (inferSizes env sizes >>= _)
        cases inferSizes env sizes <;> rfl
    | _ => cases base
  rw [same]
  cases infer env e with
  | error err => simp [Except.map]
  | ok r =>
    obtain ⟨t, e'⟩ := r
    constructor
    · intro answer
      cases answer
      exact ⟨t, e', rfl, rfl⟩
    · rintro ⟨_, _, typed, rfl⟩
      cases typed
      rfl

theorem inferArguments_cons_ok {k : Nat} {t : Ty} {ts : List Ty} {es es' : List Expr} :
    inferArguments env name k (t :: ts) (e :: es) = .ok es' ↔
      ∃ e₁ es₁, infer env e = .ok (t, e₁) ∧ inferArguments env name (k + 1) ts es = .ok es₁ ∧
        es' = e₁ :: es₁ := by
  rw [inferArguments]
  refine (infer_demanded (g := fun u => ⟨.argument k name t u, e.pos⟩)
    (k := fun e₁ => return e₁ :: (← inferArguments env name (k + 1) ts es))).trans ?_
  simp only [Except.bind_eq_ok, Except.pure_eq_ok, exists_and_left]

theorem inferSizes_cons_ok {es es' : List Expr} :
    inferSizes env (e :: es) = .ok es' ↔
      ∃ e₁ es₁, infer env e = .ok (Ty.int, e₁) ∧ inferSizes env es = .ok es₁ ∧ es' = e₁ :: es₁ := by
  rw [inferSizes]
  refine (infer_demanded (g := fun t => ⟨.sizeType t, e.pos⟩)
    (k := fun e₁ => return e₁ :: (← inferSizes env es))).trans ?_
  simp only [Except.bind_eq_ok, Except.pure_eq_ok, exists_and_left]

theorem infer_strip (e : Expr) : infer env e.strip = infer env e := by
  induction e using Expr.strip.induct with
  | case1 x t ih => rw [Expr.strip, infer, ih]
  | case2 e other =>
    rw [Expr.strip]
    exact other

/-! ## Statements -/

theorem inferCondition_ok {c c' : Expr} :
    inferCondition env c = .ok c' ↔ infer env c = .ok (Ty.boolean, c') :=
  infer_typed (g := fun t => ⟨.condition t, c.pos⟩)

theorem inferInit_none {t : Ty} {item : DeclItem} (none : item.init = none) :
    inferInit env t item = .ok item := by
  simp only [inferInit, none]
  rfl

theorem inferInit_some {t : Ty} {item item' : DeclItem} (some : item.init = some e) :
    inferInit env t item = .ok item' ↔
      ∃ e', infer env e = .ok (t, e') ∧ item' = { item with init := .some e' } := by
  simp only [inferInit, some]
  refine (infer_required (g := fun u => ⟨.initializer t item.name u, item.pos⟩)
    (k := fun e' => return { item with init := .some e' })).trans ?_
  simp only [Except.pure_eq_ok]

/-- Both sides of an assignment have one type. -/
theorem inferAssignment_ok {target value target' value' : Expr} :
    inferAssignment env p target value = .ok (target', value') ↔
      Assignable target ∧
        ∃ t, infer env target = .ok (t, target') ∧ infer env value = .ok (t, value') := by
  have sides : (do
      let left ← infer env target
      let right ← infer env value
      if left.1 = right.1 then return (left.2, right.2)
      else throw ⟨.assignment right.1 left.1, p⟩ :
        Except TypeError (Expr × Expr)) = .ok (target', value') ↔
      ∃ t, infer env target = .ok (t, target') ∧ infer env value = .ok (t, value') := by
    simp only [Except.bind_eq_ok]
    constructor
    · rintro ⟨⟨t, e⟩, left, ⟨u, e'⟩, right, ran⟩
      split at ran
      · rename_i same
        simp only at same
        subst same
        simp only [Except.pure_eq_ok, Prod.mk.injEq] at ran
        obtain ⟨rfl, rfl⟩ := ran
        exact ⟨t, left, right⟩
      · simp at ran
    · rintro ⟨t, left, right⟩
      exact ⟨_, left, _, right, by simp⟩
  rw [← sides]
  unfold inferAssignment
  split
  · rename_i q name same
    exact ⟨fun ran => ⟨.inl ⟨q, name, same⟩, ran⟩, And.right⟩
  · rename_i q a i same
    exact ⟨fun ran => ⟨.inr ⟨q, a, i, same⟩, ran⟩, And.right⟩
  · rename_i noIdent noIndex
    simp only [Except.bind_eq_ok, Except.not_throw_eq_ok, false_and, exists_false, false_iff, not_and]
    rintro (⟨q, name, same⟩ | ⟨q, a, i, same⟩)
    · exact absurd same (noIdent q name)
    · exact absurd same (noIndex q a i)

theorem inferIteration_ok {elem : Ty} {array array' : Expr} :
    inferIteration env p elem name array = .ok array' ↔
      ∃ t, infer env array = .ok (t, array') ∧ t.elem? = some elem := by
  simp only [inferIteration, Except.bind_eq_ok]
  constructor
  · rintro ⟨⟨t, e⟩, typed, ran⟩
    split at ran
    · simp at ran
    · rename_i u elems
      split at ran
      · rename_i same
        subst same
        simp only [Except.pure_eq_ok] at ran
        exact ⟨t, ran ▸ typed, elems⟩
      · simp at ran
  · rintro ⟨t, typed, elems⟩
    exact ⟨_, typed, by simp [elems]⟩

theorem inferReturn_ok {value value' : Expr} :
    inferReturn env p value = .ok value' ↔
      env.currentType.ret ≠ Ty.void ∧ infer env value = .ok (env.currentType.ret, value') := by
  simp only [inferReturn]
  split
  · rename_i void
    simp [void, Except.bind_eq_ok]
  · rename_i some
    simp only [ne_eq, some, not_false_eq_true, true_and]
    exact infer_typed (g := fun t => ⟨.returned env.current env.currentType.ret t, p⟩)

theorem inferEffect_ok {e e' : Expr} :
    inferEffect env p e = .ok e' ↔ infer env e = .ok (Ty.void, e') :=
  infer_typed (g := fun t => ⟨.unusedValue t, p⟩)

theorem checkCounter_ok {u : Unit} :
    checkCounter env p name = .ok u ↔ env.context.lookup name = some Ty.int := by
  simp only [checkCounter, Except.bind_eq_ok, Env.typeOf_ok]
  constructor
  · rintro ⟨t, known, ran⟩
    split at ran
    · rename_i same
      rwa [same] at known
    · simp at ran
  · intro known
    exact ⟨_, known, by simp⟩

/-- A check in a scope that it opened closes it again. -/
theorem leave_withScope {α : Type} {r : Checked α} {Δ : Scope} (ended : r.stop = none)
    (left : r.env = env.withScope Δ) : r.leave.env = env := by
  rw [r.leave_env ended, left, Env.withScope_leave]

/-! ## Functions and programs -/

/-- Parameters have distinct names, which are new in their scope. -/
theorem declareParams_ok : ∀ (ps : List Param) {env env' : Env} {Δ : Scope},
    declareParams (env.withScope Δ) ps = .ok env' ↔
      (ps.map Param.name).Nodup ∧ (∀ q ∈ ps, Δ.lookup q.name = none) ∧
        env' = env.withScope ((ps.map fun q => (q.name, q.type)).reverse ++ Δ)
  | [], env, env', Δ => by
    rw [declareParams, Except.ok.injEq]
    simp only [List.map_nil, List.nodup_nil, List.not_mem_nil, false_imp_iff, implies_true,
      List.reverse_nil, List.nil_append, true_and]
    exact eq_comm
  | q :: rest, env, env', Δ => by
    rw [declareParams]
    cases first : (env.withScope Δ).declare q.name q.type q.pos with
    | error stop =>
      simp only [reduceCtorEq, List.mem_cons, forall_eq_or_imp, false_iff, not_and]
      intro _ new
      rw [Env.declare_ok.2 ⟨new.1, rfl⟩] at first
      cases first
    | ok env₁ =>
      obtain ⟨new, rfl⟩ := Env.declare_ok.1 first
      dsimp only
      rw [declareParams_ok rest]
      simp only [List.map_cons, List.nodup_cons, List.mem_map, not_exists, not_and, List.mem_cons,
        forall_eq_or_imp, List.reverse_cons, List.append_assoc, List.singleton_append]
      constructor
      · rintro ⟨distinct, others, rfl⟩
        refine ⟨⟨fun r member same => ?_, distinct⟩, ⟨new, fun r member => ?_⟩, rfl⟩
        · have := others r member
          rw [same, List.lookup_cons, beq_self_eq_true] at this
          cases this
        · have := others r member
          rw [List.lookup_cons] at this
          split at this
          · cases this
          · exact this
      · rintro ⟨⟨other, distinct⟩, ⟨-, others⟩, rfl⟩
        refine ⟨distinct, fun r member => ?_, rfl⟩
        rw [List.lookup_cons, beq_false_of_ne (other r member)]
        exact others r member

end Typing

/-- The environment in which the body of a function is checked, around the scope of its
parameters. -/
def Env.inFunction (env : Env) (f : FuncDef) : Env :=
  { env with current := f.name, currentType := f.signature }

namespace Typing

variable {env : Env} {f : FuncDef}

def checkBody (env : Env) (f : FuncDef) : Checked (List Stmt) :=
  checkStmts ((env.inFunction f).withScope (paramContext f)) f.body

theorem enterFunction_eq (known : env.signatures.lookup f.name = some f.signature) :
    env.enterFunction f.name f.pos = .ok (env.inFunction f) := by
  simp [Env.enterFunction, Env.signatureOf, known, Env.inFunction]

theorem declareParams_function {env' : Env} :
    declareParams env.enter f.params = .ok env' ↔
      (f.params.map Param.name).Nodup ∧ env' = env.withScope (paramContext f) := by
  rw [Env.enter_eq, declareParams_ok]
  simp [paramContext]

/-- When a function is not refused, and what it becomes. -/
theorem checkFunction_ok (known : env.signatures.lookup f.name = some f.signature) :
    (checkFunction env f).stop = none ↔ (f.params.map Param.name).Nodup ∧
      (checkBody env f).stop = none ∧ (f.ret ≠ Ty.void → Stmt.anyReturns f.body = true) := by
  unfold checkFunction
  rw [enterFunction_eq known]
  dsimp only
  cases declared : declareParams (env.inFunction f).enter f.params with
  | error stop =>
    simp only [reduceCtorEq, false_iff, not_and]
    intro names
    rw [declareParams_function.2 ⟨names, rfl⟩] at declared
    cases declared
  | ok env₁ =>
    obtain ⟨names, rfl⟩ := declareParams_function.1 declared
    have body : checkStmts ((env.inFunction f).withScope (paramContext f)) f.body =
      checkBody env f := rfl
    simp only [names, true_and, body, Checked.map_stop, Checked.leave_stop]
    cases ended : (checkBody env f).stop with
    | some stop => simp [ended]
    | none =>
      dsimp only
      split
      · rename_i missing
        simp_all [Checked.failed]
      · rename_i fine
        simp_all

/-- A function that is accepted only has its body changed. -/
theorem checkFunction_done (known : env.signatures.lookup f.name = some f.signature)
    (ended : (checkFunction env f).stop = none) :
    (checkFunction env f).tree = { f with body := (checkBody env f).tree } ∧
      (checkFunction env f).env = (checkBody env f).env.leave := by
  obtain ⟨names, ended', returns⟩ := (checkFunction_ok known).1 ended
  unfold checkFunction
  rw [enterFunction_eq known]
  dsimp only
  rw [declareParams_function.2 ⟨names, rfl⟩]
  have body : checkStmts ((env.inFunction f).withScope (paramContext f)) f.body = checkBody env f := rfl
  simp only [body, Checked.map_stop, Checked.leave_stop, ended']
  rw [if_neg (by simpa using returns)]
  simp [Checked.leave_env _ ended']

/-- Functions have distinct names, and no parameter is void. -/
theorem declareFunctions_ok : ∀ (fs : List FuncDef) {env env' : Env},
    declareFunctions env fs = .ok env' ↔ (∀ f ∈ fs, ∀ q ∈ f.params, q.type ≠ Ty.void) ∧
      (fs.map FuncDef.name).Nodup ∧ (∀ f ∈ fs, env.signatures.lookup f.name = none) ∧
      env' = { env with
        signatures := (fs.map fun f => (f.name, f.signature)).reverse ++ env.signatures }
  | [], env, env' => by
    rw [declareFunctions, Except.ok.injEq]
    simp only [List.not_mem_nil, false_imp_iff, implies_true, List.map_nil, List.nodup_nil,
      List.reverse_nil, List.nil_append, true_and]
    exact eq_comm
  | f :: rest, env, env' => by
    rw [declareFunctions]
    simp only [List.forall_mem_cons, List.map_cons, List.nodup_cons, List.reverse_cons,
      List.append_assoc, List.singleton_append]
    cases void : f.params.find? fun q => q.type == Ty.void with
    | some q =>
      simp only [reduceCtorEq, false_iff, not_and]
      rintro ⟨some, -⟩
      exact absurd (by simpa using List.find?_some void) (some q (List.mem_of_find?_eq_some void))
    | none =>
      have params : ∀ q ∈ f.params, q.type ≠ Ty.void := by simpa using void
      simp only [Env.addFunction]
      cases known : env.signatures.lookup f.name with
      | some s => simp
      | none =>
        simp only [Option.isSome_none, Bool.false_eq_true, if_false]
        rw [declareFunctions_ok rest]
        simp only [true_and]
        constructor
        · rintro ⟨others, distinct, new, rfl⟩
          refine ⟨⟨params, others⟩, ⟨fun member => ?_, distinct⟩, fun g member => ?_, rfl⟩
          · obtain ⟨g, member, same⟩ := List.mem_map.1 member
            have := new g member
            rw [same, List.lookup_cons, beq_self_eq_true] at this
            cases this
          · have := new g member
            rw [List.lookup_cons] at this
            split at this
            · cases this
            · exact this
        · rintro ⟨⟨-, others⟩, ⟨other, distinct⟩, new, rfl⟩
          refine ⟨others, distinct, fun g member => ?_, rfl⟩
          have ne : g.name ≠ f.name := fun same => other (List.mem_map.2 ⟨g, member, same⟩)
          rw [List.lookup_cons, beq_false_of_ne ne]
          exact new g member

theorem lookup_eq_none {l : Signatures} {name : Text} :
    l.lookup name = none ↔ name ∉ l.map Prod.fst := by
  rw [List.lookup_eq_none_iff]
  constructor
  · intro other member
    obtain ⟨r, known, same⟩ := List.mem_map.1 member
    exact bne_iff_ne.1 (other r known) same.symm
  · intro new r member
    exact bne_iff_ne.2 fun same => new (List.mem_map.2 ⟨r, member, same.symm⟩)

/-- When the functions of a program can be made known, and the environment that knows
them. -/
theorem globalEnv_ok {p : Program} {env : Env} :
    globalEnv p = .ok env ↔ (∀ f ∈ p.functions, ∀ q ∈ f.params, q.type ≠ Ty.void) ∧
      (p.functions.map FuncDef.name).Nodup ∧ (∀ f ∈ p.functions, f.name ∉ builtins.map Prod.fst) ∧
      (∃ f ∈ p.functions, f.name = "main") ∧ env = { Env.empty with signatures := p.signatures } := by
  have main : p.signatures.lookup ("main" : Text) ≠ none ↔ ∃ f ∈ p.functions, f.name = "main" := by
    have builtin : builtins.lookup ("main" : Text) = none := by decide
    rw [Program.signatures, List.lookup_append, builtin, Option.or_none, ne_eq, lookup_eq_none,
      List.map_reverse, List.mem_reverse, List.map_map, List.mem_map, not_not]
    rfl
  simp only [globalEnv, Except.bind_eq_ok, declareFunctions_ok]
  constructor
  · rintro ⟨_, ⟨params, distinct, new, rfl⟩, ran⟩
    split at ran
    · simp at ran
    · rename_i s known
      cases ran
      have known' : p.signatures.lookup ("main" : Text) ≠ none := by
        rw [show p.signatures.lookup ("main" : Text) = some s from known]
        simp
      exact ⟨params, distinct, fun f member => lookup_eq_none.1 (new f member), main.1 known', rfl⟩
  · rintro ⟨params, distinct, own, present, rfl⟩
    refine ⟨_, ⟨params, distinct, fun f member => lookup_eq_none.2 (own f member), rfl⟩, ?_⟩
    split
    · rename_i missing
      exact absurd missing (main.2 present)
    · rfl

/-- Functions with names of their own are known by their signatures. -/
theorem signatures_lookup {p : Program} (distinct : (p.functions.map FuncDef.name).Nodup)
    {f : FuncDef} (member : f ∈ p.functions) : p.signatures.lookup f.name = some f.signature := by
  have keyed : Assoc.Keyed (p.functions.map fun f => (f.name, f.signature)).reverse := by
    rw [Assoc.Keyed, List.map_reverse, List.map_map]
    exact List.pairwise_reverse.2 (distinct.imp Ne.symm)
  have known := keyed.lookup_iff.2 (List.mem_reverse.2 (List.mem_map.2 ⟨f, member, rfl⟩))
  rw [Program.signatures, List.lookup_append, known]
  rfl

end Typing

end ImpCompiler
