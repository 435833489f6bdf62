import ImpCompiler.Proofs.Typing.Erasure

/-!
# Proofs.Typing.Sound — what is checked is well typed

A check that does not stop answers with a well typed tree. For expressions this
follows the recursion of `infer`; a chain of indices is typed once the number of its
indices is known to be no more than the dimensions of its array. Behind a statement
nothing but the scope it is in has changed.
-/

namespace ImpCompiler

set_option autoImplicit false

namespace Typing

variable {env : Env}

/-! ## Expressions -/

/-- The indices of a chain are well typed if they are no more than the dimensions of
its array. -/
def Chain.Sound (env : Env) (c : Chain) : Prop :=
  c.indices ≤ c.array.dims →
    HasType env.signatures env.context c.tree ⟨c.array.base, c.array.dims - c.indices⟩

theorem Chain.nextType_eq (c : Chain) :
    c.nextType = ⟨c.array.base, c.array.dims - (c.indices + 1)⟩ := by
  simp only [nextType, Ty.arrayOf, Ty.scalar, Ty.mk.injEq, true_and]
  omega

theorem Chain.apply_sound {c : Chain} {p : Pos} {i : Expr} (sound : c.Sound env)
    (int : HasType env.signatures env.context i Ty.int) : (c.apply p i).Sound env := by
  intro enough
  simp only [apply] at enough
  simp only [apply, nextType_eq]
  refine .typed (.index ?_ (sound (by omega)) int)
  obtain ⟨k, more⟩ : ∃ k, c.array.dims - c.indices = k + 1 := ⟨c.array.dims - c.indices - 1, by omega⟩
  have fewer : c.array.dims - (c.indices + 1) = k := by omega
  simp [Ty.elem?, more, fewer]

theorem Chain.ofTyped_sound {t : Ty} {e : Expr} (typed : HasType env.signatures env.context e t) :
    (Chain.ofTyped (t, e)).Sound env :=
  fun _ => typed

mutual

/-- The annotated expression has the inferred type. -/
theorem infer_sound : ∀ (e : Expr) {t : Ty} {e' : Expr}, infer env e = .ok (t, e') →
    HasType env.signatures env.context e' t
  | .typed x _, _, _, ran => by
    rw [infer] at ran
    exact infer_sound x ran
  | .int .., _, _, ran => by
    cases ran
    exact .typed .int
  | .double .., _, _, ran => by
    cases ran
    exact .typed .double
  | .bool .., _, _, ran => by
    cases ran
    exact .typed .bool
  | .string .., _, _, ran => by
    cases ran
    exact .typed .string
  | .ident .., _, _, ran => by
    obtain ⟨known, rfl⟩ := infer_ident_ok.1 ran
    exact .typed (.ident known)
  | .unary _ _ x, _, _, ran => by
    obtain ⟨x', operand, accepts, rfl⟩ := infer_unary_ok.1 ran
    exact .typed (.unary accepts (infer_sound x operand))
  | .binary _ _ x y, _, _, ran => by
    obtain ⟨u, x', y', left, right, accepts, rfl, rfl⟩ := infer_binary_ok.1 ran
    exact .typed (.binary accepts (infer_sound x left) (infer_sound y right))
  | .call _ _ args, _, _, ran => by
    obtain ⟨s, args', known, arity, arguments, rfl, rfl⟩ := infer_call_ok.1 ran
    exact .typed (.call known (inferArguments_sound args arity arguments))
  | .length _ x _, _, _, ran => by
    obtain ⟨u, x', array, isArray, member, rfl, rfl⟩ := infer_length_ok.1 ran
    exact .typed (.length isArray member (infer_sound x array))
  | .index _ x i, _, _, ran => by
    obtain ⟨i', c, index, chain, enough, rfl, rfl⟩ := infer_index_ok.1 ran
    exact Chain.apply_sound (inferChain_sound x chain) (infer_sound i index) enough
  | .new _ _ sizes, _, _, ran => by
    obtain ⟨sizes', some, constructible, ints, rfl, rfl⟩ := infer_new_ok.1 ran
    obtain ⟨typed, length⟩ := inferSizes_sound sizes ints
    rw [← length] at some ⊢
    exact .typed (.new constructible (by simpa using some) typed)
termination_by e => (sizeOf e, 0)

theorem inferChain_sound : ∀ (e : Expr) {c : Chain}, inferChain env e = .ok c → c.Sound env
  | .typed x _, _, ran => by
    rw [inferChain] at ran
    exact inferChain_sound x ran
  | .index _ x i, _, ran => by
    obtain ⟨i', d, index, chain, rfl⟩ := inferChain_index_ok.1 ran
    exact Chain.apply_sound (inferChain_sound x chain) (infer_sound i index)
  | .ident .., _, ran | .call .., _, ran | .new .., _, ran => by
    obtain ⟨t, e', typed, rfl⟩ := (inferChain_base_ok rfl).1 ran
    exact Chain.ofTyped_sound (infer_sound _ typed)
  | .int .., _, ran | .double .., _, ran | .bool .., _, ran | .string .., _, ran
  | .unary .., _, ran | .binary .., _, ran | .length .., _, ran => by
    simp [inferChain] at ran
termination_by e => (sizeOf e, 1)

theorem inferArguments_sound : ∀ (es : List Expr) {name : Text} {k : Nat} {ts : List Ty}
    {es' : List Expr}, ts.length = es.length → inferArguments env name k ts es = .ok es' →
    HasTypes env.signatures env.context es' ts
  | [], _, _, ts, _, same, ran => by
    cases List.eq_nil_of_length_eq_zero same
    cases ran
    exact .nil
  | e :: es, _, _, ts, _, same, ran => by
    obtain ⟨t, ts, rfl⟩ := List.exists_cons_of_length_eq_add_one same
    obtain ⟨e₁, es₁, first, rest, rfl⟩ := inferArguments_cons_ok.1 ran
    exact .cons (infer_sound e first) (inferArguments_sound es (Nat.succ.inj same) rest)
termination_by es => (sizeOf es, 0)

theorem inferSizes_sound : ∀ (es : List Expr) {es' : List Expr}, inferSizes env es = .ok es' →
    HasTypes env.signatures env.context es' (List.replicate es'.length Ty.int) ∧
      es'.length = es.length
  | [], _, ran => by
    cases ran
    exact ⟨.nil, rfl⟩
  | e :: es, _, ran => by
    obtain ⟨e₁, es₁, first, rest, rfl⟩ := inferSizes_cons_ok.1 ran
    obtain ⟨typed, length⟩ := inferSizes_sound es rest
    exact ⟨.cons (infer_sound e first) typed, by simp [length]⟩
termination_by es => (sizeOf es, 0)

end

/-! ## Statements -/

theorem inferInit_sound {t : Ty} {item item' : DeclItem} (ran : inferInit env t item = .ok item') :
    item'.name = item.name ∧
      ∀ e, item'.init = some e → HasType env.signatures env.context e t := by
  cases init : item.init with
  | none =>
    rw [inferInit_none init] at ran
    cases ran
    exact ⟨rfl, by simp [init]⟩
  | some e =>
    obtain ⟨e', typed, rfl⟩ := (inferInit_some init).1 ran
    refine ⟨rfl, fun e'' start => ?_⟩
    cases start
    exact infer_sound e typed

/-- What stands for an assignable target is assignable. -/
theorem infer_assignable {e e' : Expr} {t : Ty} (assignable : Assignable e)
    (ran : infer env e = .ok (t, e')) : Assignable e' := by
  rw [← infer_strip] at ran
  rcases assignable with ⟨p, name, same⟩ | ⟨p, a, i, same⟩
  · simp only [same, infer, annotate, Except.bind_eq_ok, Except.pure_eq_ok, Prod.mk.injEq] at ran
    obtain ⟨u, -, -, rfl⟩ := ran
    exact .inl ⟨p, name, rfl⟩
  · simp only [same, infer, Except.bind_eq_ok] at ran
    obtain ⟨⟨u, i'⟩, -, ran⟩ := ran
    split at ran
    · simp [Except.bind_eq_ok] at ran
    · simp only [Except.bind_eq_ok] at ran
      obtain ⟨c, -, ran⟩ := ran
      split at ran
      · simp at ran
      · simp only [Except.pure_eq_ok, Prod.mk.injEq] at ran
        obtain ⟨-, rfl⟩ := ran
        exact .inr ⟨p, c.tree, i', rfl⟩

end Typing

namespace Checked

variable {α β : Type} {env : Env} {Δ : Scope} {r : Checked α} {P : α → Scope → Prop} {Q : β → Scope → Prop}

/-- A check that did not stop left a scope on top of `env`, and `P` holds of its tree and that
scope. -/
def Passes (r : Checked α) (env : Env) (P : α → Scope → Prop) : Prop :=
  r.stop = none → ∃ Δ, r.env = env.withScope Δ ∧ P r.tree Δ

namespace Passes

theorem of_done {tree : α} (holds : P tree Δ) : (Checked.done (env.withScope Δ) tree).Passes env P :=
  fun _ => ⟨Δ, rfl, holds⟩

theorem of_stop {stop : Stop} (stopped : r.stop = some stop) : r.Passes env P := by
  intro ended
  rw [stopped] at ended
  cases ended

theorem map {h : α → β} (passes : r.Passes env P) (holds : ∀ {tree Δ}, P tree Δ → Q (h tree) Δ) :
    (r.map h).Passes env Q := by
  intro ended
  obtain ⟨Δ, left, inner⟩ := passes ended
  exact ⟨Δ, left, holds inner⟩

/-- Behind a scope of its own there is the scope around it. -/
theorem leave (passes : r.Passes (env.withScope Δ) P) :
    r.leave.Passes env fun tree Δ' => Δ' = Δ ∧ ∃ inner, P tree inner := by
  intro ended
  rw [leave_stop] at ended
  obtain ⟨Δ', left, inner⟩ := passes ended
  exact ⟨Δ, Typing.leave_withScope ended left, rfl, Δ', by rwa [leave_tree]⟩

theorem nested {h : α → β} (passes : r.Passes (env.withScope Δ) P)
    (holds : ∀ {tree inner}, P tree inner → Q (h tree) Δ) : (r.leave.map h).Passes env Q := by
  refine passes.leave.map ?_
  rintro tree _ ⟨rfl, _, inner⟩
  exact holds inner

end Passes

end Checked

namespace Typing

variable {env : Env}

theorem checkItems_sound {t : Ty} : ∀ (items : List DeclItem) {Δ : Scope},
    (checkItems (env.withScope Δ) t items).Passes env
      (Introduces (HasType env.signatures) t env.context Δ)
  | [], Δ => .of_done .nil
  | item :: rest, Δ => by
    rw [checkItems]
    cases started : inferInit (env.withScope Δ) t item with
    | error e => exact .of_stop rfl
    | ok item' =>
      cases declared : (env.withScope Δ).declare item.name t item.pos with
      | error stop => exact .of_stop rfl
      | ok env' =>
        obtain ⟨new, rfl⟩ := Env.declare_ok.1 declared
        obtain ⟨same, start⟩ := inferInit_sound started
        refine (checkItems_sound rest).map fun others => .cons start (same ▸ new) ?_
        rw [same]
        exact others

/-- The statement is well typed in its scope, if its check does not stop. -/
def IsSound (env : Env) (Δ : Scope) (s : Stmt) : Prop :=
  (checkStmt (env.withScope Δ) s).Passes env
    (Admits (HasType env.signatures) env.currentType.ret env.context Δ)

section Nested

variable {Δ : Scope} {p : Pos} {c : Expr} {yes no body : Stmt}

theorem ifThen_sound (inner : IsSound (env.withScope Δ) [] yes) : IsSound env Δ (.ifThen p c yes) := by
  rw [IsSound, checkStmt]
  cases ran : inferCondition (env.withScope Δ) c with
  | error e => exact .of_stop rfl
  | ok c' => exact inner.nested fun inner => .ifThen (infer_sound c (inferCondition_ok.1 ran)) inner

/-- The second branch is checked in the scope that the first one left as it was. -/
theorem ifElse_sound (first : IsSound (env.withScope Δ) [] yes) (second : IsSound (env.withScope Δ) [] no) :
    IsSound env Δ (.ifElse p c yes no) := by
  rw [IsSound, checkStmt]
  cases ran : inferCondition (env.withScope Δ) c with
  | error e => exact .of_stop rfl
  | ok c' =>
    have cond := infer_sound c (inferCondition_ok.1 ran)
    dsimp only
    split
    · rename_i stop stopped
      exact .of_stop stopped
    · rename_i ended
      simp only [Env.enter_eq] at ended ⊢
      obtain ⟨_, left, rfl, _, inner⟩ := first.leave ended
      rw [left]
      exact second.nested fun inner' => .ifElse cond inner inner'

theorem while_sound (inner : IsSound (env.withScope Δ) [] body) : IsSound env Δ (.while p c body) := by
  rw [IsSound, checkStmt]
  cases ran : inferCondition (env.withScope Δ) c with
  | error e => exact .of_stop rfl
  | ok c' => exact inner.nested fun inner => .while (infer_sound c (inferCondition_ok.1 ran)) inner

theorem forEach_sound {elem : Ty} {name : Text} {array : Expr}
    (inner : IsSound ((env.withScope Δ).withScope [(name, elem)]) [] body) :
    IsSound env Δ (.forEach p elem name array body) := by
  rw [IsSound, checkStmt]
  cases ran : inferIteration (env.withScope Δ) p elem name array with
  | error e => exact .of_stop rfl
  | ok array' =>
    dsimp only
    cases declared : (env.withScope Δ).enter.declare name elem p with
    | error stop => exact .of_stop rfl
    | ok env' =>
      obtain ⟨-, rfl⟩ := Env.declare_ok.1 declared
      obtain ⟨t, whole, elems⟩ := inferIteration_ok.1 ran
      refine inner.leave.nested ?_
      rintro _ _ ⟨rfl, _, inner⟩
      exact .forEach (infer_sound array whole) elems inner

end Nested

mutual

/-- A statement that is checked is well typed. -/
theorem checkStmt_sound : ∀ (s : Stmt) {env : Env} {Δ : Scope}, IsSound env Δ s
  | .block p body, _, _ => by
    rw [IsSound, checkStmt]
    exact (checkStmts_sound body).nested fun inner => .block inner
  | .decl p t items, _, _ => by
    rw [IsSound, checkStmt]
    split
    · exact .of_stop rfl
    · rename_i some
      exact (checkItems_sound items).map fun introduces => .decl some introduces
  | .assign p target value, env, Δ => by
    rw [IsSound, checkStmt]
    cases ran : inferAssignment (env.withScope Δ) p target value with
    | error e => exact .of_stop rfl
    | ok both =>
      obtain ⟨assignable, t, left, right⟩ := inferAssignment_ok.1 ran
      exact .of_done (.assign (infer_assignable assignable left) (infer_sound target left)
        (infer_sound value right))
  | .incr p name decrement, env, Δ => by
    rw [IsSound, checkStmt]
    cases ran : checkCounter (env.withScope Δ) p name with
    | error e => exact .of_stop rfl
    | ok u => exact .of_done (.incr (checkCounter_ok.1 ran))
  | .ifThen _ _ yes, _, _ => ifThen_sound (checkStmt_sound yes)
  | .ifElse _ _ yes no, _, _ => ifElse_sound (checkStmt_sound yes) (checkStmt_sound no)
  | .while _ _ body, _, _ => while_sound (checkStmt_sound body)
  | .forEach _ _ _ _ body, _, _ => forEach_sound (checkStmt_sound body)
  | .ret p value, env, Δ => by
    rw [IsSound, checkStmt]
    cases ran : inferReturn (env.withScope Δ) p value with
    | error e => exact .of_stop rfl
    | ok value' =>
      obtain ⟨some, answer⟩ := inferReturn_ok.1 ran
      exact .of_done (.ret some (infer_sound value answer))
  | .retVoid p, _, _ => by
    rw [IsSound, checkStmt]
    split
    · rename_i none
      exact .of_done (.retVoid none)
    · exact .of_stop rfl
  | .expr p e, env, Δ => by
    rw [IsSound, checkStmt]
    cases ran : inferEffect (env.withScope Δ) p e with
    | error e => exact .of_stop rfl
    | ok e' => exact .of_done (.expr (infer_sound e (inferEffect_ok.1 ran)))
  | .empty p, _, _ => .of_done .empty

theorem checkStmts_sound : ∀ (ss : List Stmt) {env : Env} {Δ : Scope},
    (checkStmts (env.withScope Δ) ss).Passes env
      (AdmitsAll (HasType env.signatures) env.currentType.ret env.context Δ)
  | [], _, _ => .of_done .nil
  | s :: rest, env, Δ => by
    rw [checkStmts]
    split
    · rename_i stop stopped
      exact .of_stop stopped
    · rename_i ended
      obtain ⟨Δ', left, inner⟩ := checkStmt_sound s ended
      rw [left]
      exact (checkStmts_sound rest).map fun others => .cons inner others

end

/-! ## Functions and programs -/

/-- A function that is checked is well typed. -/
theorem checkFunction_sound {f : FuncDef} (closed : env.scopes = [])
    (known : env.signatures.lookup f.name = some f.signature)
    (params : ∀ q ∈ f.params, q.type ≠ Ty.void) (ended : (checkFunction env f).stop = none) :
    AdmitsFunction (HasType env.signatures) (checkFunction env f).tree ∧
      (checkFunction env f).env = env.inFunction f := by
  obtain ⟨names, ended', returns⟩ := (checkFunction_ok known).1 ended
  obtain ⟨tree, env'⟩ := checkFunction_done known ended
  obtain ⟨Δ, left, all⟩ := checkStmts_sound f.body ended'
  rw [tree, env']
  refine ⟨⟨params, names, ⟨Δ, ?_⟩, fun some => ?_⟩, ?_⟩
  · have none : (env.inFunction f).context = [] := by simp [Env.context, Env.inFunction, closed]
    rwa [none] at all
  · have same := Stmt.anyReturns_eraseAll (checkBody env f).tree
    rw [checkBody, checkStmts_erase, Stmt.anyReturns_eraseAll, returns some] at same
    exact (anyReturns_iff _).1 same.symm
  · rw [checkBody, left, Env.withScope_leave]

theorem checkFunctions_sound : ∀ (fs : List FuncDef) {env : Env}, env.scopes = [] →
    (∀ f ∈ fs, env.signatures.lookup f.name = some f.signature) →
    (∀ f ∈ fs, ∀ q ∈ f.params, q.type ≠ Ty.void) → (checkFunctions env fs).2 = none →
    ∀ f ∈ (checkFunctions env fs).1, AdmitsFunction (HasType env.signatures) f
  | [], _, _, _, _, _ => by simp [checkFunctions]
  | f :: rest, env, closed, known, params, checked => by
    rw [checkFunctions] at checked ⊢
    cases first : (checkFunction env f).stop with
    | some stop => simp [first] at checked
    | none =>
      simp only [first] at checked ⊢
      obtain ⟨fits, left⟩ :=
        checkFunction_sound closed (known f (by simp)) (params f (by simp)) first
      rw [left] at checked ⊢
      have all := checkFunctions_sound rest (show (env.inFunction f).scopes = [] from closed)
        (fun g member => known g (by simp [member]))
        (fun g member => params g (by simp [member])) checked
      exact List.forall_mem_cons.2 ⟨fits, all⟩

end Typing

/-- A program that is not refused is well typed. -/
theorem Program.check_admits {p : Program} (checked : p.check.2 = none) :
    Typing.AdmitsProgram (Typing.HasType p.signatures) p.check.1 := by
  have names := Program.map_of_erase p.check_erase FuncDef.name fun _ => rfl
  unfold check at checked names ⊢
  cases global : Typing.globalEnv p with
  | error e => simp [global] at checked
  | ok env =>
    simp only [global] at checked names ⊢
    obtain ⟨params, distinct, own, main, rfl⟩ := Typing.globalEnv_ok.1 global
    have fits := Typing.checkFunctions_sound p.functions rfl
      (fun f member => Typing.signatures_lookup distinct member) params checked
    have named : ∀ name, name ∈ p.functions.map FuncDef.name ↔ ∃ f ∈ p.functions, f.name = name := by
      simp
    refine ⟨names ▸ distinct, fun f member => ?_, ?_, fits⟩
    · obtain ⟨g, known, same⟩ := (named f.name).1 (names ▸ List.mem_map_of_mem member)
      exact same ▸ own g known
    · have present := (named "main").2 main
      rw [← names] at present
      simpa using present

namespace Typing

/-! ## Without scopes -/

variable {σ : Signatures} {ret : Ty}

theorem Introduces.declares {t : Ty} {Γ : Context} {Δ Δ' : Scope} {items : List DeclItem}
    (introduces : Introduces (HasType σ) t Γ Δ items Δ') : Declares σ t (Δ ++ Γ) items (Δ' ++ Γ) := by
  induction introduces with
  | nil => exact .nil
  | cons start _ _ ih => exact .cons start ih

mutual

/-- An admitted statement is well typed where it does not matter which scope a variable
is in. -/
theorem Admits.fits {Γ : Context} {Δ Δ' : Scope} {s : Stmt} (admits : Admits (HasType σ) ret Γ Δ s Δ') :
    Fits σ ret (Δ ++ Γ) s (Δ' ++ Γ) := by
  match admits with
  | .block inner => exact .block inner.fits
  | .decl value introduces => exact .decl value introduces.declares
  | .assign assignable left right => exact .assign assignable left right
  | .incr known => exact .incr known
  | .ifThen cond inner => exact .ifThen cond inner.fits
  | .ifElse cond inner inner' => exact .ifElse cond inner.fits inner'.fits
  | .while cond inner => exact .while cond inner.fits
  | .forEach whole elems inner => exact .forEach whole elems inner.fits
  | .ret value answer => exact .ret value answer
  | .retVoid void => exact .retVoid void
  | .expr effect => exact .expr effect
  | .empty => exact .empty

theorem AdmitsAll.fits {Γ : Context} {Δ Δ' : Scope} {ss : List Stmt}
    (admits : AdmitsAll (HasType σ) ret Γ Δ ss Δ') : FitsAll σ ret (Δ ++ Γ) ss (Δ' ++ Γ) := by
  match admits with
  | .nil => exact .nil
  | .cons first others => exact .cons first.fits others.fits

end

theorem AdmitsFunction.fits {f : FuncDef} (admits : AdmitsFunction (HasType σ) f) :
    FitsFunction σ f := by
  obtain ⟨Δ, all⟩ := admits.body
  have fits := all.fits
  rw [List.append_nil] at fits
  exact ⟨admits.params, _, fits⟩

end Typing

/-- A program that is not refused is well typed, and nothing but annotations changes. -/
theorem Program.check_sound {p q : Program} (checked : p.check = (q, none)) :
    ∃ σ, Typing.FitsProgram σ q ∧ q.erase = p.erase := by
  have same := p.check_erase
  have admits := Program.check_admits (show p.check.2 = none by rw [checked])
  rw [checked] at same admits
  refine ⟨p.signatures, ⟨fun f member => (admits.functions f member).fits, fun r member => ?_⟩, same⟩
  rw [← Program.signatures_of_erase same, Program.signatures, List.mem_append, List.mem_reverse,
    List.mem_map] at member
  rcases member with ⟨f, known, rfl⟩ | builtin
  · exact .inr ⟨f, known, rfl⟩
  · exact .inl builtin

end ImpCompiler
