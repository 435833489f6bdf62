import ImpCompiler.Proofs.Typing.Sound

/-!
# Proofs.Typing.Complete — what is well typed is not refused

A check of a well typed tree does not stop. The rules follow the tree, but a chain of
indices is checked as a whole: what has an array type is a variable, a call, a
construction or an element of one, so the chain of an array has a bottom, and its indices
are fewer than the dimensions there. With soundness this gives `check_wellTyped`, which
says what checking a program does.
-/

namespace ImpCompiler

set_option autoImplicit false

namespace Typing

variable {σ : Signatures} {Γ : Context}

theorem isConstructible_iff {b : Base} :
    b.isConstructible = true ↔ b ∈ [Base.int, .double, .boolean] := by
  cases b <;> simp [Base.isConstructible]

theorem elem?_eq_some {t u : Ty} : t.elem? = some u ↔ t.base = u.base ∧ t.dims = u.dims + 1 := by
  obtain ⟨b, n⟩ := t
  obtain ⟨c, m⟩ := u
  cases n <;> simp [Ty.elem?]

/-! ## Annotations -/

mutual

/-- The annotation of a well typed expression is the type that the rules give. -/
theorem HasType.derives {e : Expr} {t : Ty} (typed : HasType σ Γ e t) : Derives σ Γ e.erase t := by
  match typed with
  | .typed form => exact form.derives

/-- The rules for annotated expressions are those of the language. -/
theorem HasForm.derives {e : Expr} {t : Ty} (typed : HasForm σ Γ e t) : Derives σ Γ e.erase t := by
  match typed with
  | .int => exact .int
  | .double => exact .double
  | .bool => exact .bool
  | .string => exact .string
  | .ident known => exact .ident known
  | .unary accepts operand => exact .unary operand.derives (signs_iff.2 accepts)
  | .binary accepts left right =>
    exact .binary left.derives right.derives (operates_iff.2 ⟨accepts, rfl⟩)
  | .call known arguments => exact .call known arguments.derives
  | .index elem array index => exact .index array.derives index.derives elem
  | @HasForm.new _ _ _ _ sizes constructible nonempty ints =>
    have length : (Expr.eraseAll sizes).length = sizes.length := by
      rw [Expr.eraseAll_eq_map, List.length_map]
    rw [Expr.erase, ← length]
    refine .new (isConstructible_iff.1 constructible) (fun empty => nonempty ?_) ?_
    · rwa [← List.length_eq_zero_iff, length, List.length_eq_zero_iff] at empty
    · rw [length]
      exact ints.derives
  | .length isArray member array =>
    subst member
    exact .length array.derives isArray

theorem HasTypes.derives {es : List Expr} {ts : List Ty} (typed : HasTypes σ Γ es ts) :
    DerivesAll σ Γ (Expr.eraseAll es) ts := by
  match typed with
  | .nil => exact .nil
  | .cons first rest => exact .cons first.derives rest.derives

end

mutual

/-- A well typed expression and all expressions inside have one annotation each. -/
theorem HasType.annotated {e : Expr} {t : Ty} (typed : HasType σ Γ e t) :
    e.type? = some t ∧ e.Annotated (Derives σ Γ) := by
  match typed with
  | .typed form => exact ⟨rfl, form.derives, form.annotated⟩

/-- The annotations are types that the language gives. -/
theorem HasForm.annotated {e : Expr} {t : Ty} (typed : HasForm σ Γ e t) :
    e.PartsAnnotated (Derives σ Γ) := by
  match typed with
  | .int | .double | .bool | .string | .ident _ => trivial
  | .unary _ operand => exact operand.annotated.2
  | .binary _ left right => exact ⟨left.annotated.2, right.annotated.2⟩
  | .call _ arguments => exact arguments.annotated
  | .index _ array index => exact ⟨array.annotated.2, index.annotated.2⟩
  | .new _ _ ints => exact ints.annotated
  | .length _ _ array => exact array.annotated.2

theorem HasTypes.annotated {es : List Expr} {ts : List Ty} (typed : HasTypes σ Γ es ts) :
    Expr.AllAnnotated (Derives σ Γ) es := by
  match typed with
  | .nil => trivial
  | .cons first rest => exact ⟨first.annotated.2, rest.annotated⟩

end

/-! ## Expressions -/

theorem Signs.not_array {op : UnOp} {t : Ty} (signs : Signs op t) : t.isArray = false := by
  cases signs with
  | neg numeric =>
    simp only [List.mem_cons, List.not_mem_nil, or_false] at numeric
    rcases numeric with rfl | rfl <;> rfl
  | not => rfl

theorem Operates.not_array {op : BinOp} {t u : Ty} (operates : Operates op t u) :
    u.isArray = false := by
  cases operates with
  | arith _ numeric =>
    simp only [List.mem_cons, List.not_mem_nil, or_false] at numeric
    rcases numeric with rfl | rfl <;> rfl
  | mod | order | equality | logic => rfl

/-- The chain of an array of the type `t`. -/
structure Chain.Leads (c : Chain) (t : Ty) : Prop where
  indices : c.indices ≤ c.array.dims
  base : t.base = c.array.base
  dims : t.dims = c.array.dims - c.indices

/-- One more index leads to the elements. -/
theorem Chain.Leads.apply {c : Chain} {t u : Ty} (leads : c.Leads t) (elem : t.elem? = some u)
    (p : Pos) (i : Expr) : (c.apply p i).Leads u := by
  obtain ⟨base, dims⟩ := elem?_eq_some.1 elem
  have := leads.dims
  refine ⟨?_, base.symm.trans leads.base, ?_⟩
  · show c.indices + 1 ≤ c.array.dims
    omega
  · show u.dims = c.array.dims - (c.indices + 1)
    omega

theorem isArray_of_elem? {t u : Ty} (elem : t.elem? = some u) : t.isArray = true := by
  simp [Ty.isArray, (elem?_eq_some.1 elem).2]

section Expressions

variable (env : Env)

mutual

/-- Every expression that has a type is given it. -/
theorem infer_complete : ∀ (e : Expr) {t : Ty}, Derives env.signatures env.context e.erase t →
    ∃ e', infer env e = .ok (t, e')
  | .typed x _, _, derives => by
    rw [infer]
    exact infer_complete x derives
  | .int .., _, derives | .double .., _, derives | .bool .., _, derives | .string .., _, derives => by
    cases derives
    exact ⟨_, rfl⟩
  | .ident .., _, derives => by
    cases derives with
    | ident known => exact ⟨_, infer_ident_ok.2 ⟨known, rfl⟩⟩
  | .unary _ _ x, _, derives => by
    cases derives with
    | unary operand signs =>
      obtain ⟨x', ran⟩ := infer_complete x operand
      exact ⟨_, infer_unary_ok.2 ⟨x', ran, signs_iff.1 signs, rfl⟩⟩
  | .binary _ _ x y, _, derives => by
    cases derives with
    | binary left right operates =>
      obtain ⟨x', ran⟩ := infer_complete x left
      obtain ⟨y', ran'⟩ := infer_complete y right
      obtain ⟨accepts, result⟩ := operates_iff.1 operates
      exact ⟨_, infer_binary_ok.2 ⟨_, x', y', ran, ran', accepts, result, rfl⟩⟩
  | .call _ _ args, _, derives => by
    cases derives with
    | call known arguments =>
      obtain ⟨args', arity, ran⟩ := inferArguments_complete args arguments
      exact ⟨_, infer_call_ok.2 ⟨_, args', known, arity, ran, rfl, rfl⟩⟩
  | .length _ x _, _, derives => by
    cases derives with
    | length array isArray =>
      obtain ⟨x', ran⟩ := infer_complete x array
      exact ⟨_, infer_length_ok.2 ⟨_, x', ran, isArray, rfl, rfl, rfl⟩⟩
  | .index p x i, _, derives => by
    cases derives with
    | index array index elem =>
      obtain ⟨i', ran⟩ := infer_complete i index
      obtain ⟨c, chain, leads⟩ := inferChain_complete x array (isArray_of_elem? elem)
      obtain ⟨indices, base, dims⟩ := leads.apply elem p i'
      have type := congrArg₂ Ty.mk base dims
      exact ⟨_, infer_index_ok.2 ⟨i', c, ran, chain, indices, type, rfl⟩⟩
  | .new _ _ sizes, _, derives => by
    cases derives with
    | new base nonempty ints =>
      rw [Expr.eraseAll_eq_map, ne_eq, List.map_eq_nil_iff] at nonempty
      obtain ⟨sizes', ran⟩ := inferSizes_complete sizes ints
      rw [Expr.eraseAll_eq_map, List.length_map]
      exact ⟨_, infer_new_ok.2 ⟨sizes', by simpa using nonempty, isConstructible_iff.2 base, ran,
        rfl, rfl⟩⟩
termination_by e => (sizeOf e, 0)

/-- Every indexing of an array that has a type is accepted. -/
theorem inferChain_complete : ∀ (e : Expr) {t : Ty}, Derives env.signatures env.context e.erase t →
    t.isArray = true → ∃ c, inferChain env e = .ok c ∧ c.Leads t
  | .typed x _, _, derives, isArray => by
    rw [inferChain]
    exact inferChain_complete x derives isArray
  | .index p x i, _, derives, isArray => by
    cases derives with
    | index array index elem =>
      obtain ⟨i', ran⟩ := infer_complete i index
      obtain ⟨c, chain, leads⟩ := inferChain_complete x array (isArray_of_elem? elem)
      exact ⟨_, inferChain_index_ok.2 ⟨i', c, ran, chain, rfl⟩, leads.apply elem p i'⟩
  | .ident .., t, derives, _ | .call .., t, derives, _ | .new .., t, derives, _ => by
    obtain ⟨e', ran⟩ := infer_complete _ derives
    exact ⟨_, (inferChain_base_ok rfl).2 ⟨t, e', ran, rfl⟩, Nat.zero_le _, rfl, rfl⟩
  | .int .., _, derives, isArray | .double .., _, derives, isArray | .bool .., _, derives, isArray
  | .string .., _, derives, isArray | .length .., _, derives, isArray => by
    cases derives
    cases isArray
  | .unary .., _, derives, isArray => by
    cases derives with
    | unary _ signs => simp [signs.not_array] at isArray
  | .binary .., _, derives, isArray => by
    cases derives with
    | binary _ _ operates => simp [operates.not_array] at isArray
termination_by e => (sizeOf e, 1)

theorem inferArguments_complete : ∀ (es : List Expr) {name : Text} {k : Nat} {ts : List Ty},
    DerivesAll env.signatures env.context (Expr.eraseAll es) ts →
      ∃ es', ts.length = es.length ∧ inferArguments env name k ts es = .ok es'
  | [], _, _, _, derives => by
    cases derives
    exact ⟨_, rfl, rfl⟩
  | e :: es, _, _, _, derives => by
    cases derives with
    | cons first rest =>
      obtain ⟨e', ran⟩ := infer_complete e first
      obtain ⟨es', arity, ran'⟩ := inferArguments_complete es rest
      exact ⟨_, congrArg (· + 1) arity, inferArguments_cons_ok.2 ⟨e', es', ran, ran', rfl⟩⟩
termination_by es => (sizeOf es, 0)

theorem inferSizes_complete : ∀ (es : List Expr) {n : Nat},
    DerivesAll env.signatures env.context (Expr.eraseAll es) (List.replicate n Ty.int) →
      ∃ es', inferSizes env es = .ok es'
  | [], _, _ => ⟨_, rfl⟩
  | e :: es, n, derives => by
    cases n with
    | zero => cases derives
    | succ n =>
      cases derives with
      | cons first rest =>
        obtain ⟨e', ran⟩ := infer_complete e first
        obtain ⟨es', ran'⟩ := inferSizes_complete es rest
        exact ⟨_, inferSizes_cons_ok.2 ⟨e', es', ran, ran', rfl⟩⟩
termination_by es => (sizeOf es, 0)

end

end Expressions

/-! ## Statements -/

theorem assignable_erase {e : Expr} : Assignable e.erase ↔ Assignable e := by
  induction e using Expr.strip.induct with
  | case1 x t ih => exact ih
  | case2 e other => cases e <;> simp_all [Assignable, Expr.erase, Expr.strip]

theorem checkItems_complete (env : Env) {t : Ty} : ∀ (items : List DeclItem) {Δ Δ' : Scope},
    Introduces (Derives env.signatures) t env.context Δ (items.map DeclItem.erase) Δ' →
      (checkItems (env.withScope Δ) t items).stop = none ∧
        (checkItems (env.withScope Δ) t items).env = env.withScope Δ'
  | [], _, _, introduces => by
    cases introduces
    exact ⟨rfl, rfl⟩
  | item :: rest, Δ, _, introduces => by
    cases introduces with
    | cons start new others =>
      obtain ⟨item', started⟩ : ∃ item', inferInit (env.withScope Δ) t item = .ok item' := by
        cases init : item.init with
        | none => exact ⟨item, inferInit_none init⟩
        | some e =>
          obtain ⟨e', ran⟩ := infer_complete (env.withScope Δ) e
            (start e.erase (by simp [DeclItem.erase, init]))
          exact ⟨_, (inferInit_some init).2 ⟨e', ran, rfl⟩⟩
      have declared : (env.withScope Δ).declare item.name t item.pos =
          .ok (env.withScope ((item.name, t) :: Δ)) :=
        Env.declare_ok.2 ⟨new, rfl⟩
      simp only [checkItems, started, declared, Checked.map_stop, Checked.map_env]
      exact checkItems_complete env rest others

/-- A check in a scope of its own that ends well leads back. -/
theorem leave_complete {env : Env} {α : Type} {r : Checked α} {Δ : Scope}
    (ended : r.stop = none ∧ r.env = env.withScope Δ) : r.leave.stop = none ∧ r.leave.env = env :=
  ⟨r.leave_stop.trans ended.1, leave_withScope ended.1 ended.2⟩

mutual

/-- The check of a well typed statement does not stop. -/
theorem checkStmt_complete : ∀ (s : Stmt) (env : Env) {Δ Δ' : Scope},
    Admits (Derives env.signatures) env.currentType.ret env.context Δ s.erase Δ' →
      (checkStmt (env.withScope Δ) s).stop = none ∧
        (checkStmt (env.withScope Δ) s).env = env.withScope Δ'
  | .block _ body, env, Δ, _, admits => by
    cases admits with
    | block inner => exact leave_complete (checkStmts_complete body (env.withScope Δ) inner)
  | .decl _ _ items, env, _, _, admits => by
    cases admits with
    | decl some introduces =>
      rw [checkStmt, if_neg some]
      exact checkItems_complete env items introduces
  | .assign p target value, env, Δ, _, admits => by
    cases admits with
    | assign assignable left right =>
      obtain ⟨target', ran⟩ := infer_complete (env.withScope Δ) target left
      obtain ⟨value', ran'⟩ := infer_complete (env.withScope Δ) value right
      rw [checkStmt, inferAssignment_ok.2 ⟨assignable_erase.1 assignable, _, ran, ran'⟩]
      exact ⟨rfl, rfl⟩
  | .incr p name _, env, Δ, _, admits => by
    cases admits with
    | incr known =>
      rw [checkStmt, checkCounter_ok (u := ()).2 known]
      exact ⟨rfl, rfl⟩
  | .ifThen _ c yes, env, Δ, _, admits => by
    cases admits with
    | ifThen cond inner =>
      obtain ⟨c', ran⟩ := infer_complete (env.withScope Δ) c cond
      rw [checkStmt, inferCondition_ok.2 ran]
      exact leave_complete (checkStmt_complete yes (env.withScope Δ) inner)
  | .ifElse _ c yes no, env, Δ, _, admits => by
    cases admits with
    | ifElse cond inner inner' =>
      obtain ⟨c', ran⟩ := infer_complete (env.withScope Δ) c cond
      obtain ⟨ended, back⟩ :=
        leave_complete (checkStmt_complete yes (env.withScope Δ) inner)
      rw [← Env.enter_eq] at ended back
      rw [checkStmt, inferCondition_ok.2 ran]
      simp only [ended, back]
      exact leave_complete (checkStmt_complete no (env.withScope Δ) inner')
  | .while _ c body, env, Δ, _, admits => by
    cases admits with
    | «while» cond inner =>
      obtain ⟨c', ran⟩ := infer_complete (env.withScope Δ) c cond
      rw [checkStmt, inferCondition_ok.2 ran]
      exact leave_complete (checkStmt_complete body (env.withScope Δ) inner)
  | .forEach p elem name array body, env, Δ, _, admits => by
    cases admits with
    | forEach whole elems inner =>
      obtain ⟨array', ran⟩ := infer_complete (env.withScope Δ) array whole
      have declared : (env.withScope Δ).enter.declare name elem p =
          .ok ((env.withScope Δ).withScope [(name, elem)]) :=
        Env.declare_ok.2 ⟨rfl, rfl⟩
      rw [checkStmt, inferIteration_ok.2 ⟨_, ran, elems⟩]
      simp only [declared]
      exact leave_complete (leave_complete (checkStmt_complete body
        ((env.withScope Δ).withScope [(name, elem)]) inner))
  | .ret _ value, env, Δ, _, admits => by
    cases admits with
    | ret some answer =>
      obtain ⟨value', ran⟩ := infer_complete (env.withScope Δ) value answer
      rw [checkStmt, inferReturn_ok.2 ⟨show (env.withScope Δ).currentType.ret ≠ Ty.void from some, ran⟩]
      exact ⟨rfl, rfl⟩
  | .retVoid _, env, Δ, _, admits => by
    cases admits with
    | retVoid none =>
      rw [checkStmt, if_pos (show (env.withScope Δ).currentType.ret = Ty.void from none)]
      exact ⟨rfl, rfl⟩
  | .expr _ e, env, Δ, _, admits => by
    cases admits with
    | expr effect =>
      obtain ⟨e', ran⟩ := infer_complete (env.withScope Δ) e effect
      rw [checkStmt, inferEffect_ok.2 ran]
      exact ⟨rfl, rfl⟩
  | .empty _, _, _, _, admits => by
    cases admits
    exact ⟨rfl, rfl⟩

/-- Statements of the language are accepted. -/
theorem checkStmts_complete : ∀ (ss : List Stmt) (env : Env) {Δ Δ' : Scope},
    AdmitsAll (Derives env.signatures) env.currentType.ret env.context Δ (Stmt.eraseAll ss) Δ' →
      (checkStmts (env.withScope Δ) ss).stop = none ∧
        (checkStmts (env.withScope Δ) ss).env = env.withScope Δ'
  | [], _, _, _, admits => by
    cases admits
    exact ⟨rfl, rfl⟩
  | s :: rest, env, _, _, admits => by
    cases admits with
    | cons first others =>
      obtain ⟨ended, left⟩ := checkStmt_complete s env first
      simp only [checkStmts, ended, left, Checked.map_stop, Checked.map_env]
      exact checkStmts_complete rest env others

end

/-! ## Functions and programs -/

/-- Functions of the language are accepted. -/
theorem checkFunction_complete {env : Env} {f : FuncDef} (closed : env.scopes = [])
    (known : env.signatures.lookup f.name = some f.signature)
    (admits : AdmitsFunction (Derives env.signatures) f.erase) :
    (checkFunction env f).stop = none ∧ (checkFunction env f).env = env.inFunction f := by
  obtain ⟨Δ, all⟩ := admits.body
  have none : (env.inFunction f).context = [] := by simp [Env.context, Env.inFunction, closed]
  rw [← none] at all
  obtain ⟨ended, left⟩ := checkStmts_complete f.body (env.inFunction f) all
  have returns : f.ret ≠ Ty.void → Stmt.anyReturns f.body = true := by
    intro some
    rw [← Stmt.anyReturns_eraseAll]
    exact (anyReturns_iff _).2 (admits.returns some)
  have accepted := (checkFunction_ok known).2 ⟨admits.names, ended, returns⟩
  exact ⟨accepted, (checkFunction_done known accepted).2.trans (congrArg Env.leave left)⟩

theorem checkFunctions_complete : ∀ (fs : List FuncDef) {env : Env}, env.scopes = [] →
    (∀ f ∈ fs, env.signatures.lookup f.name = some f.signature) →
    (∀ f ∈ fs, AdmitsFunction (Derives env.signatures) f.erase) → (checkFunctions env fs).2 = none
  | [], _, _, _, _ => rfl
  | f :: rest, env, closed, known, admits => by
    obtain ⟨ended, left⟩ := checkFunction_complete closed (known f (by simp)) (admits f (by simp))
    simp only [checkFunctions, ended, left]
    exact checkFunctions_complete rest (show (env.inFunction f).scopes = [] from closed)
      (fun g member => known g (by simp [member])) fun g member => admits g (by simp [member])

section Erase

variable {K : Context → Expr → Ty → Prop} {ret : Ty}

theorem Introduces.erase {t : Ty} {Γ : Context} {Δ Δ' : Scope} {items : List DeclItem}
    (introduces : Introduces (fun Γ e t => K Γ e.erase t) t Γ Δ items Δ') :
    Introduces K t Γ Δ (items.map DeclItem.erase) Δ' := by
  induction introduces with
  | nil => exact .nil
  | cons start new _ ih =>
    refine .cons (fun e init => ?_) new ih
    obtain ⟨x, known, rfl⟩ := Option.map_eq_some_iff.1 init
    exact start x known

mutual

theorem Admits.erase {Γ : Context} {Δ Δ' : Scope} {s : Stmt}
    (admits : Admits (fun Γ e t => K Γ e.erase t) ret Γ Δ s Δ') : Admits K ret Γ Δ s.erase Δ' := by
  match admits with
  | .block inner => exact .block inner.erase
  | .decl value introduces => exact .decl value introduces.erase
  | .assign assignable left right => exact .assign (assignable_erase.2 assignable) left right
  | .incr known => exact .incr known
  | .ifThen cond inner => exact .ifThen cond inner.erase
  | .ifElse cond inner inner' => exact .ifElse cond inner.erase inner'.erase
  | .while cond inner => exact .while cond inner.erase
  | .forEach whole elems inner => exact .forEach whole elems inner.erase
  | .ret value answer => exact .ret value answer
  | .retVoid void => exact .retVoid void
  | .expr effect => exact .expr effect
  | .empty => exact .empty

theorem AdmitsAll.erase {Γ : Context} {Δ Δ' : Scope} {ss : List Stmt}
    (admits : AdmitsAll (fun Γ e t => K Γ e.erase t) ret Γ Δ ss Δ') :
    AdmitsAll K ret Γ Δ (Stmt.eraseAll ss) Δ' := by
  match admits with
  | .nil => exact .nil
  | .cons first others => exact .cons first.erase others.erase

end

theorem AdmitsFunction.erase {f : FuncDef} (admits : AdmitsFunction (fun Γ e t => K Γ e.erase t) f) :
    AdmitsFunction K f.erase := by
  obtain ⟨Δ, all⟩ := admits.body
  refine ⟨admits.params, admits.names, ⟨Δ, all.erase⟩, fun some => ?_⟩
  have returns := (anyReturns_iff _).2 (admits.returns some)
  rw [← Stmt.anyReturns_eraseAll] at returns
  exact (anyReturns_iff _).1 returns

theorem AdmitsProgram.erase {p : Program} (admits : AdmitsProgram (fun Γ e t => K Γ e.erase t) p) :
    AdmitsProgram K p.erase := by
  obtain ⟨names, own, ⟨f, member, main⟩, functions⟩ := admits
  have all : ∀ {P : FuncDef → Prop}, (∀ f ∈ p.functions, P f.erase) → ∀ f ∈ p.erase.functions, P f := by
    intro P each f member
    obtain ⟨g, known, rfl⟩ := List.mem_map.1 member
    exact each g known
  refine ⟨?_, all fun f member => own f member, ⟨f.erase, List.mem_map_of_mem member, main⟩,
    all fun f member => (functions f member).erase⟩
  rw [Program.erase, List.map_map]
  exact names

end Erase

end Typing

/-- Programs of the language are accepted. -/
theorem Program.check_complete {p : Program} (typed : p.WellTyped) : p.check.2 = none := by
  have each : ∀ f ∈ p.functions, f.erase ∈ p.erase.functions := fun f => List.mem_map_of_mem
  have distinct : (p.functions.map FuncDef.name).Nodup := by
    have names := typed.names
    rw [Program.erase, List.map_map] at names
    exact names
  have main : ∃ f ∈ p.functions, f.name = "main" := by
    obtain ⟨f, member, same⟩ := typed.main
    obtain ⟨g, known, rfl⟩ := List.mem_map.1 member
    exact ⟨g, known, same⟩
  have global := Typing.globalEnv_ok.2 ⟨fun f member => (typed.functions _ (each f member)).params,
    distinct, fun f member => typed.own f.erase (each f member), main, rfl⟩
  rw [Program.check, global]
  exact Typing.checkFunctions_complete p.functions rfl
    (fun f member => Typing.signatures_lookup distinct member)
    fun f member => typed.functions _ (each f member)

/-- Checking accepts the well typed programs and no others, and answers with the program
it was given, every expression annotated with the one type that the rules give it. -/
theorem check_wellTyped (p : Program) :
    (p.check.2 = none ↔ p.WellTyped) ∧
    (p.check.2 = none → p.check.1.erase = p.erase ∧ p.check.1.Annotated) ∧
    ∀ {Γ : Typing.Context} {e : Expr} {t u : Ty}, Typing.Derives p.signatures Γ e t →
      Typing.Derives p.signatures Γ e u → t = u := by
  have same := Program.signatures_of_erase p.check_erase
  refine ⟨⟨fun checked => ?_, Program.check_complete⟩, fun checked => ⟨p.check_erase, ?_⟩,
    Typing.Derives.unique⟩
  · rw [Program.WellTyped, ← p.check_erase]
    exact ((Program.check_admits checked).mono fun _ _ _ typed => typed.derives).erase
  · rw [Program.Annotated, same]
    exact (Program.check_admits checked).mono fun _ _ _ typed => typed.annotated

end ImpCompiler
