import ImpCompiler.Proofs.Lower.Expressions

/-!
# Proofs.Lower.Statements — lowered statements mean what they meant

The code of a statement does what the statement does: it ends where lowering goes on,
with the values of variables in their slots, or it returns from the function. Where
it ends, the block of the cursor has no end yet (`IsOpen`), so that lowering gives it
one. A loop is simulated round by round; between two rounds the machine is at a
branch to the head of the loop, so that every round takes a step at least.
-/

namespace ImpCompiler.Lower

set_option autoImplicit false

open Machine Semantics Typing

variable {b : Nat}

/-! ## Blocks without an end -/

/-- The block of the cursor has no end yet. -/
def IsOpen (c : Cursor) : Prop := (c.func.terminator? c.block).isSome = false

theorem isOpen_of_empty {c : Cursor} (empty : (c.func.block c.block).instrs = []) : IsOpen c := by
  simp [IsOpen, Func.terminator?, empty]

theorem isOpen_of_emit {c c' : Cursor} {r : Request} {n : Nat} (ran : emit r c = .ok (n, c'))
    (inside : c.block < c.func.blocks.size) (goesOn : r.endsBlock = false) : IsOpen c' := by
  obtain ⟨op, t, args, planned, rfl, rfl⟩ := emit_ok.1 ran
  have plain : op.isTerminator = false := planned.planned.ends.trans goesOn
  simp [IsOpen, Func.terminator?, Cursor.emitted, Func.append_block c.func op t _ inside,
    Instr.isTerminator, plain]

theorem Fresh.isOpen {c : Cursor} (fresh : Fresh c b) : IsOpen (c.moved b) :=
  isOpen_of_empty fresh.empty

/-- An expression ends with an instruction that computes its value. -/
theorem isOpen_of_expr {env : Slots} {e : Expr} {c c' : Cursor} {n : Nat}
    (run : expr env e c = .ok (n, c')) (inside : c.block < c.func.blocks.size) : IsOpen c' := by
  obtain ⟨x, t, rfl, ran⟩ := expr_ok.1 run
  have last : ∃ r c₁, emit r c₁ = .ok (n, c') ∧ Steps c c₁ ∧ r.endsBlock = false := by
    cases x with
    | int | double | bool | string =>
      simp only [form] at ran
      exact ⟨_, _, ran, .refl, rfl⟩
    | ident p name =>
      obtain ⟨s, -, ran⟩ := ident_ok.1 ran
      exact ⟨_, _, ran, .refl, rfl⟩
    | unary p op x =>
      obtain ⟨v, c₁, operand, ran⟩ := unary_ok.1 ran
      exact ⟨_, _, ran, expr_steps x operand, by cases op <;> rfl⟩
    | binary p op x y =>
      cases kind : strictRequest? op with
      | some request =>
        obtain ⟨v, c₁, u, c₂, left, right, ran⟩ := (strict_ok kind).1 ran
        exact ⟨_, _, ran, (expr_steps x left).trans (expr_steps y right),
          by cases op <;> cases kind <;> rfl⟩
      | none =>
        obtain ⟨v, c₁, left, ran⟩ := (logical_ok kind).1 ran
        obtain ⟨_, _, _, _, _, _, _, _, _, _, stored, decided, right, stored', left', loaded⟩ :=
          shortCircuit_ok.1 ran
        have ways := Steps.shortCircuit_ways stored decided (expr_steps y right) stored' left'
        exact ⟨_, _, loaded, (expr_steps x left).trans ways.2.1, rfl⟩
    | call p name args =>
      obtain ⟨_, _, _, _, _, evaluated, copied, -, ran⟩ := call_ok.1 ran
      exact ⟨_, _, ran, (spans_steps.exprs args evaluated).trans (spans_steps.copies copied), rfl⟩
    | index p a i =>
      obtain ⟨_, _, _, _, _, array, index, -, ran⟩ := index_ok.1 ran
      exact ⟨_, _, ran, (expr_steps a array).trans (expr_steps i index), rfl⟩
    | new p elem sizes =>
      obtain ⟨_, _, _, evaluated, -, ran⟩ := new_ok.1 ran
      exact ⟨_, _, ran, spans_steps.exprs sizes evaluated, rfl⟩
    | length p a m =>
      obtain ⟨_, _, array, ran⟩ := length_ok.1 ran
      exact ⟨_, _, ran, expr_steps a array, rfl⟩
    | typed => exact absurd ran not_typed_ok
  obtain ⟨r, c₁, ran, steps, goesOn⟩ := last
  exact isOpen_of_emit ran (steps.inside inside) goesOn

/-! ## Scopes -/

/-- A declaration puts its names in front of those in scope. -/
theorem declare_suffix {d : DataType} {items : List DeclItem} {env env' : Slots} {c c' : Cursor}
    (ran : declare env d items c = .ok (env', c')) : env <:+ env' := by
  induction items generalizing env c with
  | nil =>
    obtain ⟨rfl, -⟩ := declare_nil_ok.1 ran
    exact List.suffix_rfl
  | cons item items ih =>
    obtain ⟨_, _, _, _, -, -, -, rest⟩ := declare_cons_ok.1 ran
    exact (List.suffix_cons _ _).trans (ih rest)

/-- Statements add to the scope in front. -/
theorem stmt_suffix {s : Stmt} {env env' : Slots} {c c' : Cursor}
    (ran : stmt env s c = .ok (env', c')) : env <:+ env' := by
  cases s with
  | decl p t items =>
    obtain ⟨_, -, ran⟩ := decl_ok.1 ran
    exact declare_suffix ran
  | block => exact (block_ok.1 ran).1 ▸ List.suffix_rfl
  | assign => exact (assign_stmt_ok.1 ran).1 ▸ List.suffix_rfl
  | incr => exact (incr_ok.1 ran).1 ▸ List.suffix_rfl
  | ifThen => exact (ifThen_ok.1 ran).1 ▸ List.suffix_rfl
  | ifElse => exact (ifElse_ok.1 ran).1 ▸ List.suffix_rfl
  | «while» => exact (while_ok.1 ran).1 ▸ List.suffix_rfl
  | forEach => exact (forEach_ok.1 ran).1 ▸ List.suffix_rfl
  | ret => exact (ret_ok.1 ran).1 ▸ List.suffix_rfl
  | retVoid => exact (retVoid_ok.1 ran).1 ▸ List.suffix_rfl
  | expr => exact (effect_ok.1 ran).1 ▸ List.suffix_rfl
  | empty => exact (empty_ok.1 ran).1 ▸ List.suffix_rfl

theorem stmts_suffix {ss : List Stmt} {env env' : Slots} {c c' : Cursor}
    (ran : stmts env ss c = .ok (env', c')) : env <:+ env' := by
  induction ss generalizing env c with
  | nil =>
    obtain ⟨rfl, -⟩ := stmts_nil_ok.1 ran
    exact List.suffix_rfl
  | cons s ss ih =>
    obtain ⟨_, _, first, rest⟩ := stmts_cons_ok.1 ran
    exact (stmt_suffix first).trans (ih rest)

/-- Declared variables have slots of their own. -/
theorem declare_new {d : DataType} {items : List DeclItem} {env env' : Slots} {c c' : Cursor}
    (ran : declare env d items c = .ok (env', c')) :
    ∀ p ∈ env', p ∈ env ∨ c.func.slots.length ≤ p.2 := by
  induction items generalizing env c with
  | nil =>
    obtain ⟨rfl, -⟩ := declare_nil_ok.1 ran
    exact fun p member => .inl member
  | cons item items ih =>
    obtain ⟨_, c₁, _, c₂, first, _, stored, rest⟩ := declare_cons_ok.1 ran
    have before := (spans_steps.initial first).grows.slots_length
    have behind := ((Steps.refl.addSlot ‹_› item.name).trans (.of_emit stored)).grows.slots_length
    intro p member
    rcases ih rest p member with old | new
    · rcases List.mem_cons.1 old with rfl | old
      · exact .inr before
      · exact .inl old
    · exact .inr (Nat.le_trans before (Nat.le_trans behind new))

/-- The slots of new variables are new. -/
theorem stmt_new {s : Stmt} {env env' : Slots} {c c' : Cursor}
    (ran : stmt env s c = .ok (env', c')) :
    ∀ n ∈ env'.map Prod.snd, n < c.func.slots.length → n ∈ env.map Prod.snd := by
  have kept : env' = env ∨ ∀ p ∈ env', p ∈ env ∨ c.func.slots.length ≤ p.2 := by
    cases s with
    | decl p t items =>
      obtain ⟨_, -, ran⟩ := decl_ok.1 ran
      exact .inr (declare_new ran)
    | block => exact .inl (block_ok.1 ran).1
    | assign => exact .inl (assign_stmt_ok.1 ran).1
    | incr => exact .inl (incr_ok.1 ran).1
    | ifThen => exact .inl (ifThen_ok.1 ran).1
    | ifElse => exact .inl (ifElse_ok.1 ran).1
    | «while» => exact .inl (while_ok.1 ran).1
    | forEach => exact .inl (forEach_ok.1 ran).1
    | ret => exact .inl (ret_ok.1 ran).1
    | retVoid => exact .inl (retVoid_ok.1 ran).1
    | expr => exact .inl (effect_ok.1 ran).1
    | empty => exact .inl (empty_ok.1 ran).1
  intro n member old
  rcases kept with rfl | kept
  · exact member
  · obtain ⟨p, member', rfl⟩ := List.mem_map.1 member
    rcases kept p member' with known | new
    · exact List.mem_map_of_mem known
    · omega

variable {F : Func} {c c' : Cursor} {fr fr' : Frame Nat} {env : Slots} {vars : Vars}

/-- A variable more, in a slot of its own. -/
theorem Enters.declare (enters : Enters F c fr env vars) {name : Text} {s : Nat} {v : Val}
    (ready : Ready F c' fr') (new : c.func.slots.length ≤ s) (inside : s < c'.func.slots.length)
    (held : fr'.slots s = some v) (kept : ∀ s < c.func.slots.length, fr'.slots s = fr.slots s) :
    Enters F c' fr' ((name, s) :: env) ((name, v) :: vars) where
  ready := ready
  known p member := by
    rcases List.mem_cons.1 member with rfl | member
    · exact inside
    · exact Nat.lt_trans (Nat.lt_of_lt_of_le (enters.known p member) new) inside
  distinct := by
    simp only [List.map_cons, List.nodup_cons, List.mem_map, not_exists, not_and]
    refine ⟨fun p member same => ?_, enters.distinct⟩
    have := enters.known p member
    omega
  stores := .cons ⟨rfl, held⟩
    (enters.stores.congr fun p member => kept p.2 (enters.known p member))

/-- Behind a scope there are the variables again that were there before it. -/
theorem Enters.leave {inner : Slots} {vars' : Vars} (enters : Enters F c fr inner vars')
    (suffix : env <:+ inner) (length : vars.length = env.length) :
    Enters F c fr env (vars.leave vars') where
  ready := enters.ready
  known p member := enters.known p (suffix.subset member)
  distinct := (suffix.map Prod.snd).sublist.nodup enters.distinct
  stores := by
    obtain ⟨more, rfl⟩ := suffix
    have same := enters.stores.length_eq
    have dropped := List.forall₂_drop (n := more.length) enters.stores
    rw [List.drop_left] at dropped
    have count : vars'.length - vars.length = more.length := by
      rw [List.length_append] at same
      omega
    rwa [Vars.leave, count]

/-- Assigning to a variable changes its slot. -/
theorem Stores.assign {slots : Nat → Option Val} (stores : Stores env vars slots)
    (distinct : (env.map Prod.snd).Nodup) {name : Text} {s : Nat} (known : env.lookup name = some s)
    (v : Val) : ∃ vars', vars.assign name v = some vars' ∧
      Stores env vars' (Function.update slots s (some v)) := by
  induction stores with
  | nil => simp at known
  | @cons x y env vars first rest ih =>
    obtain ⟨x, s'⟩ := x
    obtain ⟨y, u⟩ := y
    obtain ⟨rfl, held⟩ := first
    simp only [List.map_cons, List.nodup_cons] at distinct
    rw [List.lookup_cons] at known
    by_cases same : name = x
    · subst same
      simp only [beq_self_eq_true, Option.some.injEq] at known
      subst known
      refine ⟨(name, v) :: vars, by simp [Vars.assign], .cons ⟨rfl, by simp⟩ ?_⟩
      refine Stores.congr rest fun p member => Function.update_of_ne ?_ _ _
      rintro rfl
      exact distinct.1 (List.mem_map_of_mem member)
    · simp only [beq_false_of_ne same] at known
      obtain ⟨vars', assigned, stores'⟩ := ih distinct.2 known
      refine ⟨(x, u) :: vars', by simp [Vars.assign, same, assigned], .cons ⟨rfl, ?_⟩ stores'⟩
      rw [Function.update_of_ne ?_ _ _]
      · exact held
      · rintro rfl
        exact distinct.1 (List.mem_map.2 ⟨_, mem_of_lookup known, rfl⟩)

/-! ## How the code of a statement ends -/

/-- The end of the code of a statement that was started at the cursor `c₀` with the
variables `env₀`: at the cursor `c` with the variables `env`, or with a return. -/
def Continues (M : Machine Nat) (F : Func) (c₀ : Cursor) (fr₀ : Frame Nat) (env₀ : Slots)
    (callers : List (Frame Nat)) (c : Cursor) (env : Slots) (flow : Flow) (w : World)
    (s : State Nat) : Prop :=
  match flow with
  | .next vars => ∃ fr, s = .running fr callers w ∧
      Reaches F (env₀.map Prod.snd) c₀ fr₀ c fr ∧ IsOpen c ∧ Enters F c fr env vars
  | .ret v => s = M.giveBack callers v w

variable {M : Machine Nat} {callers : List (Frame Nat)} {k : Nat} {w : World} {s : State Nat}
  {c₀ c₁ : Cursor} {fr₀ fr₁ : Frame Nat} {env₀ env₁ : Slots} {flow : Flow}

theorem Continues.after (reaches : Reaches F (env₀.map Prod.snd) c₀ fr₀ c₁ fr₁)
    (within : ∀ s ∈ env₁.map Prod.snd, s < c₀.func.slots.length → s ∈ env₀.map Prod.snd)
    (continues : Continues M F c₁ fr₁ env₁ callers c env flow w s) :
    Continues M F c₀ fr₀ env₀ callers c env flow w s := by
  cases flow with
  | next vars =>
    obtain ⟨fr, rfl, reaches', isOpen, enters⟩ := continues
    exact ⟨fr, rfl, reaches.transWithin reaches' within, isOpen, enters⟩
  | ret v => exact continues

/-- Behind a scope. -/
theorem inScope_sim {x : Comp Flow} {inner : Slots}
    (sim : M.Sim k s (x w) (Continues M F c₀ fr₀ env₀ callers c inner)) (suffix : env <:+ inner)
    (length : vars.length = env.length) :
    M.Sim k s (inScope vars x w) (Continues M F c₀ fr₀ env₀ callers c env) := by
  refine Sim.bind sim ?_
  intro flow w s continues
  cases flow with
  | next vars' =>
    obtain ⟨fr, rfl, reaches, isOpen, enters⟩ := continues
    exact .pure ⟨fr, rfl, reaches, isOpen, enters.leave suffix length⟩
  | ret v => exact .pure continues

variable {fns : Text → Option Func} {oracle : Oracle} {call : Text → List Val → Comp Val}

theorem leaveTo_step (ready : Ready F c fr) (isOpen : IsOpen c)
    (left : leaveTo b c = .ok ((), c')) (grows : c'.func.Grows F) :
    (virtual fns oracle).step (.running fr callers w) = .running (fr.jump b) callers w := by
  rcases leaveTo_ok.1 left with ⟨ended, -⟩ | ⟨-, n, ran⟩
  · rw [isOpen] at ended
    cases ended
  · exact branch_step ready ran grows

/-- At the start of a block that waited, with the registers and the slots as they were. -/
theorem Fresh.jump {changed : List Nat} (fresh : Fresh c₁ b) (steps : Steps c₀ (c₁.moved b))
    (known : ∀ p ∈ env, p.2 < c₀.func.slots.length) (reaches : Reaches F changed c₀ fr₀ c fr)
    (enters : Enters F c fr env vars) :
    Reaches F changed c₀ fr₀ (c₁.moved b) (fr.jump b) ∧
      Enters F (c₁.moved b) (fr.jump b) env vars := by
  have here : At F (c₁.moved b) (fr.jump b) := enters.ready.here.jump fresh.empty
  refine ⟨reaches.elsewhere here steps rfl rfl fun _ _ _ => rfl, ⟨here, fresh.inside⟩,
    fun p member => ?_, enters.distinct, enters.stores⟩
  exact Nat.lt_of_lt_of_le (known p member) steps.grows.slots_length

theorem Fresh.continues (fresh : Fresh c₁ b) (steps : Steps c₀ (c₁.moved b))
    (known : ∀ p ∈ env, p.2 < c₀.func.slots.length)
    (reaches : Reaches F (env₀.map Prod.snd) c₀ fr₀ c fr) (enters : Enters F c fr env vars) :
    Continues M F c₀ fr₀ env₀ callers (c₁.moved b) env (.next vars) w
      (.running (fr.jump b) callers w) := by
  obtain ⟨there, enters'⟩ := fresh.jump steps known reaches enters
  exact ⟨_, rfl, there, fresh.isOpen, enters'⟩

/-- A statement that control leaves for a block that is filled later, from the cursor
`c₁` on. -/
theorem Continues.leaveTo
    (continues : Continues (virtual fns oracle) F c₀ fr₀ env₀ callers c env flow w s)
    (left : leaveTo b c = .ok ((), c')) (grows : c'.func.Grows F) (fresh : Fresh c₁ b)
    (steps : Steps c₀ (c₁.moved b)) (known : ∀ p ∈ env, p.2 < c₀.func.slots.length) :
    ∃ j, Continues (virtual fns oracle) F c₀ fr₀ env₀ callers (c₁.moved b) env flow w
      ((virtual fns oracle).run j s) := by
  cases flow with
  | next vars =>
    obtain ⟨fr, rfl, reaches, isOpen, enters⟩ := continues
    have step : (virtual fns oracle).run 1 (.running fr callers w) = _ :=
      leaveTo_step enters.ready isOpen left grows
    exact ⟨1, step ▸ fresh.continues steps known reaches enters⟩
  | ret v => exact ⟨0, continues⟩

/-- Between two rounds of a loop: a step before the start of one. -/
def Waits {α : Type} (M : Machine Nat) (start : α → World → State Nat → Prop) (a : α) (w : World)
    (s : State Nat) : Prop :=
  s.isRunning = true ∧ start a w (M.step s)

/-- What a round of a loop leads to. -/
def RoundEnds {α : Type} (M : Machine Nat) (start : α → World → State Nat → Prop)
    (post : Flow → World → State Nat → Prop) (r : α ⊕ Flow) (w : World) (s : State Nat) : Prop :=
  match r with
  | .inl a => Waits M start a w s
  | .inr flow => post flow w s

/-- A loop does what its rounds do, one after another. -/
theorem iterate_sim {α : Type} {round : α → Comp (α ⊕ Flow)} {n m : Nat}
    {start : α → World → State Nat → Prop} {post : Flow → World → State Nat → Prop}
    (one : ∀ a w s, start a w s → M.Sim n s (round a w) (RoundEnds M start post)) (le : m ≤ n)
    {a : α} (waits : Waits M start a w s) : M.Sim m s (iterate round m a w) post := by
  induction m generalizing a w s with
  | zero => exact waits.1
  | succ m ih =>
    refine Sim.step (Sim.bind ((one a w _ waits.2).mono (Nat.le_of_succ_le le)) ?_)
    intro r w s reached
    cases r with
    | inl a => exact ih (Nat.le_of_succ_le le) reached
    | inr flow => exact .pure reached

/-! ## Statements without blocks -/

section Simple

variable {σ : Signatures} {Γ Γ' : Context}

theorem Ready.slotted (ready : Ready F c fr) (name : Text) (t : DataType) :
    Ready F (c.slotted name t) fr :=
  ⟨⟨ready.here.func, ready.here.block, ready.here.offset⟩, ready.inside⟩

theorem Reaches.slotted {changed : List Nat} (reaches : Reaches F changed c₀ fr₀ c fr) (name : Text)
    {t : DataType} (some : t ≠ .void) : Reaches F changed c₀ fr₀ (c.slotted name t) fr :=
  reaches.elsewhere ⟨reaches.here.func, reaches.here.block, reaches.here.offset⟩
    (reaches.steps.addSlot some name) rfl rfl fun _ _ _ => rfl

theorem Ready.blocked (ready : Ready F c fr) (kind : LabelKind) : Ready F (c.blocked kind) fr :=
  ⟨⟨ready.here.func, ready.here.block, by
    rw [ready.here.offset, Cursor.blocked_instrs]
    rfl⟩, by
    rw [Cursor.blocked_size]
    exact Nat.lt_succ_of_lt ready.inside⟩

theorem Ready.reach (ready : Ready F c fr) {changed : List Nat}
    (reaches : Reaches F changed c fr c' fr') : Ready F c' fr' :=
  ⟨reaches.here, reaches.steps.inside ready.inside⟩

/-- A declared variable starts with its initial value. -/
theorem start_sim (answers : (virtual fns oracle).Answers k call) {t : Ty} {d : DataType}
    (known : t.data? = some d) {item : DeclItem}
    (typed : ∀ e, item.init = some e → HasType σ Γ e t) (enters : Enters F c fr env vars) {n : Nat}
    (ran : initial env d item c = .ok (n, c')) (grows : c'.func.Grows F) :
    (virtual fns oracle).Sim k (.running fr callers w) (start call t vars item w)
      (Computes F c fr callers c' n) := by
  obtain ⟨p, name, init⟩ := item
  cases init with
  | some e => exact expr_sim answers e (typed e rfl) enters ran grows
  | none =>
    obtain ⟨r, zero, ran⟩ := zero_ok.1 ran
    have value : d.initialValue = t.initialValue := initialValue_of_data? known
    change Sim _ k _ ((pure t.initialValue : Comp Val) w) _
    rw [← value]
    refine constant_sim enters.ready ran grows fun q planned => ?_
    cases d with
    | int | double | bool | ptr =>
      cases zero
      cases planned
      exact ⟨rfl, rfl⟩
    | void => cases zero

/-- A value goes to a new slot, which makes it the value of a new variable. -/
theorem variable_step (enters : Enters F c fr env vars) (reaches : Reaches F [] c fr c₁ fr₁)
    {name : Text} {s x m : Nat} {v : Val} (new : c.func.slots.length ≤ s) (held : Holds F fr₁ x v)
    (stored : emit (.store s (.own x)) c₁ = .ok (m, c')) (grows : c'.func.Grows F) :
    (virtual fns oracle).step (.running fr₁ callers w) = .running (fr₁.stored s v) callers w ∧
      Reaches F [] c fr c' (fr₁.stored s v) ∧ IsOpen c' ∧
      Enters F c' (fr₁.stored s v) ((name, s) :: env) ((name, v) :: vars) := by
  have ready := enters.ready.reach reaches
  obtain ⟨step, reaches'⟩ : (virtual fns oracle).step (.running fr₁ callers w) = _ ∧ _ :=
    store_step ready held stored grows
  have kept : ∀ n < c.func.slots.length, (fr₁.stored s v).slots n = fr.slots n := by
    intro n old
    rw [← reaches.slots n old (by simp)]
    exact Function.update_of_ne (by omega) _ _
  have inside : s < c'.func.slots.length := by
    obtain ⟨op, t, args, planned, -, rfl⟩ := emit_ok.1 stored
    cases planned with
    | store known => exact (List.getElem?_eq_some_iff.1 known).1
  exact ⟨step, reaches.transWithin reaches' (by simp; omega), isOpen_of_emit stored ready.inside rfl,
    enters.declare (ready.reach reaches') new inside (by simp [Frame.stored]) kept⟩

/-- Declarations give variables their values in order. -/
theorem declare_sim (answers : (virtual fns oracle).Answers k call) {t : Ty} {d : DataType}
    (known : t.data? = some d) {items : List DeclItem} {env' : Slots}
    (declares : Declares σ t Γ items Γ') (isOpen : IsOpen c) (enters : Enters F c fr env vars)
    (ran : Lower.declare env d items c = .ok (env', c')) (grows : c'.func.Grows F) :
    (virtual fns oracle).Sim k (.running fr callers w) (Semantics.declare call t vars items w)
      (fun vars' w s => ∃ fr', s = .running fr' callers w ∧ Reaches F [] c fr c' fr' ∧ IsOpen c' ∧
        Enters F c' fr' env' vars') := by
  induction declares generalizing env vars c fr w with
  | nil =>
    obtain ⟨rfl, rfl⟩ := declare_nil_ok.1 ran
    exact .pure ⟨fr, rfl, .refl enters.ready.here, isOpen, enters⟩
  | @cons Γ Γ' item rest typed _ ih =>
    obtain ⟨n, c₁, m, c₂, first, some, stored, others⟩ := declare_cons_ok.1 ran
    have grows₂ : c₂.func.Grows F := (spans_steps.declare others).grows.trans grows
    refine Sim.bind (start_sim answers known typed enters first
      ((Steps.refl.addSlot some item.name).grows.trans ((Steps.of_emit stored).grows.trans grows₂))) ?_
    rintro v w _ ⟨fr₁, rfl, reaches, -, held⟩
    obtain ⟨step, both, isOpen', declared⟩ : (virtual fns oracle).step (.running fr₁ callers w) = _ ∧ _ :=
      variable_step enters (reaches.slotted item.name some) reaches.steps.grows.slots_length held
        stored grows₂
    have rest : (virtual fns oracle).Sim k _ _ _ := ih (w := w) isOpen' declared others
    rw [← step] at rest
    refine (Sim.step (rest.imp ?_)).mono (Nat.le_succ k)
    rintro vars' w _ ⟨fr', rfl, reaches', isOpen', enters'⟩
    exact ⟨fr', rfl, both.trans reaches', isOpen', enters'⟩

/-- A slot is counted up or down. -/
theorem count_sim {n : Nat} {op : ArithOp} {v : Val} (ready : Ready F c fr)
    (held : fr.slots n = some v) (counted : count n op c = .ok ((), c')) (grows : c'.func.Grows F) :
    (virtual fns oracle).Sim k (.running fr callers w) (Comp.lift (op.apply [v, .int 1]) w)
      (fun u w' s => w' = w ∧ ∃ fr', s = .running fr' callers w ∧ Reaches F [n] c fr c' fr' ∧
        fr'.slots n = some u ∧ IsOpen c') := by
  obtain ⟨x, c₁, one, c₂, y, c₃, m, loaded, made, added, stored⟩ := count_ok.1 counted
  have grows₃ := (Steps.of_emit stored).grows.trans grows
  have grows₂ := (Steps.of_emit added).grows.trans grows₃
  have grows₁ := (Steps.of_emit made).grows.trans grows₂
  obtain ⟨i, fr₁, got, reaches, bound, holds⟩ :
      (virtual fns oracle).Sim k (.running fr callers w) ((pure v : Comp Val) w) _ :=
    load_sim ready loaded grows₁ held
  obtain ⟨j, fr₂, got', reaches', -, holds'⟩ :
      (virtual fns oracle).Sim k (.running fr₁ callers w) ((pure (.int 1) : Comp Val) w) _ := by
    refine constant_sim (ready.reach reaches) made grows₂ fun q planned => ?_
    cases planned
    exact ⟨rfl, rfl⟩
  have both := reaches.trans reaches'
  have ready₂ := ready.reach both
  have sum : (virtual fns oracle).Sim k (.running fr₂ callers w) (Comp.lift (op.apply [v, .int 1]) w) _ :=
    arith_sim ready₂ (reaches'.holds bound holds) holds' added grows₃
  rw [← got', ← got, ← run_add] at sum
  have sum := (Sim.after sum).mono (Nat.le_add_left k _)
  cases answer : op.apply [v, .int 1] with
  | error f =>
    rw [answer] at sum
    exact sum
  | ok u =>
    rw [answer] at sum
    obtain ⟨l, fr₃, got₃, reaches₃, -, holds₃⟩ := sum
    have there := both.trans reaches₃
    have ready₃ := ready.reach there
    obtain ⟨step, reaches₄⟩ : (virtual fns oracle).step (.running fr₃ callers w) = _ ∧ _ :=
      store_step ready₃ holds₃ stored grows
    refine ⟨l + 1, rfl, fr₃.stored n u, ?_, ?_, by simp [Frame.stored],
      isOpen_of_emit stored ready₃.inside rfl⟩
    · rw [run_add, got₃]
      exact step
    · exact (there.weaken (by simp)).transWithin reaches₄ fun _ member _ => member

/-- What is stored to a variable. -/
theorem store_sim {name : Text} {n x m : Nat} {v : Val} (enters : Enters F c fr env vars)
    (known : env.lookup name = some n) (held : Holds F fr x v)
    (ran : emit (.store n (.own x)) c = .ok (m, c')) (grows : c'.func.Grows F) :
    (virtual fns oracle).Sim k (.running fr callers w) (vars.set name v w)
      (fun vars' w s => ∃ fr', s = .running fr' callers w ∧
        Reaches F (env.map Prod.snd) c fr c' fr' ∧ IsOpen c' ∧ Enters F c' fr' env vars') := by
  obtain ⟨vars', assigned, stores⟩ := enters.stores.assign enters.distinct known v
  obtain ⟨step, reaches⟩ : (virtual fns oracle).step (.running fr callers w) = _ ∧ _ :=
    store_step enters.ready held ran grows
  have ready := enters.ready.reach reaches
  simp only [Vars.set, assigned]
  refine ⟨1, _, step, reaches.weaken fun s member _ => ?_, isOpen_of_emit ran enters.ready.inside rfl,
    ready, fun p member => ?_, enters.distinct, stores⟩
  · rw [List.mem_singleton.1 member]
    exact List.mem_map.2 ⟨_, mem_of_lookup known, rfl⟩
  · exact Nat.lt_of_lt_of_le (enters.known p member) reaches.steps.grows.slots_length

/-- An assignment changes one variable or one element. -/
theorem assign_sim (answers : (virtual fns oracle).Answers k call) {p : Pos} {target value : Expr}
    {t u : Ty} (left : HasType σ Γ target t) (right : HasType σ Γ value u)
    (enters : Enters F c fr env vars)
    (ran : Lower.assign env p value target.strip c = .ok ((), c')) (grows : c'.func.Grows F) :
    (virtual fns oracle).Sim k (.running fr callers w)
      (Semantics.assign call vars value target.strip w)
      (fun vars' w s => ∃ fr', s = .running fr' callers w ∧
        Reaches F (env.map Prod.snd) c fr c' fr' ∧ IsOpen c' ∧ Enters F c' fr' env vars') := by
  cases left with
  | typed form =>
    cases form with
    | ident _ =>
      obtain ⟨n, x, c₁, m, known, ran, stored⟩ := assign_ident_ok.1 ran
      have grows₁ := (Steps.of_emit stored).grows.trans grows
      refine Sim.bind (expr_sim answers value right enters ran grows₁) ?_
      rintro v w _ ⟨fr₁, rfl, reaches, -, held⟩
      refine (store_sim (enters.reach reaches) known held stored grows).imp ?_
      rintro vars' w _ ⟨fr₂, rfl, reaches', isOpen, enters'⟩
      exact ⟨fr₂, rfl, (reaches.weaken (by simp)).trans reaches', isOpen, enters'⟩
    | index _ typed typed' =>
      obtain ⟨x, c₁, i, c₂, y, c₃, m, array, index, ran, stored⟩ := assign_index_ok.1 ran
      have grows₃ := (Steps.of_emit stored).grows.trans grows
      have grows₂ := (expr_steps _ ran).grows.trans grows₃
      refine Sim.bind (expr_sim answers _ typed enters array
        ((expr_steps _ index).grows.trans grows₂)) ?_
      rintro v w _ ⟨fr₁, rfl, reaches₁, bound₁, held₁⟩
      refine Sim.bind (expr_sim answers _ typed' (enters.reach reaches₁) index grows₂) ?_
      rintro v' w _ ⟨fr₂, rfl, reaches₂, bound₂, held₂⟩
      have both := reaches₁.trans reaches₂
      refine Sim.bind (expr_sim answers _ right (enters.reach both) ran grows₃) ?_
      rintro v'' w _ ⟨fr₃, rfl, reaches₃, -, held₃⟩
      have all := both.trans reaches₃
      have held₁' := (reaches₂.trans reaches₃).holds bound₁ held₁
      refine (storeElem_sim (enters.reach all).ready held₁' (reaches₃.holds bound₂ held₂) held₃
        stored grows).imp ?_
      rintro _ w _ ⟨rfl, fr₄, rfl, reaches₄⟩
      have there := all.trans reaches₄
      exact ⟨fr₄, rfl, there.weaken (by simp),
        isOpen_of_emit stored (enters.reach all).ready.inside rfl, enters.reach there⟩
    | _ => exact absurd ran not_fail_ok

/-- A condition and the branch on it, which may wait for blocks to be made. -/
theorem test_sim (answers : (virtual fns oracle).Answers k call) {x : Expr} {t : Ty}
    (typed : HasType σ Γ x t) (enters : Enters F c fr env vars) {v n yes no : Nat} {c₂ : Cursor}
    (cond : expr env x c = .ok (v, c₁)) (prepare : ∀ {fr}, Ready F c₁ fr → Ready F c' fr)
    (branched : emit (.condBranch (.own v) (.own yes) (.own no)) c' = .ok (n, c₂))
    (grows₁ : c₁.func.Grows F) (grows : c₂.func.Grows F) :
    (virtual fns oracle).Sim k (.running fr callers w) (test call vars x w)
      (fun b w s => ∃ fr', Reaches F [] c fr c₁ fr' ∧
        s = .running (fr'.jump (if b then yes else no)) callers w) := by
  refine Sim.bind (expr_sim answers x typed enters cond grows₁) ?_
  rintro u w _ ⟨fr', rfl, reaches, -, held⟩
  refine (condBranch_sim (prepare (enters.reach reaches).ready) held branched grows).imp ?_
  rintro b w _ ⟨-, rfl, rfl⟩
  exact ⟨fr', reaches, rfl⟩

end Simple

/-! ## Statements with blocks -/

section Blocks

/-- Code of the statement does what the statement does, wherever it is lowered to. -/
def Simulates (fns : Text → Option Func) (oracle : Oracle) (F : Func) (callers : List (Frame Nat))
    (k : Nat) (call : Text → List Val → Comp Val) (env : Slots) (body : Stmt) : Prop :=
  ∀ ⦃env' : Slots⦄ ⦃vars : Vars⦄ ⦃c c' : Cursor⦄ ⦃fr : Frame Nat⦄ ⦃w : World⦄, IsOpen c →
    Enters F c fr env vars → stmt env body c = .ok (env', c') → c'.func.Grows F →
    (virtual fns oracle).Sim k (.running fr callers w) (exec call k vars body w)
      (Continues (virtual fns oracle) F c fr env callers c' env')

variable {σ : Signatures} {Γ : Context} {body yes no : Stmt} {b : Nat} {c₂ c₃ c₄ : Cursor}

/-- A statement in a block of its own. -/
theorem body_sim (sim : Simulates fns oracle F callers k call env body)
    (known : ∀ p ∈ env, p.2 < c.func.slots.length)
    (reaches : Reaches F (env.map Prod.snd) c fr c₁ fr₁) (enters : Enters F c₁ fr₁ env vars)
    (fresh : Fresh c₂ b) (into : Steps c (c₂.moved b)) {inner : Slots}
    (ran : stmt env body (c₂.moved b) = .ok (inner, c₃)) (grows : c₃.func.Grows F) :
    (virtual fns oracle).Sim k (.running (fr₁.jump b) callers w)
      (inScope vars (exec call k vars body) w)
      (Continues (virtual fns oracle) F c fr env callers c₃ env) := by
  obtain ⟨there, enters'⟩ := fresh.jump into known reaches enters
  refine inScope_sim ?_ (stmt_suffix ran) enters.stores.length_eq.symm
  exact (sim fresh.isOpen enters' ran grows).imp
    fun _ _ _ => Continues.after there fun _ member _ => member

/-- The branch runs exactly if the condition is true. -/
theorem ifThen_sim (answers : (virtual fns oracle).Answers k call) {p : Pos} {x : Expr}
    (typed : HasType σ Γ x Ty.boolean) (sim : Simulates fns oracle F callers k call env yes) :
    Simulates fns oracle F callers k call env (.ifThen p x yes) := by
  intro env' vars c c' fr w _ enters run grows
  obtain ⟨rfl, v, c₁, n, c₂, inner, c₃, c₄, cond, branched, ran, left, rfl⟩ := ifThen_ok.1 run
  have grows₃ : c₃.func.Grows F := (Steps.of_leaveTo left).grows.trans grows
  have grows₂ : c₂.func.Grows F := (stmt_steps _ ran).grows.trans grows₃
  have inside₁ := (expr_steps x cond).inside enters.ready.inside
  have toBranch := (Steps.of_withIfBlocks c₁).trans (.of_emit branched)
  have inner' := (stmt_steps _ ran).trans (.of_leaveTo left)
  have fresh : ∀ {b : Nat}, c₁.func.blocks.size ≤ b → b < c₁.func.blocks.size + 2 → Fresh c₂ b :=
    fun new made => (Fresh.of_withIfBlocks inside₁ new made).steps (.of_emit branched)
  have freshThen : Fresh c₂ c₁.func.blocks.size := fresh (Nat.le_refl _) (by omega)
  have freshStop : Fresh c₄ (c₁.func.blocks.size + 1) :=
    ((fresh (by omega) (by omega)).moved (by omega)).steps inner'
  have toThen := toBranch.move (Nat.le_refl _) freshThen.inside
  have toStop := (expr_steps x cond).trans ((toThen.trans inner').move (by omega) freshStop.inside)
  rw [exec]
  refine Sim.bind (test_sim answers typed enters cond (fun ready => (ready.blocked _).blocked _)
    branched (toBranch.grows.trans grows₂) grows₂) ?_
  rintro b w _ ⟨fr₁, reaches, rfl⟩
  have there : Reaches F (env'.map Prod.snd) c fr c₁ fr₁ := reaches.weaken (by simp)
  have enters₁ := enters.reach reaches
  cases b with
  | true =>
    refine (body_sim sim enters.known there enters₁ freshThen ((expr_steps x cond).trans toThen) ran
      grows₃).andThen ?_
    intro flow w s continues
    exact continues.leaveTo left grows freshStop toStop enters.known
  | false => exact .pure (freshStop.continues (M := virtual fns oracle) toStop enters.known there enters₁)

/-- One of the branches runs, as the condition says. -/
theorem ifElse_sim (answers : (virtual fns oracle).Answers k call) {p : Pos} {x : Expr}
    (typed : HasType σ Γ x Ty.boolean) (sim : Simulates fns oracle F callers k call env yes)
    (sim' : Simulates fns oracle F callers k call env no) :
    Simulates fns oracle F callers k call env (.ifElse p x yes no) := by
  intro env' vars c c' fr w _ enters run grows
  obtain ⟨rfl, v, c₁, n, c₂, inner, c₃, c₄, inner', c₅, c₆, cond, branched, ran, left, ran', left', rfl⟩ :=
    ifElse_ok.1 run
  have arm := (stmt_steps _ ran).trans (.of_leaveTo left)
  have arm' := (stmt_steps _ ran').trans (.of_leaveTo left')
  have ways : Ways c₁ c₂ c₄ c₆ := .of_blocks (by decide) (.of_emit branched) arm arm'
  have before := expr_steps x cond
  obtain ⟨freshThen, freshElse, freshStop⟩ := ways.fresh (before.inside enters.ready.inside)
  have grows₅ : c₅.func.Grows F := (Steps.of_leaveTo left').grows.trans grows
  have grows₄ : c₄.func.Grows F := (stmt_steps _ ran').grows.trans grows₅
  have grows₃ : c₃.func.Grows F := (Steps.of_leaveTo left).grows.trans grows₄
  have grows₂ : c₂.func.Grows F := arm.grows.trans grows₄
  rw [exec]
  refine Sim.bind (test_sim answers typed enters cond
    (fun ready => ((ready.blocked _).blocked _).blocked _) branched (ways.first.grows.trans grows₂)
    grows₂) ?_
  rintro b w _ ⟨fr₁, reaches, rfl⟩
  have there : Reaches F (env'.map Prod.snd) c fr c₁ fr₁ := reaches.weaken (by simp)
  have enters₁ := enters.reach reaches
  cases b with
  | true =>
    refine (body_sim sim enters.known there enters₁ freshThen (before.trans ways.first) ran
      grows₃).andThen ?_
    intro flow w s continues
    exact continues.leaveTo left grows₄ freshStop (before.trans ways.third) enters.known
  | false =>
    refine (body_sim sim' enters.known there enters₁ freshElse (before.trans ways.second) ran'
      grows₅).andThen ?_
    intro flow w s continues
    exact continues.leaveTo left' grows freshStop (before.trans ways.third) enters.known

/-- The start of a round of a loop at the cursor `c₁`, which was started at `c`. -/
def RoundStarts (F : Func) (c : Cursor) (fr : Frame Nat) (env : Slots) (callers : List (Frame Nat))
    (c₁ : Cursor) (vars : Vars) (w : World) (s : State Nat) : Prop :=
  ∃ fr', s = .running fr' callers w ∧ Reaches F (env.map Prod.snd) c fr c₁ fr' ∧
    Enters F c₁ fr' env vars

/-- The machine makes as many rounds as the loop. -/
theorem while_sim (answers : (virtual fns oracle).Answers k call) {p : Pos} {x : Expr}
    (typed : HasType σ Γ x Ty.boolean) (sim : Simulates fns oracle F callers k call env body) :
    Simulates fns oracle F callers k call env (.while p x body) := by
  intro env' vars c c' fr w _ enters run grows
  obtain ⟨rfl, n, c₁, v, c₂, m, c₃, inner, c₄, c₅, entered, cond, branched, ran, left, rfl⟩ :=
    while_ok.1 run
  have head := (expr_steps x cond).trans (.of_emit branched)
  have arm := (stmt_steps _ ran).trans (.of_leaveTo left)
  have ways : Ways c c₁ c₃ c₅ := .of_blocks (by decide) (.of_emit entered) head arm
  obtain ⟨freshHead, freshBody, freshStop⟩ := ways.fresh enters.ready.inside
  have grows₃ : c₃.func.Grows F := arm.grows.trans grows
  have grows₁ : c₁.func.Grows F := head.grows.trans grows₃
  -- Wherever the slots of the variables hold their values, a jump to the head starts a round.
  have atHead : ∀ {c₀ : Cursor} {fr₀ : Frame Nat} {vars : Vars} {w : World},
      Reaches F (env'.map Prod.snd) c fr c₀ fr₀ → Enters F c₀ fr₀ env' vars →
      RoundStarts F c fr env' callers (c₁.moved c.func.blocks.size) vars w
        (.running (fr₀.jump c.func.blocks.size) callers w) :=
    fun reaches enters₀ => ⟨_, rfl, freshHead.jump ways.first enters.known reaches enters₀⟩
  have waits : Waits (virtual fns oracle)
      (RoundStarts F c fr env' callers (c₁.moved c.func.blocks.size)) vars w
      (.running fr callers w) := by
    refine ⟨rfl, ?_⟩
    have ready : Ready F (withWhileBlocks c) fr := ((enters.ready.blocked _).blocked _).blocked _
    rw [branch_step ready entered grows₁]
    exact atHead (.refl enters.ready.here) enters
  rw [exec]
  refine iterate_sim (fun vars w s started => ?_) (Nat.le_refl k) waits
  obtain ⟨fr₁, rfl, reaches, enters₁⟩ := started
  refine Sim.bind (test_sim answers typed enters₁ cond id branched
    ((Steps.of_emit branched).grows.trans grows₃) grows₃) ?_
  rintro b w _ ⟨fr₂, reaches', rfl⟩
  have there := reaches.transWithin reaches' (by simp)
  have enters₂ := enters₁.reach reaches'
  cases b with
  | true =>
    refine Sim.bind (body_sim sim enters.known there enters₂ freshBody ways.second ran
      ((Steps.of_leaveTo left).grows.trans grows)) ?_
    intro flow w s continues
    cases flow with
    | next vars =>
      obtain ⟨fr₃, rfl, reaches₃, isOpen, enters₃⟩ := continues
      refine .pure ⟨rfl, ?_⟩
      rw [leaveTo_step enters₃.ready isOpen left grows]
      exact atHead reaches₃ enters₃
    | ret u => exact .pure continues
  | false =>
    exact .pure (freshStop.continues (M := virtual fns oracle) ways.third enters.known there enters₂)

/-! ### Loops over arrays -/

/-- What a loop over an array keeps: the counter in its slot, and the array and its length in
their registers. -/
structure Counting (F : Func) (c : Cursor) (fr : Frame Nat) (counter a l : Nat) (i : Int64)
    (array length : Val) : Prop where
  slot : counter < c.func.slots.length
  boundA : a < c.func.arena.size
  boundL : l < c.func.arena.size
  count : fr.slots counter = some (.int i)
  heldA : Holds F fr a array
  heldL : Holds F fr l length

section Arrays

variable {counter a l : Nat} {i : Int64} {array length : Val} {name : Text} {d : DataType}

theorem Counting.reach {changed : List Nat} (counting : Counting F c fr counter a l i array length)
    (reaches : Reaches F changed c fr c' fr') (hidden : counter ∉ changed) :
    Counting F c' fr' counter a l i array length where
  slot := Nat.lt_of_lt_of_le counting.slot reaches.steps.grows.slots_length
  boundA := Nat.lt_of_lt_of_le counting.boundA reaches.steps.grows.arena_size
  boundL := Nat.lt_of_lt_of_le counting.boundL reaches.steps.grows.arena_size
  count := (reaches.slots counter counting.slot hidden).trans counting.count
  heldA := reaches.holds counting.boundA counting.heldA
  heldL := reaches.holds counting.boundL counting.heldL

theorem Counting.jump (counting : Counting F c fr counter a l i array length)
    (grows : c.func.Grows c'.func) (b : Nat) :
    Counting F (c'.moved b) (fr.jump b) counter a l i array length where
  slot := Nat.lt_of_lt_of_le counting.slot grows.slots_length
  boundA := Nat.lt_of_lt_of_le counting.boundA grows.arena_size
  boundL := Nat.lt_of_lt_of_le counting.boundL grows.arena_size
  count := counting.count
  heldA := counting.heldA
  heldL := counting.heldL

/-- The counter of a loop over an array starts at zero, behind the length of the array. -/
theorem forCounter_sim (ready : Ready F c fr) (bound : a < c.func.arena.size)
    (held : Holds F fr a array) (ran : ForCounter name a c l counter c') (grows : c'.func.Grows F) :
    (virtual fns oracle).Sim k (.running fr callers w) (Comp.onHeap (·.lengthOf array) w)
      (fun length w s => ∃ fr', s = .running fr' callers w ∧ Reaches F [] c fr c' fr' ∧
        Counting F c' fr' counter a l 0 array length) := by
  obtain ⟨len, made, stored⟩ := ran
  have grows₂ := (Steps.of_emit stored).grows.trans grows
  have grows₁ := (Steps.of_emit made).grows.trans grows₂
  refine (arrayLen_sim ready held len ((Func.Grows.of_slot _ _).trans grows₁)).andThen ?_
  rintro length w _ ⟨fr₁, rfl, reaches₁, bound₁, held₁⟩
  have there₁ := reaches₁.slotted (name ++ ".idx") (t := .int) (by decide)
  obtain ⟨j, fr₂, got, reaches₂, -, held₂⟩ :
      (virtual fns oracle).Sim 0 (.running fr₁ callers w) ((pure (.int 0) : Comp Val) w) _ := by
    refine constant_sim (ready.reach there₁) made grows₂ fun q planned => ?_
    cases planned
    exact ⟨rfl, rfl⟩
  have there₂ := there₁.trans reaches₂
  obtain ⟨step, reaches₃⟩ : (virtual fns oracle).step (.running fr₂ callers w) = _ ∧ _ :=
    store_step (ready.reach there₂) held₂ stored grows
  have rest := (reaches₂.weaken (by simp)).trans reaches₃
  have arena := rest.steps.grows.arena_size
  have slots := And.intro reaches₁.steps.grows.slots_length rest.steps.grows.slots_length
  simp only [Cursor.slotted, List.length_append, List.length_singleton] at arena slots
  refine ⟨j + 1, _, by rw [run_add, got]; exact step, there₂.transWithin reaches₃ ?_, ?_⟩
  · simp only [List.mem_singleton, forall_eq]
    omega
  · have bound' := reaches₁.steps.grows.arena_size
    exact ⟨by omega, by omega, by omega, by simp [Frame.stored],
      rest.holds (Nat.lt_of_lt_of_le bound bound') (there₁.holds bound held), rest.holds bound₁ held₁⟩

/-- The head of a loop over an array: the counter is compared with the length. -/
theorem forHead_sim {more m yes no : Nat} (ready : Ready F c fr)
    (counting : Counting F c fr counter a l i array length) (test : ForTest counter l c more c₁)
    (branched : emit (.condBranch (.own more) (.own yes) (.own no)) c₁ = .ok (m, c₂))
    (grows : c₂.func.Grows F) :
    (virtual fns oracle).Sim k (.running fr callers w) (Comp.lift ((Val.int i).less length) w)
      (fun b w' s => w' = w ∧ ∃ fr', Reaches F [] c fr c₁ fr' ∧
        s = .running (fr'.jump (if b then yes else no)) callers w) := by
  obtain ⟨loaded, compared⟩ := test
  have grows₁ := (Steps.of_emit branched).grows.trans grows
  obtain ⟨j, fr₁, got, reaches, bound₁, held₁⟩ :
      (virtual fns oracle).Sim k (.running fr callers w) ((pure (.int i) : Comp Val) w) _ :=
    load_sim ready loaded ((Steps.of_emit compared).grows.trans grows₁) counting.count
  have answer : (virtual fns oracle).Sim k (.running fr₁ callers w)
      (Comp.lift (BinOp.apply .lt (.int i) length) w) _ :=
    strict_sim (ready.reach reaches) (by rfl) held₁
      (reaches.holds counting.boundL counting.heldL) compared grows₁
  rw [← got] at answer
  have answer := (Sim.after answer).mono (Nat.le_add_left k j)
  cases less : (Val.int i).less length with
  | error f =>
    have value : BinOp.apply .lt (.int i) length = .error f := by
      simp [BinOp.apply, less, bind, Except.bind]
    rw [value] at answer
    exact answer
  | ok b =>
    have value : BinOp.apply .lt (.int i) length = .ok (.bool b) := by
      simp [BinOp.apply, less, bind, Except.bind, pure, Except.pure]
    rw [value] at answer
    obtain ⟨j', fr₂, got', reaches', -, held₂⟩ := answer
    have both := reaches.trans reaches'
    obtain ⟨j'', -, -, got''⟩ : (virtual fns oracle).Sim k (.running fr₂ callers w)
        (Comp.lift (Val.bool b).truth w) _ :=
      condBranch_sim (ready.reach both) held₂ branched grows
    exact ⟨j' + j'', rfl, fr₂, both, by rw [run_add, got', got'']⟩

/-- The start of a round of a loop over an array: the element is the value of the variable. -/
theorem forElement_sim (enters : Enters F c fr env vars)
    (counting : Counting F c fr counter a l i array length) (some : d ≠ .void)
    (ran : ForElement counter a c.func.slots.length d (c.slotted name d) c') (grows : c'.func.Grows F) :
    (virtual fns oracle).Sim k (.running fr callers w) (Comp.onHeap (·.load array (.int i)) w)
      (fun v w s => ∃ fr', s = .running fr' callers w ∧ Reaches F [] c fr c' fr' ∧ IsOpen c' ∧
        Enters F c' fr' ((name, c.func.slots.length) :: env) ((name, v) :: vars)) := by
  obtain ⟨loaded, element, stored⟩ := ran
  have grows₂ := (Steps.of_emit stored).grows.trans grows
  have start : Reaches F [] c fr (c.slotted name d) fr :=
    (Reaches.refl enters.ready.here).slotted name some
  have ready := enters.ready.reach start
  obtain ⟨j, fr₁, got, reaches, -, held₁⟩ :
      (virtual fns oracle).Sim k (.running fr callers w) ((pure (.int i) : Comp Val) w) _ :=
    load_sim ready loaded ((Steps.of_emit element).grows.trans grows₂) counting.count
  have answer : (virtual fns oracle).Sim k (.running fr₁ callers w)
      (Comp.onHeap (·.load array (.int i)) w) _ :=
    loadElem_sim (ready.reach reaches) (reaches.holds counting.boundA counting.heldA) held₁ element
      grows₂
  rw [← got] at answer
  refine ((Sim.after answer).mono (Nat.le_add_left k j)).andThen ?_
  rintro v w _ ⟨fr₂, rfl, reaches', -, held₂⟩
  obtain ⟨step, there, isOpen, declared⟩ : (virtual fns oracle).step (.running fr₂ callers w) = _ ∧
      _ ∧ _ ∧ Enters F c' _ ((name, c.func.slots.length) :: env) _ :=
    variable_step enters (start.trans (reaches.trans reaches')) (Nat.le_refl _) held₂ stored grows
  exact ⟨1, _, step, there, isOpen, declared⟩

/-- The end of a round of a loop over an array: the counter goes up. -/
theorem rounds_run {head : Nat} (ready : Ready F c fr) (isOpen : IsOpen c)
    (held : fr.slots counter = some (.int i)) (round : Rounds counter head c c')
    (grows : c'.func.Grows F) :
    ∃ j fr', (virtual fns oracle).run j (.running fr callers w) = .running fr' callers w ∧
      (virtual fns oracle).step (.running fr' callers w) = .running (fr'.jump head) callers w ∧
      fr'.slots counter = some (.int (i + 1)) ∧ ∃ c₁, Reaches F [counter] c fr c₁ fr' := by
  rcases round with ⟨ended, -⟩ | ⟨-, c₁, n, counted, left⟩
  · rw [isOpen] at ended
    cases ended
  · have grows₁ := (Steps.of_emit left).grows.trans grows
    obtain ⟨j, -, fr₁, got, reaches, held', -⟩ : (virtual fns oracle).Sim 0 (.running fr callers w)
        (Comp.lift (ArithOp.apply .add [.int i, .int 1]) w) _ :=
      count_sim ready held counted grows₁
    exact ⟨j, fr₁, got, branch_step (ready.reach reaches) left grows, held', c₁, reaches⟩

/-- The start of a round of a loop over an array: besides the variables, the counter is in
its slot, and the array and its length are in their registers. -/
def ForStarts (F : Func) (c : Cursor) (fr : Frame Nat) (env : Slots) (callers : List (Frame Nat))
    (c₁ : Cursor) (counter a l : Nat) (array length : Val) (state : Int64 × Vars) (w : World)
    (s : State Nat) : Prop :=
  ∃ fr', s = .running fr' callers w ∧ Reaches F (env.map Prod.snd) c fr c₁ fr' ∧
    Enters F c₁ fr' env state.2 ∧ fr'.slots counter = some (.int state.1) ∧ Holds F fr' a array ∧
    Holds F fr' l length

variable {c₅ c₆ c₇ c₈ : Cursor}

/-- A round of a loop over an array whose blocks are made at `c₂`. -/
theorem forRound_sim {more m : Nat} {inner : Slots}
    (sim : Simulates fns oracle F callers k call ((name, c₅.func.slots.length) :: env) body)
    (known : ∀ p ∈ env, p.2 < c.func.slots.length) (before : Steps c c₂) (ways : Ways c₂ c₃ c₅ c₈)
    (inside : c₂.block < c₂.func.blocks.size)
    (test : ForTest counter l (c₃.moved c₂.func.blocks.size) more c₄)
    (branched : emit (.condBranch (.own more) (.own (c₂.func.blocks.size + 1))
      (.own (c₂.func.blocks.size + 2))) c₄ = .ok (m, c₅))
    (some : d ≠ .void)
    (element : ForElement counter a c₅.func.slots.length d
      ((c₅.moved (c₂.func.blocks.size + 1)).slotted name d) c₆)
    (ran : stmt ((name, c₅.func.slots.length) :: env) body c₆ = .ok (inner, c₇))
    (round : Rounds counter c₂.func.blocks.size c₇ c₈) (grows : c₈.func.Grows F)
    (newCounter : c.func.slots.length ≤ counter) (oldCounter : counter < c₃.func.slots.length)
    (boundA : a < c₃.func.arena.size) (boundL : l < c₃.func.arena.size) (i : Int64) (vars : Vars)
    (w : World) (s : State Nat)
    (started : ForStarts F c fr env callers (c₃.moved c₂.func.blocks.size) counter a l array length
      (i, vars) w s) :
    (virtual fns oracle).Sim k s
      ((do
        if ← Comp.lift ((Val.int i).less length) then
          let v ← Comp.onHeap (·.load array (.int i))
          return goOn (i + 1, ·) (← inScope vars (exec call k ((name, v) :: vars) body))
        else return .inr (.next vars) : Comp ((Int64 × Vars) ⊕ Flow)) w)
      (RoundEnds (virtual fns oracle)
        (ForStarts F c fr env callers (c₃.moved c₂.func.blocks.size) counter a l array length)
        (Continues (virtual fns oracle) F c fr env callers (c₈.moved (c₂.func.blocks.size + 2))
          env)) := by
  obtain ⟨freshHead, freshBody, freshStop⟩ := ways.fresh inside
  have grows₇ : c₇.func.Grows F := (Steps.of_rounds round).grows.trans grows
  have grows₆ : c₆.func.Grows F := (stmt_steps _ ran).grows.trans grows₇
  have grows₅ : c₅.func.Grows F :=
    (Func.Grows.of_slot _ _).trans ((spans_steps.forElement element).grows.trans grows₆)
  obtain ⟨fr₁, rfl, reaches, enters₁, count, heldA, heldL⟩ := started
  have counting₁ : Counting F (c₃.moved c₂.func.blocks.size) fr₁ counter a l i array length :=
    ⟨oldCounter, boundA, boundL, count, heldA, heldL⟩
  refine Sim.bind (forHead_sim enters₁.ready counting₁ test branched grows₅) ?_
  rintro b w _ ⟨rfl, fr₂, reaches₂, rfl⟩
  have there := reaches.transWithin reaches₂ (by simp)
  have enters₂ := enters₁.reach reaches₂
  cases b with
  | false =>
    exact .pure (freshStop.continues (M := virtual fns oracle) (before.trans ways.third) known there
      enters₂)
  | true =>
    obtain ⟨there₂, entersBody⟩ := freshBody.jump (before.trans ways.second) known there enters₂
    have counting₂ := (counting₁.reach reaches₂ (by simp)).jump (Steps.of_emit branched).grows
      (c₂.func.blocks.size + 1)
    refine Sim.bind (forElement_sim entersBody counting₂ some element grows₆) ?_
    rintro u w _ ⟨fr₃, rfl, reaches₃, isOpen₃, enters₃⟩
    have there₃ := there₂.transWithin reaches₃ (by simp)
    have counting₃ := counting₂.reach reaches₃ (by simp)
    refine Sim.bind (inScope_sim (sim isOpen₃ enters₃ ran grows₇)
      ((List.suffix_cons _ _).trans (stmt_suffix ran)) enters₁.stores.length_eq.symm) ?_
    intro flow w s continues
    cases flow with
    | ret v => exact .pure continues
    | next vars' =>
      obtain ⟨fr₄, rfl, reaches₄, isOpen₄, enters₄⟩ := continues
      have newItem : c.func.slots.length ≤ c₅.func.slots.length :=
        (before.trans ways.second).grows.slots_length
      -- The body does not know the slot of the counter.
      have hidden : ∀ p ∈ env, p.2 ≠ counter := fun p member =>
        Nat.ne_of_lt (Nat.lt_of_lt_of_le (known p member) newCounter)
      have counting₄ := counting₃.reach reaches₄ (by
        simp only [List.map_cons, List.mem_cons, List.mem_map, not_or, not_exists, not_and]
        exact ⟨Nat.ne_of_lt counting₂.slot, fun p member => hidden p member⟩)
      obtain ⟨j, fr₅, got, step, count', c', reaches₅⟩ :
          ∃ j fr', (virtual fns oracle).run j (.running fr₄ callers w) = .running fr' callers w ∧ _ :=
        rounds_run enters₄.ready isOpen₄ counting₄.count round grows
      have there₅ := (there₃.transWithin reaches₄ (by
        simp only [List.map_cons, List.forall_mem_cons]
        exact ⟨fun old => absurd old (Nat.not_lt.2 newItem), fun n member _ => member⟩)).transWithin
          reaches₅ (by simpa using fun old => absurd old (Nat.not_lt.2 newCounter))
      obtain ⟨atHead, entersHead⟩ := freshHead.jump (before.trans ways.first) known there₅
        (enters₄.keep reaches₅ (by simpa using hidden))
      refine ⟨j, by rw [got]; rfl, ?_⟩
      rw [got, step]
      exact ⟨_, rfl, atHead, entersHead, count',
        reaches₅.holds counting₄.boundA counting₄.heldA,
        reaches₅.holds counting₄.boundL counting₄.heldL⟩

/-- The machine makes a round for each element, until one of them returns. -/
theorem forEach_sim (answers : (virtual fns oracle).Answers k call) {p : Pos} {elem t : Ty}
    {e : Expr} (typed : HasType σ Γ e t)
    (sim : ∀ n, Simulates fns oracle F callers k call ((name, n) :: env) body) :
    Simulates fns oracle F callers k call env (.forEach p elem name e body) := by
  intro env' vars c c' fr w _ enters run grows
  obtain ⟨rfl, a, c₁, l, counter, c₂, n, c₃, more, c₄, m, c₅, d, c₆, inner, c₇, c₈, array, start, entered,
    test, branched, -, some, element, ran, round, rfl⟩ := forEach_ok.1 run
  have head := (spans_steps.forTest test).trans (.of_emit branched)
  have arm := (Steps.refl.addSlot some name).trans ((spans_steps.forElement element).trans
    ((stmt_steps _ ran).trans (.of_rounds round)))
  have ways : Ways c₂ c₃ c₅ c₈ := .of_blocks (by decide) (.of_emit entered) head arm
  have grows₃ : c₃.func.Grows F := head.grows.trans (arm.grows.trans grows)
  have grows₂ : c₂.func.Grows F := ways.first.grows.trans grows₃
  rw [exec]
  refine Sim.bind (expr_sim answers e typed enters array
    ((spans_steps.forCounter start).grows.trans grows₂)) ?_
  rintro arrayValue w _ ⟨fr₁, rfl, reaches₁, bound, held⟩
  refine Sim.bind (forCounter_sim (enters.reach reaches₁).ready bound held start grows₂) ?_
  rintro lengthValue w _ ⟨fr₂, rfl, reaches₂, counting⟩
  have there := reaches₁.trans reaches₂
  have enters₂ := enters.reach there
  obtain ⟨freshHead, -, -⟩ := ways.fresh enters₂.ready.inside
  have waits : Waits (virtual fns oracle) (ForStarts F c fr env' callers
      (c₃.moved c₂.func.blocks.size) counter a l arrayValue lengthValue) (0, vars) w
      (.running fr₂ callers w) := by
    have ready : Ready F (withForBlocks c₂) fr₂ := ((enters₂.ready.blocked _).blocked _).blocked _
    obtain ⟨reaches₃, enters₃⟩ := freshHead.jump (there.steps.trans ways.first) enters.known
      (there.weaken (by simp)) enters₂
    refine ⟨rfl, ?_⟩
    rw [branch_step ready entered grows₃]
    exact ⟨_, rfl, reaches₃, enters₃, counting.count, counting.heldA, counting.heldL⟩
  have bounds := counting.jump ways.first.grows c₂.func.blocks.size
  have newCounter : c.func.slots.length ≤ counter :=
    Nat.le_trans reaches₁.steps.grows.slots_length start.new
  exact iterate_sim (m := k) (fun state w s started => forRound_sim (sim _) enters.known there.steps ways
    enters₂.ready.inside test branched some element ran round grows newCounter bounds.slot bounds.boundA
    bounds.boundL state.1 state.2 w s started) (Nat.le_refl k) waits

end Arrays

end Blocks

/-! ## All statements -/

section Simulation

variable {σ : Signatures} {ret : Ty}

/-- Counting up or down changes one variable by one. -/
theorem incr_sim {p : Pos} {name : Text} {decrement : Bool} {env : Slots} :
    Simulates fns oracle F callers k call env (.incr p name decrement) := by
  intro env' vars c c' fr w isOpen enters run grows
  obtain ⟨rfl, n, known, counted⟩ := incr_ok.1 run
  obtain ⟨v, value, held⟩ := enters.stores.lookup known
  have count : (virtual fns oracle).Sim k (.running fr callers w)
      (Comp.lift (ArithOp.apply (if decrement then .sub else .add) [v, .int 1]) w) _ :=
    count_sim enters.ready held counted grows
  have same : ArithOp.apply (if decrement then .sub else .add) [v, .int 1] =
      if decrement then v.sub (.int 1) else v.add (.int 1) := by
    cases decrement <;> rfl
  rw [same] at count
  rw [exec, Vars.get, value]
  change (virtual fns oracle).Sim k _ ((Comp.lift _ >>= fun u =>
    vars.set name u >>= fun vars' => pure (Flow.next vars')) w) _
  refine Sim.bind count ?_
  rintro u w' _ ⟨rfl, fr', rfl, reaches, held', isOpen'⟩
  obtain ⟨vars', assigned, stores⟩ := enters.stores.assign enters.distinct known u
  rw [Vars.set, assigned]
  refine .pure ⟨fr', rfl, reaches.weaken fun s member _ => ?_, isOpen',
    enters.ready.reach reaches, fun p member => ?_, enters.distinct,
    stores.congr fun p member => ?_⟩
  · rw [List.mem_singleton.1 member]
    exact List.mem_map.2 ⟨_, mem_of_lookup known, rfl⟩
  · exact Nat.lt_of_lt_of_le (enters.known p member) reaches.steps.grows.slots_length
  · by_cases same : p.2 = n
    · rw [same, held', Function.update_self]
    · rw [Function.update_of_ne same]
      exact reaches.slots p.2 (enters.known p member) (by simpa using same)

mutual

/-- The code of a statement does what the statement does. -/
theorem stmt_sim (answers : (virtual fns oracle).Answers k call) : ∀ (s : Stmt) {Γ Γ' : Context}
    {env : Slots}, Fits σ ret Γ s Γ' → Simulates fns oracle F callers k call env s
  | .block p body, _, _, env, fits => by
    intro env' vars c c' fr w isOpen enters run grows
    obtain ⟨rfl, inner, ran⟩ := block_ok.1 run
    cases fits with
    | block fits =>
      rw [exec]
      exact inScope_sim (stmts_sim answers body fits isOpen enters ran grows) (stmts_suffix ran)
        enters.stores.length_eq.symm
  | .decl p t items, _, _, env, fits => by
    intro env' vars c c' fr w isOpen enters run grows
    obtain ⟨d, known, ran⟩ := decl_ok.1 run
    cases fits with
    | decl _ declares =>
      rw [exec]
      refine Sim.bind (declare_sim answers known declares isOpen enters ran grows) ?_
      rintro vars' w _ ⟨fr', rfl, reaches, isOpen', enters'⟩
      exact .pure ⟨fr', rfl, reaches.weaken (by simp), isOpen', enters'⟩
  | .assign p target value, _, _, env, fits => by
    intro env' vars c c' fr w isOpen enters run grows
    obtain ⟨rfl, ran⟩ := assign_stmt_ok.1 run
    cases fits with
    | assign _ left right =>
      rw [exec]
      refine Sim.bind (assign_sim answers left right enters ran grows) ?_
      rintro vars' w _ assigned
      exact .pure assigned
  | .incr .., _, _, _, _ => incr_sim
  | .ifThen p x yes, _, _, env, fits => by
    cases fits with
    | ifThen cond fits => exact ifThen_sim answers cond (stmt_sim answers yes fits)
  | .ifElse p x yes no, _, _, env, fits => by
    cases fits with
    | ifElse cond fits fits' =>
      exact ifElse_sim answers cond (stmt_sim answers yes fits) (stmt_sim answers no fits')
  | .while p x body, _, _, env, fits => by
    cases fits with
    | «while» cond fits => exact while_sim answers cond (stmt_sim answers body fits)
  | .forEach p elem name e body, _, _, env, fits => by
    cases fits with
    | forEach whole _ fits => exact forEach_sim answers whole fun n => stmt_sim answers body fits
  | .ret p value, _, _, env, fits => by
    intro env' vars c c' fr w isOpen enters run grows
    obtain ⟨rfl, n, c₁, m, c₂, m', ran, left, marked⟩ := ret_ok.1 run
    have grows₂ := (Steps.of_emit marked).grows.trans grows
    cases fits with
    | ret _ typed =>
      rw [exec]
      refine Sim.bind (expr_sim answers value typed enters ran
        ((Steps.of_emit left).grows.trans grows₂)) ?_
      rintro v w _ ⟨fr₁, rfl, reaches, -, held⟩
      exact ⟨1, ret_step (enters.reach reaches).ready held left grows₂⟩
  | .retVoid p, _, _, env, _ => by
    intro env' vars c c' fr w isOpen enters run grows
    obtain ⟨rfl, m, c₁, m', left, marked⟩ := retVoid_ok.1 run
    rw [exec]
    exact ⟨1, retVoid_step enters.ready left ((Steps.of_emit marked).grows.trans grows)⟩
  | .expr p e, _, _, env, fits => by
    intro env' vars c c' fr w isOpen enters run grows
    obtain ⟨rfl, n, ran⟩ := effect_ok.1 run
    cases fits with
    | expr typed =>
      rw [exec]
      refine Sim.bind (expr_sim answers e typed enters ran grows) ?_
      rintro v w _ ⟨fr₁, rfl, reaches, -, -⟩
      exact .pure ⟨fr₁, rfl, reaches.weaken (by simp), isOpen_of_expr ran enters.ready.inside,
        enters.reach reaches⟩
  | .empty p, _, _, env, _ => by
    intro env' vars c c' fr w isOpen enters run grows
    obtain ⟨rfl, rfl⟩ := empty_ok.1 run
    rw [exec]
    exact .pure ⟨fr, rfl, .refl enters.ready.here, isOpen, enters⟩

/-- The code of statements does what they do one after the other. -/
theorem stmts_sim (answers : (virtual fns oracle).Answers k call) : ∀ (ss : List Stmt)
    {Γ Γ' : Context} {env env' : Slots} {vars : Vars} {c c' : Cursor} {fr : Frame Nat} {w : World},
    FitsAll σ ret Γ ss Γ' → IsOpen c → Enters F c fr env vars → stmts env ss c = .ok (env', c') →
    c'.func.Grows F →
    (virtual fns oracle).Sim k (.running fr callers w) (execs call k vars ss w)
      (Continues (virtual fns oracle) F c fr env callers c' env')
  | [], _, _, _, _, _, _, _, fr, _, _, isOpen, enters, ran, _ => by
    obtain ⟨rfl, rfl⟩ := stmts_nil_ok.1 ran
    rw [execs]
    exact .pure ⟨fr, rfl, .refl enters.ready.here, isOpen, enters⟩
  | s :: ss, _, _, _, _, _, c, _, _, _, fits, isOpen, enters, ran, grows => by
    obtain ⟨env₁, c₁, first, rest⟩ := stmts_cons_ok.1 ran
    cases fits with
    | cons fits fits' =>
      rw [execs]
      refine Sim.bind (stmt_sim answers s fits isOpen enters first
        ((stmts_steps ss rest).grows.trans grows)) ?_
      intro flow w s continues
      cases flow with
      | ret v => exact .pure continues
      | next vars =>
        obtain ⟨fr₁, rfl, reaches, isOpen₁, enters₁⟩ := continues
        exact (stmts_sim answers ss fits' isOpen₁ enters₁ rest grows).imp
          fun _ _ _ => Continues.after reaches (stmt_new first)

end

end Simulation

end ImpCompiler.Lower
