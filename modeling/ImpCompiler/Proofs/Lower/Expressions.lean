import ImpCompiler.Proofs.Lower.Position
import ImpCompiler.Proofs.Typing.Rules

/-!
# Proofs.Lower.Expressions — lowered expressions mean what they meant

The code of an expression computes the value of the expression into the register of
the instruction that lowering answers with, and it faults where the expression does.
The slots of variables hold their values (`Stores`); code of an expression changes
neither them nor any register that was there before it.
-/

namespace ImpCompiler.Lower

set_option autoImplicit false

open Machine Semantics Typing

/-- The slots of variables hold their values. -/
def Stores (env : Slots) (vars : Vars) (slots : Nat → Option Val) : Prop :=
  List.Forall₂ (fun x y => x.1 = y.1 ∧ slots x.2 = some y.2) env vars

namespace Stores

variable {env : Slots} {vars : Vars} {slots slots' : Nat → Option Val}

/-- The slot of a variable holds its value. -/
theorem lookup (stores : Stores env vars slots) {name : Text} {s : Nat}
    (known : env.lookup name = some s) : ∃ v, vars.lookup name = some v ∧ slots s = some v := by
  induction stores with
  | nil => simp at known
  | @cons x y _ _ first _ ih =>
    obtain ⟨x, s'⟩ := x
    obtain ⟨y, v⟩ := y
    obtain ⟨rfl, held⟩ := first
    simp only [List.lookup_cons] at known ⊢
    split at known
    · cases known
      exact ⟨v, rfl, held⟩
    · exact ih known

theorem congr (stores : Stores env vars slots) (same : ∀ p ∈ env, slots' p.2 = slots p.2) :
    Stores env vars slots' := by
  induction stores with
  | nil => exact .nil
  | cons first _ ih =>
    simp only [List.mem_cons, forall_eq_or_imp] at same
    exact .cons ⟨first.1, same.1.trans first.2⟩ (ih same.2)

end Stores

/-- The activation is at the cursor, and the slots of the variables in scope hold their
values. -/
structure Enters (F : Func) (c : Cursor) (fr : Frame Nat) (env : Slots) (vars : Vars) : Prop where
  ready : Ready F c fr
  known : ∀ p ∈ env, p.2 < c.func.slots.length
  distinct : (env.map Prod.snd).Nodup
  stores : Stores env vars fr.slots

variable {F : Func} {env : Slots} {vars : Vars} {callers : List (Frame Nat)}
  {fns : Text → Option Func} {oracle : Oracle} {call : Text → List Val → Comp Val} {k : Nat}
  {c c' : Cursor} {w : World} {op : BinOp}

theorem Enters.keep {fr fr' : Frame Nat} {changed : List Nat}
    (enters : Enters F c fr env vars) (reaches : Reaches F changed c fr c' fr')
    (others : ∀ p ∈ env, p.2 ∉ changed) : Enters F c' fr' env vars where
  ready := ⟨reaches.here, reaches.steps.inside enters.ready.inside⟩
  known p member := Nat.lt_of_lt_of_le (enters.known p member) reaches.steps.grows.slots_length
  distinct := enters.distinct
  stores := enters.stores.congr fun p member =>
    reaches.slots p.2 (enters.known p member) (others p member)

theorem Enters.reach {fr fr' : Frame Nat} (enters : Enters F c fr env vars)
    (reaches : Reaches F [] c fr c' fr') : Enters F c' fr' env vars :=
  enters.keep reaches (by simp)

theorem Reaches.computes {c₀ c c' : Cursor} {fr₀ fr : Frame Nat} {n : Nat} {v : Val}
    {s : State Nat} (reaches : Reaches F [] c₀ fr₀ c fr) (computes : Computes F c fr callers c' n v w s) :
    Computes F c₀ fr₀ callers c' n v w s := by
  obtain ⟨fr', rfl, reaches', bound, held⟩ := computes
  exact ⟨fr', rfl, reaches.trans reaches', bound, held⟩

theorem Reaches.holdsAll {c₀ c₁ : Cursor} {fr₀ fr₁ : Frame Nat} {changed : List Nat} {ns : List Nat}
    {vs : List Val} (reaches : Reaches F changed c₀ fr₀ c₁ fr₁) (held : HoldsAll F c₀ fr₀ ns vs) :
    HoldsAll F c₁ fr₁ ns vs :=
  held.imp fun _ _ fact =>
    ⟨Nat.lt_of_lt_of_le fact.1 reaches.steps.grows.arena_size, reaches.holds fact.1 fact.2⟩

/-- The activation got to the cursor `c` with the values `vs` in registers `ns`. -/
def ComputesAll (F : Func) (c₀ : Cursor) (fr₀ : Frame Nat) (callers : List (Frame Nat)) (c : Cursor)
    (ns : List Nat) (vs : List Val) (w : World) (s : State Nat) : Prop :=
  ∃ fr, s = .running fr callers w ∧ Reaches F [] c₀ fr₀ c fr ∧ HoldsAll F c fr ns vs

theorem copies_sim (ns : List Nat) {vs : List Val} {ms : List Nat}
    {fr : Frame Nat} (ready : Ready F c fr) (held : HoldsAll F c fr ns vs)
    (copied : copies ns c = .ok (ms, c')) (grows : c'.func.Grows F) :
    (virtual fns oracle).Sim k (.running fr callers w) ((pure vs : Comp (List Val)) w)
      (ComputesAll F c fr callers c' ms) := by
  induction ns generalizing vs ms c fr with
  | nil =>
    cases held
    obtain ⟨rfl, rfl⟩ := copies_nil_ok.1 copied
    exact .pure ⟨fr, rfl, .refl ready.here, .nil⟩
  | cons n ns ih =>
    cases held with
    | cons first held =>
      obtain ⟨m, c₁, ms, one, rest, rfl⟩ := copies_cons_ok.1 copied
      obtain ⟨i, fr₁, got, reaches, bound, holds⟩ : (virtual fns oracle).Sim k _ _ _ :=
        copy_sim ready first.2 one ((spans_steps.copies rest).grows.trans grows)
      have ready₁ : Ready F c₁ fr₁ := ⟨reaches.here, reaches.steps.inside ready.inside⟩
      obtain ⟨j, fr₂, got', reaches', all⟩ : (virtual fns oracle).Sim k _ _ _ :=
        ih ready₁ (reaches.holdsAll held) rest
      refine ⟨i + j, fr₂, by rw [run_add, got, got'], reaches.trans reaches', .cons ⟨?_, ?_⟩ all⟩
      · exact Nat.lt_of_lt_of_le bound reaches'.steps.grows.arena_size
      · exact reaches'.holds bound holds

/-! ## The operators that may skip their right operand -/

/-- The machine goes to the right operand unless the left one decides. -/
theorem decision_sim (logical : strictRequest? op = none)
    {fr : Frame Nat} {left n rhs stop : Nat} {v : Val} (ready : Ready F c fr)
    (held : Holds F fr left v) (ran : emit (decision op left rhs stop) c = .ok (n, c'))
    (grows : c'.func.Grows F) :
    (virtual fns oracle).Sim k (.running fr callers w) (Comp.lift v.truth w)
      (fun b w' s => v.truth = .ok b ∧ w' = w ∧
        s = .running (fr.jump (if op.decidedBy b then stop else rhs)) callers w) := by
  cases op <;> cases logical
  case and =>
    refine (condBranch_sim ready held ran grows).imp ?_
    rintro b w' s ⟨truth, rfl, rfl⟩
    exact ⟨truth, rfl, by cases b <;> rfl⟩
  case or =>
    refine (condBranch_sim ready held ran grows).imp ?_
    rintro b w' s ⟨truth, rfl, rfl⟩
    exact ⟨truth, rfl, by cases b <;> rfl⟩

/-- The right operand of `&&` and `||` runs only if the left one does not decide. -/
theorem shortCircuit_sim (logical : strictRequest? op = none) {left n : Nat}
    {right : Lowering Nat} {y : Comp Val} {fr : Frame Nat} {v : Val}
    (enters : Enters F c fr env vars) (held : Holds F fr left v)
    (steps : ∀ {c₁ c₂ : Cursor} {m : Nat}, right c₁ = .ok (m, c₂) → Steps c₁ c₂)
    (sim : ∀ {c₁ c₂ : Cursor} {m : Nat} {fr₁ : Frame Nat} {w : World}, right c₁ = .ok (m, c₂) →
      c₂.func.Grows F → Enters F c₁ fr₁ env vars →
      (virtual fns oracle).Sim k (.running fr₁ callers w) (y w) (Computes F c₁ fr₁ callers c₂ m))
    (ran : shortCircuit op left right c = .ok (n, c')) (grows : c'.func.Grows F) :
    (virtual fns oracle).Sim k (.running fr callers w)
      ((do
        let b ← Comp.lift v.truth
        if op.decidedBy b then return .bool b else y : Comp Val) w)
      (Computes F c fr callers c' n) := by
  obtain ⟨n₁, c₁, n₂, c₂, m, c₃, n₃, c₄, n₄, c₅, stored, decided, ran, stored', left', loaded⟩ :=
    shortCircuit_ok.1 ran
  obtain ⟨toRight, toStop, empty⟩ := Steps.shortCircuit_ways stored decided (steps ran) stored' left'
  obtain ⟨emptyRight, emptyStop⟩ := empty enters.ready.inside
  have grows₅ : c₅.func.Grows F := (Steps.of_emit loaded).grows.trans grows
  have grows₄ : c₄.func.Grows F := (Steps.of_emit left').grows.trans grows₅
  have grows₃ : c₃.func.Grows F := (Steps.of_emit stored').grows.trans grows₄
  have grows₂ : c₂.func.Grows F := (steps ran).grows.trans grows₃
  have grows₁ : c₁.func.Grows F := (Steps.of_emit decided).grows.trans grows₂
  have prepared' : Ready F (prepared op c) fr :=
    ⟨⟨enters.ready.here.func, enters.ready.here.block, by
      simp [prepared, enters.ready.here.offset]⟩, (Steps.of_prepared op c).inside enters.ready.inside⟩
  -- The value of the left operand is stored before it decides.
  obtain ⟨step, reaches⟩ : (virtual fns oracle).step (.running fr callers w) = _ ∧ _ :=
    store_step prepared' held stored grows₁
  have ready₁ : Ready F c₁ (fr.stored c.func.slots.length v) :=
    ⟨reaches.here, reaches.steps.inside prepared'.inside⟩
  refine Sim.mono (Sim.step ?_) (Nat.le_succ k)
  rw [step]
  refine Sim.bind (decision_sim logical ready₁ held decided grows₂) ?_
  rintro b w _ ⟨truth, rfl, rfl⟩
  have away : ∀ s < c.func.slots.length, s ≠ c.func.slots.length := fun s old => Nat.ne_of_lt old
  by_cases decides : op.decidedBy b = true
  · rw [if_pos decides, if_pos decides]
    have value : v = .bool b := by
      cases v <;> cases truth
      rfl
    have there : Reaches F [] c fr (c₅.moved (c.func.blocks.size + 1))
        ((fr.stored c.func.slots.length v).jump (c.func.blocks.size + 1)) :=
      (Reaches.refl enters.ready.here).elsewhere (ready₁.here.jump emptyStop) toStop rfl rfl
        fun s old _ => Function.update_of_ne (away s old) _ _
    refine Sim.imp (load_sim (enters.reach there).ready loaded grows ?_) fun _ _ _ => there.computes
    simp [Frame.jump, Frame.stored, value]
  · rw [if_neg decides, if_neg decides]
    have there : Reaches F [] c fr (c₂.moved c.func.blocks.size)
        ((fr.stored c.func.slots.length v).jump c.func.blocks.size) :=
      (Reaches.refl enters.ready.here).elsewhere (ready₁.here.jump emptyRight) toRight rfl rfl
        fun s old _ => Function.update_of_ne (away s old) _ _
    refine (sim ran grows₃ (enters.reach there)).andThen ?_
    rintro u w _ ⟨fr₃, rfl, reaches₃, -, held'⟩
    have ready₃ := (enters.reach (there.trans reaches₃)).ready
    obtain ⟨step₄, reaches₄⟩ : (virtual fns oracle).step (.running fr₃ callers w) = _ ∧ _ :=
      store_step ready₃ held' stored' grows₄
    have ready₄ : Ready F c₄ (fr₃.stored c.func.slots.length u) :=
      ⟨reaches₄.here, reaches₄.steps.inside ready₃.inside⟩
    have step₅ : (virtual fns oracle).step (.running (fr₃.stored c.func.slots.length u) callers w) = _ :=
      branch_step ready₄ left' grows₅
    have behind : Reaches F [] c fr (c₅.moved (c.func.blocks.size + 1))
        ((fr₃.stored c.func.slots.length u).jump (c.func.blocks.size + 1)) :=
      (there.trans reaches₃).elsewhere (ready₄.here.jump emptyStop) toStop rfl rfl
        fun s old _ => Function.update_of_ne (away s old) _ _
    obtain ⟨j, fits⟩ : (virtual fns oracle).Sim k
        (.running ((fr₃.stored c.func.slots.length u).jump _) callers w) ((pure u : Comp Val) w) _ :=
      load_sim (enters.reach behind).ready loaded grows (by simp [Frame.jump, Frame.stored])
    refine ⟨2 + j, behind.computes ?_⟩
    rw [run_add]
    simpa only [Machine.run, step₄, step₅] using fits

/-! ## All expressions -/

theorem isLogical_of_strict {request : Operand → Operand → Request}
    (strict : strictRequest? op = some request) : op.isLogical = false := by
  cases op <;> first | rfl | cases strict

theorem isLogical_of_not_strict (logical : strictRequest? op = none) : op.isLogical = true := by
  cases op <;> first | rfl | cases logical

/-- Variables start with the same value in the language and in the machine. -/
theorem initialValue_of_data? {t : Ty} {d : DataType} (known : t.data? = some d) :
    d.initialValue = t.initialValue := by
  unfold Ty.data? at known
  unfold Ty.initialValue
  cases kind : t.kind with
  | array =>
    rw [kind] at known
    cases known
    rfl
  | base b =>
    rw [kind] at known
    cases b <;> cases known <;> rfl

/-- An array that is made with `n` sizes holds what the type of its elements says, be
they arrays or not. -/
theorem innermost_eq {elem : Ty} {n : Nat} {d : DataType}
    (known : (elem.arrayOf n).scalar.data? = some d) :
    d.innermost (elem.arrayOf n).dims n = elem.initialValue := by
  obtain ⟨base, dims⟩ := elem
  cases dims with
  | zero =>
    have same : d.initialValue = (⟨base, 0⟩ : Ty).initialValue := initialValue_of_data? known
    rw [← same]
    simp [DataType.innermost, Ty.arrayOf]
  | succ dims =>
    have fewer : (n : Int) < (((⟨base, dims + 1⟩ : Ty).arrayOf n).dims : Int) := by
      simp only [Ty.arrayOf]
      omega
    simp only [DataType.innermost, fewer, if_true]
    rfl

theorem exprs_length : ∀ (es : List Expr) {ns : List Nat} {c c' : Cursor},
    exprs env es c = .ok (ns, c') → ns.length = es.length
  | [], _, _, _, ran => by
    obtain ⟨rfl, -⟩ := exprs_nil_ok.1 ran
    rfl
  | e :: es, _, _, _, ran => by
    obtain ⟨_, _, _, -, rest, rfl⟩ := exprs_cons_ok.1 ran
    simp [exprs_length es rest]

/-- Wherever the code of the expression is entered, it computes the value of the expression. -/
def Evaluates (fns : Text → Option Func) (oracle : Oracle) (k : Nat) (call : Text → List Val → Comp Val)
    (F : Func) (callers : List (Frame Nat)) (env : Slots) (vars : Vars) (e : Expr) : Prop :=
  ∀ {n : Nat} {c c' : Cursor} {fr : Frame Nat} {w : World}, Enters F c fr env vars →
    expr env e c = .ok (n, c') → c'.func.Grows F →
    (virtual fns oracle).Sim k (.running fr callers w) (eval call vars e w)
      (Computes F c fr callers c' n)

section Operands

variable {x y : Expr} {c c₁ c₂ c' : Cursor} {fr : Frame Nat} {w : World} {m m' n : Nat}

theorem operand_sim {z : Val → Comp Val} (first : Evaluates fns oracle k call F callers env vars x)
    (enters : Enters F c fr env vars) (ran : expr env x c = .ok (m, c₁)) (grows : c₁.func.Grows F)
    (last : ∀ {v fr₁ w}, Enters F c₁ fr₁ env vars → Holds F fr₁ m v →
      (virtual fns oracle).Sim k (.running fr₁ callers w) (z v w) (Computes F c₁ fr₁ callers c' n)) :
    (virtual fns oracle).Sim k (.running fr callers w) ((eval call vars x >>= z) w)
      (Computes F c fr callers c' n) := by
  refine Sim.bind (first enters ran grows) ?_
  rintro v w _ ⟨fr₁, rfl, reaches, -, held⟩
  exact (last (enters.reach reaches) held).imp fun _ _ _ => reaches.computes

/-- The code of the second operand leaves the value of the first one where it is. -/
theorem operands_sim {z : Val → Val → Comp Val} (first : Evaluates fns oracle k call F callers env vars x)
    (second : Evaluates fns oracle k call F callers env vars y) (enters : Enters F c fr env vars)
    (left : expr env x c = .ok (m, c₁)) (right : expr env y c₁ = .ok (m', c₂)) (grows : c₂.func.Grows F)
    (last : ∀ {v u fr₂ w}, Enters F c₂ fr₂ env vars → Holds F fr₂ m v → Holds F fr₂ m' u →
      (virtual fns oracle).Sim k (.running fr₂ callers w) (z v u w) (Computes F c₂ fr₂ callers c' n)) :
    (virtual fns oracle).Sim k (.running fr callers w)
      ((eval call vars x >>= fun v => eval call vars y >>= z v) w) (Computes F c fr callers c' n) := by
  refine Sim.bind (first enters left ((expr_steps y right).grows.trans grows)) ?_
  rintro v w _ ⟨fr₁, rfl, reaches, bound, held⟩
  refine Sim.bind (second (enters.reach reaches) right grows) ?_
  rintro u w _ ⟨fr₂, rfl, reaches', -, held'⟩
  have both := reaches.trans reaches'
  exact (last (enters.reach both) (reaches'.holds bound held) held').imp fun _ _ _ => both.computes

/-- Operands run from left to right; `&&` and `||` may not need the right one. -/
theorem binary_sim {op : BinOp} {p : Pos} {t : Ty} (first : Evaluates fns oracle k call F callers env vars x)
    (second : Evaluates fns oracle k call F callers env vars y) (enters : Enters F c fr env vars)
    (ran : form env t (.binary p op x y) c = .ok (n, c')) (grows : c'.func.Grows F) :
    (virtual fns oracle).Sim k (.running fr callers w) (eval call vars (.binary p op x y) w)
      (Computes F c fr callers c' n) := by
  rw [eval]
  cases kind : strictRequest? op with
  | some request =>
    obtain ⟨m, c₁, m', c₂, left, right, ran⟩ := (strict_ok kind).1 ran
    simp only [isLogical_of_strict kind, Bool.false_eq_true, if_false]
    exact operands_sim first second enters left right ((Steps.of_emit ran).grows.trans grows)
      fun enters held held' => strict_sim enters.ready kind held held' ran grows
  | none =>
    obtain ⟨m, c₁, left, ran⟩ := (logical_ok kind).1 ran
    simp only [isLogical_of_not_strict kind, if_true]
    refine operand_sim first enters left
      ((spans_steps.shortCircuit (expr_steps y) ran).grows.trans grows) fun enters held => ?_
    exact shortCircuit_sim kind enters held (expr_steps y)
      (fun right grows enters => second enters right grows) ran grows

/-- A call gets copies of its arguments. -/
theorem copiedCall_sim (answers : (virtual fns oracle).Answers k call) {ns ms : List Nat}
    {vs : List Val} {name : Text} {d : DataType} (enters : Enters F c fr env vars)
    (held : HoldsAll F c fr ns vs) (copied : copies ns c = .ok (ms, c₁))
    (ran : emit (.call name d (ms.map .own)) c₁ = .ok (n, c')) (grows : c'.func.Grows F) :
    (virtual fns oracle).Sim k (.running fr callers w) (call name vs w) (Computes F c fr callers c' n) := by
  obtain ⟨j, fr₁, got, reaches, held'⟩ :
      (virtual fns oracle).Sim k (.running fr callers w) ((pure vs : Comp (List Val)) w) _ :=
    copies_sim ns enters.ready held copied ((Steps.of_emit ran).grows.trans grows)
  have called : (virtual fns oracle).Sim k (.running fr₁ callers w) (call name vs w) _ :=
    call_sim answers (enters.reach reaches).ready held' ran grows
  rw [← got] at called
  exact (Sim.after (called.imp fun _ _ _ => reaches.computes)).mono (Nat.le_add_left k j)

end Operands

section Simulation

variable {σ : Signatures} {Γ : Context}

mutual

/-- The code of an expression computes its value. -/
theorem expr_sim (answers : (virtual fns oracle).Answers k call) : ∀ (e : Expr) {t : Ty},
    HasType σ Γ e t → Evaluates fns oracle k call F callers env vars e
  | .typed x t, _, typed => by
    intro enters ran grows
    obtain ⟨_, _, same, ran⟩ := expr_ok.1 ran
    cases same
    cases typed with
    | typed form =>
      rw [eval]
      exact form_sim answers x form enters ran grows
  | .int .., _, _ | .double .., _, _ | .bool .., _, _ | .string .., _, _ | .ident .., _, _
  | .unary .., _, _ | .binary .., _, _ | .call .., _, _ | .index .., _, _ | .new .., _, _
  | .length .., _, _ => fun _ ran _ => absurd ran not_fail_ok

theorem form_sim (answers : (virtual fns oracle).Answers k call) : ∀ (x : Expr) {t : Ty} {n : Nat}
    {c c' : Cursor} {fr : Frame Nat} {w : World}, HasForm σ Γ x t → Enters F c fr env vars →
    form env t x c = .ok (n, c') → c'.func.Grows F →
    (virtual fns oracle).Sim k (.running fr callers w) (eval call vars x w)
      (Computes F c fr callers c' n)
  | .int .., _, _, _, _, _, _, _, enters, ran, grows | .double .., _, _, _, _, _, _, _, enters, ran, grows
  | .bool .., _, _, _, _, _, _, _, enters, ran, grows
  | .string .., _, _, _, _, _, _, _, enters, ran, grows => by
    simp only [form] at ran
    rw [eval]
    refine constant_sim enters.ready ran grows fun q planned => ?_
    cases planned
    exact ⟨rfl, rfl⟩
  | .ident _ name, _, _, _, _, _, _, _, enters, ran, grows => by
    obtain ⟨s, known, ran⟩ := ident_ok.1 ran
    obtain ⟨v, value, held⟩ := enters.stores.lookup known
    rw [eval, Vars.get, value]
    exact load_sim enters.ready ran grows held
  | .unary _ op x, _, _, _, _, _, _, .unary _ typed, enters, ran, grows => by
    obtain ⟨m, c₁, operand, ran⟩ := unary_ok.1 ran
    rw [eval]
    exact operand_sim (expr_sim answers x typed) enters operand ((Steps.of_emit ran).grows.trans grows)
      fun enters held => sign_sim enters.ready held ran grows
  | .binary _ op x y, _, _, _, _, _, _, .binary _ typed typed', enters, ran, grows =>
    binary_sim (expr_sim answers x typed) (expr_sim answers y typed') enters ran grows
  | .call _ name args, _, _, _, _, _, _, .call _ typed, enters, ran, grows => by
    obtain ⟨ns, c₁, ms, c₂, d, evaluated, copied, -, ran⟩ := call_ok.1 ran
    rw [eval]
    refine Sim.bind (exprs_sim answers args typed enters evaluated
      ((spans_steps.copies copied).grows.trans ((Steps.of_emit ran).grows.trans grows))) ?_
    rintro vs w _ ⟨fr₁, rfl, reaches, held⟩
    exact (copiedCall_sim answers (enters.reach reaches) held copied ran grows).imp
      fun _ _ _ => reaches.computes
  | .index _ a i, _, _, _, _, _, _, .index _ typed typed', enters, ran, grows => by
    obtain ⟨m, c₁, m', c₂, d, array, index, -, ran⟩ := index_ok.1 ran
    rw [eval]
    exact operands_sim (expr_sim answers a typed) (expr_sim answers i typed') enters array index
      ((Steps.of_emit ran).grows.trans grows)
      fun enters held held' => loadElem_sim enters.ready held held' ran grows
  | .new _ elem sizes, _, _, _, _, _, _, .new _ _ typed, enters, ran, grows => by
    obtain ⟨ns, c₁, d, evaluated, known, ran⟩ := new_ok.1 ran
    rw [eval]
    refine Sim.bind (exprs_sim answers sizes typed enters evaluated
      ((Steps.of_emit ran).grows.trans grows)) ?_
    rintro vs w _ ⟨fr₁, rfl, reaches, held⟩
    have made : (virtual fns oracle).Sim k (.running fr₁ callers w) _ _ :=
      newArray_sim (enters.reach reaches).ready held ran grows
    rw [held.length_eq.symm.trans (exprs_length sizes evaluated), innermost_eq known] at made
    exact made.imp fun _ _ _ => reaches.computes
  | .length _ a _, _, _, _, _, _, _, .length _ _ typed, enters, ran, grows => by
    obtain ⟨m, c₁, array, ran⟩ := length_ok.1 ran
    rw [eval]
    exact operand_sim (expr_sim answers a typed) enters array ((Steps.of_emit ran).grows.trans grows)
      fun enters held => arrayLen_sim enters.ready held ran grows
  | .typed .., _, _, _, _, _, _, _, _, ran, _ => absurd ran not_typed_ok

theorem exprs_sim (answers : (virtual fns oracle).Answers k call) : ∀ (es : List Expr) {ts : List Ty}
    {ns : List Nat} {c c' : Cursor} {fr : Frame Nat} {w : World}, HasTypes σ Γ es ts →
    Enters F c fr env vars → exprs env es c = .ok (ns, c') → c'.func.Grows F →
    (virtual fns oracle).Sim k (.running fr callers w) (evals call vars es w)
      (ComputesAll F c fr callers c' ns)
  | [], _, _, _, _, fr, _, _, enters, ran, _ => by
    obtain ⟨rfl, rfl⟩ := exprs_nil_ok.1 ran
    rw [evals]
    exact .pure ⟨fr, rfl, .refl enters.ready.here, .nil⟩
  | e :: es, _, _, _, _, _, _, typed, enters, ran, grows => by
    obtain ⟨n, c₁, ns, first, rest, rfl⟩ := exprs_cons_ok.1 ran
    cases typed with
    | cons typed typed' =>
      rw [evals]
      refine Sim.bind (expr_sim answers e typed enters first
        ((spans_steps.exprs es rest).grows.trans grows)) ?_
      rintro v w _ ⟨fr₁, rfl, reaches, bound, held⟩
      refine Sim.bind (exprs_sim answers es typed' (enters.reach reaches) rest grows) ?_
      rintro vs w _ ⟨fr₂, rfl, reaches', all⟩
      exact .pure ⟨fr₂, rfl, reaches.trans reaches', .cons
        ⟨Nat.lt_of_lt_of_le bound reaches'.steps.grows.arena_size, reaches'.holds bound held⟩ all⟩

end

end Simulation

end ImpCompiler.Lower
