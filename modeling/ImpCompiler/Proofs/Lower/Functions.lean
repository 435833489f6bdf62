import ImpCompiler.Proofs.Lower.Statements

/-!
# Proofs.Lower.Functions — lowered functions mean what they meant

A body gives its parameters slots, executes its statements and marks the end if
control can get there. `body_run` puts the simulations of these together, and
`answers` ties the knot over calls: however many calls may be nested, the machine
with the bodies of a program answers a call as the program does.
-/

namespace ImpCompiler.Lower

set_option autoImplicit false

open Machine Semantics Typing

variable {F : Func} {c c' : Cursor} {fr : Frame Nat} {env env' : Slots} {vars : Vars}
  {callers : List (Frame Nat)} {w : World} {fns : Text → Option Func} {oracle : Oracle}
  {call : Text → List Val → Comp Val} {k : Nat}

/-- The parameters from number `n` on get the arguments from number `n` on. -/
theorem storeParams_sim {params : List Param} {types : List DataType} {n : Nat}
    (all : List.Forall₂ (fun (q : Param) d => q.type.data? = some d) params types)
    (isOpen : IsOpen c) (enters : Enters F c fr env vars)
    (ran : storeParams env n (params.zip types) c = .ok (env', c')) (grows : c'.func.Grows F) :
    (virtual fns oracle).Sim k (.running fr callers w) (bindParams vars params (fr.args.drop n) w)
      (fun vars' w s => ∃ fr', s = .running fr' callers w ∧ IsOpen c' ∧
        Enters F c' fr' env' vars') := by
  induction all generalizing n env vars c fr w with
  | nil =>
    obtain ⟨rfl, rfl⟩ := storeParams_nil_ok.1 ran
    rw [bindParams]
    exact .pure ⟨fr, rfl, isOpen, enters⟩
  | @cons q d params types known _ ih =>
    obtain ⟨some, x, c₁, m, c₂, got, stored, rest⟩ := storeParams_cons_ok.1 ran
    have grows₂ : c₂.func.Grows F := (spans_steps.storeParams rest).grows.trans grows
    have grows₁ : c₁.func.Grows F := (Steps.of_emit stored).grows.trans grows₂
    have ready := enters.ready.slotted q.name d
    obtain ⟨op, t, args, planned, rfl, rfl⟩ := emit_ok.1 got
    obtain ⟨known⟩ := planned
    cases given : fr.args[n]? with
    | none =>
      rw [List.drop_eq_nil_of_le (List.getElem?_eq_none_iff.1 given), bindParams]
      exact ⟨1, ready.fail grows₁ .nil (by simp [Op.effect, given])⟩
    | some v =>
      obtain ⟨inside, found⟩ := List.getElem?_eq_some_iff.1 given
      obtain ⟨fr₁, loaded, reaches, -, held⟩ : Computes F _ fr callers _ _ v w
          ((virtual fns oracle).step (.running fr callers w)) :=
        ready.value (.param known) grows₁ .nil (by simp [Op.effect, given])
      have reaches' : Reaches F [] c fr _ fr₁ :=
        ⟨reaches.here, (Steps.refl.addSlot some q.name).trans reaches.steps, reaches.args,
          reaches.values, fun s old kept =>
            reaches.slots s (by simp [Cursor.slotted]; omega) kept⟩
      obtain ⟨step, both, isOpen', declared⟩ :
          (virtual fns oracle).step (.running fr₁ callers w) = _ ∧ _ :=
        variable_step enters reaches' (Nat.le_refl _) held stored grows₂
      have sim := ih (w := w) isOpen' declared rest
      rw [← step, ← loaded] at sim
      rw [List.drop_eq_getElem_cons inside, found, bindParams]
      rw [show fr.args = (fr₁.stored c.func.slots.length v).args from both.args.symm]
      exact (Sim.step (Sim.step sim)).mono (by omega)

/-- The entry block stays the first one. -/
theorem Steps.entry (steps : Steps c c') (first : c.func.layout.head? = some 0) :
    c'.func.layout.head? = some 0 := by
  refine steps.preserve (P := fun c => c.func.layout.head? = some 0) (fun old c c' step first => ?_)
    first
  cases step with
  | emit => exact first
  | slot => exact first
  | move => exact first
  | block =>
    simp only [Cursor.blocked, Func.addBlock, Func.pushBlock]
    rw [List.head?_append, first]
    rfl

/-- The code of a function does what the function does. -/
theorem body_run {f : FuncDef} {σ : Signatures} (answers : (virtual fns oracle).Answers k call)
    (fits : FitsFunction σ f) {u : Unit} {c₀ : Cursor} (ran : body f c₀ = .ok (u, c))
    (args : List Val) :
    (virtual fns oracle).Sim k (.running ((virtual fns oracle).enter c.func args) callers w)
      (Semantics.run call k f args w) (fun v w s => s = (virtual fns oracle).giveBack callers v w) := by
  obtain ⟨params, ret, env, c₁, env', c₂, all, known, stored, stmts, closed⟩ := body_ok.1 ran
  obtain ⟨Γ, fits⟩ := fits.body
  have grows₂ : c₂.func.Grows c.func := (Steps.of_closes closed).grows
  have grows₁ : c₁.func.Grows c.func := (stmts_steps _ stmts).grows.trans grows₂
  have steps := (spans_steps.storeParams stored).trans ((stmts_steps _ stmts).trans (.of_closes closed))
  have entry : c.func.layout.headD 0 = 0 := by
    rw [List.headD_eq_head?_getD, steps.entry rfl]
    rfl
  have enters : Enters c.func (opening f ret params) ((virtual fns oracle).enter c.func args) [] [] :=
    ⟨⟨⟨rfl, entry, rfl⟩, Nat.one_pos⟩, by simp, by simp, .nil⟩
  unfold Semantics.run
  refine Sim.bind (storeParams_sim all (isOpen_of_empty rfl) enters stored grows₁) ?_
  rintro vars w _ ⟨fr₁, rfl, isOpen, enters⟩
  refine Sim.bind (stmts_sim answers f.body fits isOpen enters stmts grows₂) ?_
  intro flow w s continues
  cases flow with
  | ret v => exact .pure continues
  | next vars =>
    obtain ⟨fr₂, rfl, -, isOpen, enters⟩ := continues
    rcases closed with ⟨ended, -⟩ | ⟨-, n, closed⟩
    · rw [isOpen] at ended
      cases ended
    · simp only [endRequest] at closed
      by_cases void : f.ret = Ty.void
      · have : ret = .void := Option.some.inj (known.symm.trans (Ty.data?_eq_void.2 void))
        rw [if_pos this] at closed
        simp only [if_pos void]
        exact ⟨1, retVoid_step enters.ready closed (.refl _)⟩
      · have : ret ≠ .void := fun same => void (Ty.data?_eq_void.1 (same ▸ known))
        rw [if_neg this] at closed
        simp only [if_neg void]
        exact ⟨1, unreachable_step enters.ready closed (.refl _)⟩

/-- The code of the body of a function, before dead code is removed. -/
def code? (f : FuncDef) : Option Func :=
  match body f ⟨Func.empty f.name .void [], 0⟩ with
  | .ok (_, c) => some c.func
  | .error _ => none

def bodies (p : Program) (oracle : Oracle) : Machine Nat :=
  virtual (fun name => (p.function? name).bind code?) oracle

section Calls

variable {p : Program} {σ : Signatures}

theorem code?_eq_some {f : FuncDef} {F : Func} (known : code? f = some F) :
    ∃ c, body f ⟨Func.empty f.name .void [], 0⟩ = .ok ((), c) ∧ c.func = F := by
  unfold code? at known
  split at known
  · next u c ran => exact ⟨c, ran, Option.some.inj known⟩
  · cases known

theorem bodies_function? (name : Text) :
    (bodies p oracle).function? name = (p.function? name).bind code? := rfl

/-- The machine answers calls as the program does, to any depth. -/
theorem answers (fits : FitsProgram σ p) (total : ∀ f ∈ p.functions, (code? f).isSome = true)
    (n : Nat) : (bodies p oracle).Answers n (p.call oracle n) := by
  induction n with
  | zero =>
    intro fr callers w name vs effect
    cases known : p.function? name with
    | none =>
      simp only [Program.call, known]
      exact builtin_sim effect (by rw [bodies_function?, known, Option.bind_none])
    | some f =>
      simp only [Program.call, known]
      exact (rfl : (State.running fr callers w).isRunning = true)
  | succ n ih =>
    intro fr callers w name vs effect
    cases known : p.function? name with
    | none =>
      simp only [Program.call, known]
      exact builtin_sim effect (by rw [bodies_function?, known, Option.bind_none])
    | some f =>
      have member : f ∈ p.functions := List.mem_of_find?_eq_some known
      obtain ⟨F, code⟩ := Option.isSome_iff_exists.1 (total f member)
      obtain ⟨c, ran, rfl⟩ := code?_eq_some code
      simp only [Program.call, known]
      refine Sim.step ?_
      rw [step_call effect (by rw [bodies_function?, known, Option.bind_some, code])]
      exact body_run ih (fits.functions f member) ran vs

/-- A program ends as the machine with its bodies does. -/
theorem ends_iff_bodies (fits : FitsProgram σ p)
    (total : ∀ f ∈ p.functions, (code? f).isSome = true) {name : Text} {args : List Val}
    {heap : Heap} {o : Outcome} :
    p.Ends oracle name args heap o ↔ (bodies p oracle).Ends name args heap o := by
  unfold Program.Ends Machine.Ends
  cases known : p.function? name with
  | none => simp [bodies_function?, known]
  | some f =>
    have member : f ∈ p.functions := List.mem_of_find?_eq_some known
    obtain ⟨F, code⟩ := Option.isSome_iff_exists.1 (total f member)
    obtain ⟨c, ran, rfl⟩ := code?_eq_some code
    simp only [bodies_function?, known, Option.bind_some, code, Option.some.injEq,
      exists_eq_left']
    exact Sim.ended_iff fun n => body_run (answers fits total n) (fits.functions f member) ran args

end Calls

end ImpCompiler.Lower
