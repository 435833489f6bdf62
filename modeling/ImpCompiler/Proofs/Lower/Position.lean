import ImpCompiler.Proofs.Lower.Steps
import ImpCompiler.Proofs.Semantics.Simulation
import ImpCompiler.Proofs.Semantics.Tree

/-!
# Proofs.Lower.Position — executing what is emitted at a cursor

Lowering and execution go together: while lowering is at a cursor, the machine is about
to execute whatever is put there next. `At` relates an activation of the finished
function to a cursor, and `Reaches` says besides that the activation got there from
another cursor and kept the registers and the slots that were there. One lemma for
each kind of instruction says how the machine gets over what `emit` puts there.
-/

namespace ImpCompiler.Lower

set_option autoImplicit false

open Machine

/-- The activation is about to execute what is put at the cursor next. -/
structure At (F : Func) (c : Cursor) (fr : Frame Nat) : Prop where
  func : fr.func = F
  block : fr.block = c.block
  offset : fr.offset = (c.func.block c.block).instrs.length

def Holds (F : Func) (fr : Frame Nat) (n : Nat) (v : Val) : Prop :=
  ∀ t, F.IsValue n t → fr.values n = some v

/-- The activation got from the cursor `c₀` to the cursor `c` and kept what registers and
slots held, apart from the slots in `changed`. -/
structure Reaches (F : Func) (changed : List Nat) (c₀ : Cursor) (fr₀ : Frame Nat) (c : Cursor)
    (fr : Frame Nat) : Prop where
  here : At F c fr
  steps : Steps c₀ c
  args : fr.args = fr₀.args
  values : ∀ n < c₀.func.arena.size, fr.values n = fr₀.values n
  slots : ∀ s < c₀.func.slots.length, s ∉ changed → fr.slots s = fr₀.slots s

namespace Reaches

variable {F : Func} {changed : List Nat} {c₀ c₁ c₂ : Cursor} {fr₀ fr₁ fr₂ : Frame Nat}

theorem refl (here : At F c₀ fr₀) : Reaches F changed c₀ fr₀ c₀ fr₀ :=
  ⟨here, .refl, rfl, fun _ _ => rfl, fun _ _ _ => rfl⟩

/-- One way after the other; the second may change slots that are new to the first. -/
theorem transWithin {more : List Nat} (first : Reaches F changed c₀ fr₀ c₁ fr₁)
    (second : Reaches F more c₁ fr₁ c₂ fr₂)
    (within : ∀ s ∈ more, s < c₀.func.slots.length → s ∈ changed) :
    Reaches F changed c₀ fr₀ c₂ fr₂ where
  here := second.here
  steps := first.steps.trans second.steps
  args := second.args.trans first.args
  values n old :=
    (second.values n (Nat.lt_of_lt_of_le old first.steps.grows.arena_size)).trans (first.values n old)
  slots s old kept :=
    (second.slots s (Nat.lt_of_lt_of_le old first.steps.grows.slots_length) fun member =>
      kept (within s member old)).trans (first.slots s old kept)

theorem trans (first : Reaches F changed c₀ fr₀ c₁ fr₁) (second : Reaches F changed c₁ fr₁ c₂ fr₂) :
    Reaches F changed c₀ fr₀ c₂ fr₂ :=
  first.transWithin second fun _ member _ => member

/-- A register that was there holds what it held. -/
theorem holds (reaches : Reaches F changed c₀ fr₀ c₁ fr₁) {n : Nat} {v : Val}
    (old : n < c₀.func.arena.size) (held : Holds F fr₀ n v) : Holds F fr₁ n v :=
  fun t value => (reaches.values n old).trans (held t value)

/-- The activation at another cursor with the same registers and old slots. -/
theorem elsewhere (reaches : Reaches F changed c₀ fr₀ c₁ fr₁) (here : At F c₂ fr₂)
    (steps : Steps c₀ c₂) (args : fr₂.args = fr₁.args) (values : fr₂.values = fr₁.values)
    (slots : ∀ s < c₀.func.slots.length, s ∉ changed → fr₂.slots s = fr₁.slots s) :
    Reaches F changed c₀ fr₀ c₂ fr₂ where
  here := here
  steps := steps
  args := args.trans reaches.args
  values n old := by rw [values, reaches.values n old]
  slots s old kept := (slots s old kept).trans (reaches.slots s old kept)

theorem weaken {more : List Nat} (reaches : Reaches F changed c₀ fr₀ c₁ fr₁)
    (all : ∀ s ∈ changed, s < c₀.func.slots.length → s ∈ more) : Reaches F more c₀ fr₀ c₁ fr₁ :=
  { reaches with slots := fun s old kept => reaches.slots s old fun member => kept (all s member old) }

end Reaches

/-! ## The next instruction -/

section Next

variable {F : Func} {c c' : Cursor} {fr : Frame Nat} {fns : Text → Option Func} {oracle : Oracle}
  {callers : List (Frame Nat)} {w : World} {op : Op} {t : DataType} {args : List ValueRef}

/-- The instruction that is put at a cursor is the next one. -/
theorem At.fetch (here : At F c fr) (inside : c.block < c.func.blocks.size)
    {args : List Value} (grows : (c.emitted op t args).func.Grows F) :
    fr.fetch = some (c.func.arena.size, ⟨op, t, args, some c.block, none, .unassigned⟩) := by
  have number : (F.block c.block).instrs[fr.offset]? = some c.func.arena.size := by
    refine grows.instr_at ?_
    rw [here.offset]
    simp [Cursor.emitted, Func.append_block c.func op t args inside]
  have instr : F.arena[c.func.arena.size]? =
      some ⟨op, t, args, some c.block, none, .unassigned⟩ := by
    refine grows.instr ?_
    simp [Cursor.emitted]
  simp [Frame.fetch, here.func, here.block, number, instr]

theorem operands_of_holds {vs : List Val} {b : Option BlockId} {k : Option Nat} {l : Loc}
    (held : List.Forall₂ (fun (a : ValueRef) v => fr.values a.number = some v) args vs) :
    (virtual fns oracle).operands fr
      ⟨op, t, args.map fun a => (a.number : Value), b, k, l⟩ = some vs := by
  simp only [operands, List.mapM_map]
  induction held with
  | nil => rfl
  | cons first _ ih =>
    simp [List.mapM_cons, ih, first]

/-- The step that executes what is emitted. -/
theorem At.step (here : At F c fr) (inside : c.block < c.func.blocks.size) {vs : List Val}
    (grows : (c.emitted op t (args.map fun a => (a.number : Value))).func.Grows F)
    (held : List.Forall₂ (fun (a : ValueRef) v => fr.values a.number = some v) args vs) :
    (virtual fns oracle).step (.running fr callers w) =
      (virtual fns oracle).perform fr callers w (op.effect fr.args fr.slots w vs) := by
  simp only [Machine.step, effect, here.fetch inside grows, operands_of_holds held]

theorem At.emitted (here : At F c fr) (inside : c.block < c.func.blocks.size) (op : Op)
    (t : DataType) (args : List Value) {fr' : Frame Nat} (func : fr'.func = fr.func)
    (block : fr'.block = fr.block) (offset : fr'.offset = fr.offset + 1) :
    At F (c.emitted op t args) fr' where
  func := func.trans here.func
  block := block.trans here.block
  offset := by
    rw [offset, here.offset]
    simp [Cursor.emitted, Func.append_block c.func op t args inside]

/-- The activation behind an instruction that computed `v`. -/
theorem At.resume (fns : Text → Option Func) (oracle : Oracle) (here : At F c fr)
    (inside : c.block < c.func.blocks.size) {r : Request} (planned : c.func.Plans r (op, t, args))
    (grows : (c.emitted op t (args.map fun a => (a.number : Value))).func.Grows F) (v : Val)
    {changed : List Nat} :
    Reaches F changed c fr (c.emitted op t (args.map fun a => (a.number : Value)))
        ((virtual fns oracle).resume fr v) ∧
      Holds F ((virtual fns oracle).resume fr v) c.func.arena.size v := by
  have next := here.fetch inside grows
  refine ⟨⟨?_, .tail .refl (.emit planned), ?_, ?_, ?_⟩, ?_⟩
  · exact here.emitted inside op t _ (by simp [Machine.resume, next]) (by simp [Machine.resume, next])
      (by simp [Machine.resume, next])
  · simp [Machine.resume, next]
  · intro n old
    simp only [Machine.resume, next, write, virtual]
    split
    · exact Function.update_of_ne (Nat.ne_of_lt old) _ _
    · rfl
  · intro s old kept
    simp [Machine.resume, next]
  · rintro u ⟨i, known, hasValue, -, -⟩
    have same := grows.instr (n := c.func.arena.size)
      (i := ⟨op, t, args.map fun a => (a.number : Value), some c.block, none, .unassigned⟩)
      (by simp [Cursor.emitted])
    rw [same, Option.some.injEq] at known
    subst known
    simp [Machine.resume, next, write, virtual, hasValue]

/-- The activation got from the cursor `c₀` to `c` with the value `v` in register `n`. -/
def Computes (F : Func) (c₀ : Cursor) (fr₀ : Frame Nat) (callers : List (Frame Nat)) (c : Cursor)
    (n : Nat) (v : Val) (w : World) (s : State Nat) : Prop :=
  ∃ fr, s = .running fr callers w ∧ Reaches F [] c₀ fr₀ c fr ∧ n < c.func.arena.size ∧ Holds F fr n v

end Next

/-! ## One lemma for each request of lowering -/

section Requests

variable {F : Func} {c c' : Cursor} {fr : Frame Nat} {fns : Text → Option Func} {oracle : Oracle}
  {callers : List (Frame Nat)} {w w' : World} {k n : Nat} {v : Val}

/-- What can be emitted at a cursor and where the machine is then. -/
structure Ready (F : Func) (c : Cursor) (fr : Frame Nat) : Prop where
  here : At F c fr
  inside : c.block < c.func.blocks.size

variable {r : Request} {op : Op} {t : DataType} {args : List ValueRef} {vs : List Val} {u : Val}

theorem Ready.value (ready : Ready F c fr) (planned : c.func.Plans r (op, t, args))
    (grows : (c.emitted op t (args.map fun a => (a.number : Value))).func.Grows F)
    (held : List.Forall₂ (fun (a : ValueRef) v => fr.values a.number = some v) args vs)
    (effect : op.effect fr.args fr.slots w vs = .value v w') :
    Computes F c fr callers (c.emitted op t (args.map fun a => (a.number : Value)))
      c.func.arena.size v w' ((virtual fns oracle).step (.running fr callers w)) := by
  rw [ready.here.step ready.inside grows held, effect]
  obtain ⟨reaches, holds⟩ := ready.here.resume fns oracle ready.inside planned grows v
  exact ⟨_, rfl, reaches, by simp [Cursor.emitted], holds⟩

theorem Ready.fail (ready : Ready F c fr)
    (grows : (c.emitted op t (args.map fun a => (a.number : Value))).func.Grows F)
    (held : List.Forall₂ (fun (a : ValueRef) v => fr.values a.number = some v) args vs)
    {f : Fault} (effect : op.effect fr.args fr.slots w vs = .fail f) :
    (virtual fns oracle).step (.running fr callers w) = .ended ⟨.error f, w⟩ := by
  rw [ready.here.step ready.inside grows held, effect]
  rfl

/-- An instruction that computes a value and leaves the world alone. -/
theorem Ready.lift (ready : Ready F c fr) (planned : c.func.Plans r (op, t, args))
    (grows : (c.emitted op t (args.map fun a => (a.number : Value))).func.Grows F)
    (held : List.Forall₂ (fun (a : ValueRef) v => fr.values a.number = some v) args vs)
    {x : Except Fault Val} (effect : op.effect fr.args fr.slots w vs = .ofValue w x) :
    (virtual fns oracle).Sim k (.running fr callers w) (Comp.lift x w)
      (Computes F c fr callers (c.emitted op t (args.map fun a => (a.number : Value)))
        c.func.arena.size) := by
  cases x with
  | ok v => exact ⟨1, ready.value planned grows held effect⟩
  | error f => exact ⟨1, ready.fail grows held effect⟩

/-- An instruction that computes a value and changes the heap. -/
theorem Ready.changeHeap (ready : Ready F c fr)
    (planned : c.func.Plans r (op, t, args))
    (grows : (c.emitted op t (args.map fun a => (a.number : Value))).func.Grows F)
    (held : List.Forall₂ (fun (a : ValueRef) v => fr.values a.number = some v) args vs)
    {f : Heap → Except Fault (Val × Heap)}
    (effect : op.effect fr.args fr.slots w vs = .ofHeap w (f w.heap)) :
    (virtual fns oracle).Sim k (.running fr callers w) (Comp.changeHeap f w)
      (Computes F c fr callers (c.emitted op t (args.map fun a => (a.number : Value)))
        c.func.arena.size) := by
  unfold Comp.changeHeap
  cases answer : f w.heap with
  | ok p =>
    rw [answer] at effect
    exact ⟨1, ready.value planned grows held effect⟩
  | error e =>
    rw [answer] at effect
    exact ⟨1, ready.fail grows held effect⟩

theorem Holds.value (held : Holds F fr n v) (value : c.func.IsValue n t) (grows : c.func.Grows F) :
    fr.values n = some v :=
  held t (value.grows grows)

/-- Values that need no operands. -/
theorem constant_sim (ready : Ready F c fr) (ran : emit r c = .ok (n, c')) (grows : c'.func.Grows F)
    (constant : ∀ q, c.func.Plans r q → q.2.2 = [] ∧
      q.1.effect fr.args fr.slots w [] = .value v w) :
    (virtual fns oracle).Sim k (.running fr callers w) ((pure v : Comp Val) w)
      (Computes F c fr callers c' n) := by
  obtain ⟨op, t, args, planned, rfl, rfl⟩ := emit_ok.1 ran
  obtain ⟨rfl, effect⟩ := constant _ planned
  exact ⟨1, ready.value planned grows .nil effect⟩

theorem load_sim (ready : Ready F c fr) {s : Nat} (ran : emit (.load s) c = .ok (n, c'))
    (grows : c'.func.Grows F) (held : fr.slots s = some v) :
    (virtual fns oracle).Sim k (.running fr callers w) ((pure v : Comp Val) w)
      (Computes F c fr callers c' n) := by
  refine constant_sim ready ran grows fun q planned => ?_
  cases planned
  exact ⟨rfl, by simp [Op.effect, held]⟩

theorem sign_sim (ready : Ready F c fr) {op : UnOp} {x : Nat} (held : Holds F fr x v)
    (ran : emit (signRequest op x) c = .ok (n, c')) (grows : c'.func.Grows F) :
    (virtual fns oracle).Sim k (.running fr callers w) (Comp.lift (op.apply v) w)
      (Computes F c fr callers c' n) := by
  obtain ⟨o, t, args, planned, rfl, rfl⟩ := emit_ok.1 ran
  have grows' := (Steps.of_emit ran).grows.trans grows
  cases op with
  | neg =>
    cases planned with
    | neg value => exact ready.lift (.neg value) grows (.cons (held.value value grows') .nil) rfl
  | not =>
    cases planned with
    | not value => exact ready.lift (.not value) grows (.cons (held.value value grows') .nil) rfl

theorem arith_sim (ready : Ready F c fr) {op : ArithOp} {x y : Nat} (left : Holds F fr x v)
    (right : Holds F fr y u) (ran : emit (.arith op (.own x) (.own y)) c = .ok (n, c'))
    (grows : c'.func.Grows F) :
    (virtual fns oracle).Sim k (.running fr callers w) (Comp.lift (op.apply [v, u]) w)
      (Computes F c fr callers c' n) := by
  obtain ⟨o, t, args, planned, rfl, rfl⟩ := emit_ok.1 ran
  have grows' := (Steps.of_emit ran).grows.trans grows
  cases planned with
  | arith binary value value' =>
    exact ready.lift (.arith binary value value') grows
      (.cons (left.value value grows') (.cons (right.value value' grows') .nil)) rfl

theorem compare_sim (ready : Ready F c fr) {rel : RelOp} {x y : Nat}
    (left : Holds F fr x v) (right : Holds F fr y u)
    (ran : emit (.compare rel (.own x) (.own y)) c = .ok (n, c')) (grows : c'.func.Grows F) :
    (virtual fns oracle).Sim k (.running fr callers w) (Comp.lift (rel.apply v u) w)
      (Computes F c fr callers c' n) := by
  obtain ⟨o, t, args, planned, rfl, rfl⟩ := emit_ok.1 ran
  have grows' := (Steps.of_emit ran).grows.trans grows
  cases planned with
  | compare value value' =>
    exact ready.lift (.compare value value') grows
      (.cons (left.value value grows') (.cons (right.value value' grows') .nil)) rfl

theorem strict_sim (ready : Ready F c fr) {op : BinOp} {request : Operand → Operand → Request}
    (strict : strictRequest? op = some request) {x y : Nat} (left : Holds F fr x v)
    (right : Holds F fr y u) (ran : emit (request (.own x) (.own y)) c = .ok (n, c'))
    (grows : c'.func.Grows F) :
    (virtual fns oracle).Sim k (.running fr callers w) (Comp.lift (op.apply v u) w)
      (Computes F c fr callers c' n) := by
  cases op <;> cases strict
  case add | sub | mul | div | mod => exact arith_sim ready left right ran grows
  case lt | le | gt | ge | eq | ne => exact compare_sim ready left right ran grows

theorem copy_sim (ready : Ready F c fr) {x : Nat} (held : Holds F fr x v)
    (ran : emit (.copy (.own x)) c = .ok (n, c')) (grows : c'.func.Grows F) :
    (virtual fns oracle).Sim k (.running fr callers w) ((pure v : Comp Val) w)
      (Computes F c fr callers c' n) := by
  obtain ⟨op, t, args, planned, rfl, rfl⟩ := emit_ok.1 ran
  have grows' := (Steps.of_emit ran).grows.trans grows
  cases planned with
  | copy value => exact ⟨1, ready.value (.copy value) grows (.cons (held.value value grows') .nil) rfl⟩

theorem arrayLen_sim (ready : Ready F c fr) {a : Nat} (held : Holds F fr a v)
    (ran : emit (.arrayLen (.own a)) c = .ok (n, c')) (grows : c'.func.Grows F) :
    (virtual fns oracle).Sim k (.running fr callers w) (Comp.onHeap (·.lengthOf v) w)
      (Computes F c fr callers c' n) := by
  obtain ⟨op, t, args, planned, rfl, rfl⟩ := emit_ok.1 ran
  have grows' := (Steps.of_emit ran).grows.trans grows
  cases planned with
  | arrayLen array => exact ready.lift (.arrayLen array) grows (.cons (held.value array grows') .nil) rfl

theorem loadElem_sim (ready : Ready F c fr) {a i : Nat} {d : DataType}
    (array : Holds F fr a v) (index : Holds F fr i u)
    (ran : emit (.loadElem (.own a) (.own i) d) c = .ok (n, c')) (grows : c'.func.Grows F) :
    (virtual fns oracle).Sim k (.running fr callers w) (Comp.onHeap (·.load v u) w)
      (Computes F c fr callers c' n) := by
  obtain ⟨op, t, args, planned, rfl, rfl⟩ := emit_ok.1 ran
  have grows' := (Steps.of_emit ran).grows.trans grows
  cases planned with
  | loadElem value value' =>
    exact ready.lift (.loadElem value value') grows
      (.cons (array.value value grows') (.cons (index.value value' grows') .nil)) rfl

/-- A store to an element; what the computation answers is not in a register. -/
theorem storeElem_sim {α : Type} {answer : α} (ready : Ready F c fr) {a i x : Nat} {u v' : Val}
    (array : Holds F fr a v) (index : Holds F fr i u) (held : Holds F fr x v')
    (ran : emit (.storeElem (.own a) (.own i) (.own x)) c = .ok (n, c')) (grows : c'.func.Grows F) :
    (virtual fns oracle).Sim k (.running fr callers w)
      (Comp.changeHeap (fun h => do return (answer, ← h.store v u v')) w)
      (fun b w' s => b = answer ∧ ∃ fr', s = .running fr' callers w' ∧ Reaches F [] c fr c' fr') := by
  obtain ⟨op, t, args, planned, rfl, rfl⟩ := emit_ok.1 ran
  have grows' := (Steps.of_emit ran).grows.trans grows
  obtain ⟨d, rfl, operands⟩ : ∃ d, op = .storeElem d ∧
      List.Forall₂ (fun (a : ValueRef) v => fr.values a.number = some v) args [v, u, v'] := by
    cases planned with
    | storeElem value value' value'' =>
      exact ⟨_, rfl, .cons (array.value value grows') (.cons (index.value value' grows')
        (.cons (held.value value'' grows') .nil))⟩
  cases stored : w.heap.store v u v' with
  | ok h =>
    have effect : (Op.storeElem d).effect fr.args fr.slots w [v, u, v'] =
        .value .unit { w with heap := h } := by
      simp [Op.effect, stored, Effect.ofHeap, bind, Except.bind, pure, Except.pure]
    obtain ⟨fr', got, reaches, -⟩ : Computes F c fr callers _ _ _ _
        ((virtual fns oracle).step (.running fr callers w)) :=
      ready.value planned grows operands effect
    simp only [Comp.changeHeap, stored, bind, Except.bind, pure, Except.pure]
    exact ⟨1, rfl, fr', got, reaches⟩
  | error f =>
    have effect : (Op.storeElem d).effect fr.args fr.slots w [v, u, v'] = .fail f := by
      simp [Op.effect, stored, Effect.ofHeap, bind, Except.bind]
    simp only [Comp.changeHeap, stored, bind, Except.bind]
    exact ⟨1, ready.fail grows operands effect⟩

def HoldsAll (F : Func) (c : Cursor) (fr : Frame Nat) (ns : List Nat) (vs : List Val) : Prop :=
  List.Forall₂ (fun n v => n < c.func.arena.size ∧ Holds F fr n v) ns vs

/-- The operands of an instruction have the values of their expressions. -/
theorem HoldsAll.operands {ns : List Nat} (held : HoldsAll F c fr ns vs) (grows : c.func.Grows F)
    (values : List.Forall₂ c.func.Accepts (ns.map .own) args) :
    List.Forall₂ (fun (a : ValueRef) v => fr.values a.number = some v) args vs := by
  rw [List.forall₂_map_left_iff] at values
  induction values generalizing vs with
  | nil =>
    cases held
    exact .nil
  | cons first _ ih =>
    obtain ⟨own, value⟩ := first
    cases own
    cases held with
    | cons one rest => exact .cons (one.2.value value grows) (ih rest)

theorem newArray_sim (ready : Ready F c fr) {ns : List Nat} {d : DataType} {dims : Nat}
    (held : HoldsAll F c fr ns vs)
    (ran : emit (.newArray d dims (ns.map .own)) c = .ok (n, c')) (grows : c'.func.Grows F) :
    (virtual fns oracle).Sim k (.running fr callers w)
      (Comp.changeHeap (·.allocate (d.innermost dims vs.length) vs) w)
      (Computes F c fr callers c' n) := by
  obtain ⟨op, t, args, planned, rfl, rfl⟩ := emit_ok.1 ran
  have grows' := (Steps.of_emit ran).grows.trans grows
  cases planned with
  | newArray some enough sizes =>
    exact ready.changeHeap (.newArray some enough sizes) grows
      (held.operands grows' (sizes.imp fun _ _ size => size.1)) rfl

/-- A call runs the function that is called, with the values of the arguments. -/
theorem call_sim {call : Text → List Val → Comp Val} (answers : (virtual fns oracle).Answers k call)
    (ready : Ready F c fr) {name : Text} {ns : List Nat} {d : DataType} (held : HoldsAll F c fr ns vs)
    (ran : emit (.call name d (ns.map .own)) c = .ok (n, c')) (grows : c'.func.Grows F) :
    (virtual fns oracle).Sim k (.running fr callers w) (call name vs w)
      (Computes F c fr callers c' n) := by
  obtain ⟨op, t, args, planned, rfl, rfl⟩ := emit_ok.1 ran
  have grows' := (Steps.of_emit ran).grows.trans grows
  have effect : (virtual fns oracle).effect fr w = .call name vs := by
    cases planned with
    | call values =>
      simp only [Machine.effect, ready.here.fetch ready.inside grows,
        operands_of_holds (held.operands grows' values)]
      rfl
  refine (answers fr callers w name vs effect).imp ?_
  rintro v w' s rfl
  obtain ⟨reaches, holds⟩ := ready.here.resume fns oracle ready.inside planned grows v
  exact ⟨_, rfl, reaches, by simp [Cursor.emitted], holds⟩

/-! ### Instructions without a value -/

/-- A store fills its slot. -/
theorem store_step (ready : Ready F c fr) {s x : Nat} (held : Holds F fr x v)
    (ran : emit (.store s (.own x)) c = .ok (n, c')) (grows : c'.func.Grows F) :
    (virtual fns oracle).step (.running fr callers w) = .running (fr.stored s v) callers w ∧
      Reaches F [s] c fr c' (fr.stored s v) := by
  obtain ⟨op, t, args, planned, rfl, rfl⟩ := emit_ok.1 ran
  have grows' := (Steps.of_emit ran).grows.trans grows
  refine ⟨?_, ?_, .of_emit ran, rfl, fun _ _ => rfl, ?_⟩
  · cases planned with
    | store _ value =>
      rw [ready.here.step ready.inside grows (.cons (held.value value grows') .nil)]
      rfl
  · exact ready.here.emitted ready.inside _ _ _ rfl rfl rfl
  · intro s' old kept
    exact Function.update_of_ne (by simpa using kept) _ _

/-- A jump leads to the start of a block, where a cursor is if the block is empty. -/
theorem At.jump (here : At F c fr) {b : Nat} (empty : (c'.func.block b).instrs = []) :
    At F (c'.moved b) (fr.jump b) :=
  ⟨here.func, rfl, by simp [Frame.jump, empty]⟩

theorem branch_step (ready : Ready F c fr) {b : Nat}
    (ran : emit (.branch (.own b)) c = .ok (n, c')) (grows : c'.func.Grows F) :
    (virtual fns oracle).step (.running fr callers w) = .running (fr.jump b) callers w := by
  obtain ⟨op, t, args, planned, rfl, rfl⟩ := emit_ok.1 ran
  cases planned
  rw [ready.here.step ready.inside grows .nil]
  rfl

/-- A branch on a condition, of which the computation knows the truth value too. -/
theorem condBranch_sim (ready : Ready F c fr) {x yes no : Nat} (held : Holds F fr x v)
    (ran : emit (.condBranch (.own x) (.own yes) (.own no)) c = .ok (n, c'))
    (grows : c'.func.Grows F) :
    (virtual fns oracle).Sim k (.running fr callers w) (Comp.lift v.truth w)
      (fun b w' s => v.truth = .ok b ∧ w' = w ∧
        s = .running (fr.jump (if b then yes else no)) callers w) := by
  obtain ⟨op, t, args, planned, rfl, rfl⟩ := emit_ok.1 ran
  have grows' := (Steps.of_emit ran).grows.trans grows
  have step : (virtual fns oracle).step (.running fr callers w) = (virtual fns oracle).perform fr
      callers w ((Op.condBranch yes no).effect fr.args fr.slots w [v]) := by
    cases planned with
    | condBranch cond =>
      exact ready.here.step ready.inside grows (.cons (held.value cond grows') .nil)
  cases truth : v.truth with
  | ok b =>
    refine ⟨1, rfl, rfl, ?_⟩
    rw [Machine.run, Machine.run, step]
    simp [Op.effect, truth, perform]
  | error f =>
    refine ⟨1, ?_⟩
    rw [Machine.run, Machine.run, step]
    simp [Op.effect, truth, perform]

/-- A return hands its value to the caller. -/
theorem ret_step (ready : Ready F c fr) {x : Nat} (held : Holds F fr x v)
    (ran : emit (.ret (some (.own x))) c = .ok (n, c')) (grows : c'.func.Grows F) :
    (virtual fns oracle).step (.running fr callers w) =
      (virtual fns oracle).giveBack callers v w := by
  obtain ⟨op, t, args, planned, rfl, rfl⟩ := emit_ok.1 ran
  have grows' := (Steps.of_emit ran).grows.trans grows
  cases planned with
  | ret value =>
    rw [ready.here.step ready.inside grows (.cons (held.value value grows') .nil)]
    rfl

theorem retVoid_step (ready : Ready F c fr) (ran : emit (.ret none) c = .ok (n, c'))
    (grows : c'.func.Grows F) :
    (virtual fns oracle).step (.running fr callers w) =
      (virtual fns oracle).giveBack callers .unit w := by
  obtain ⟨op, t, args, planned, rfl, rfl⟩ := emit_ok.1 ran
  cases planned
  rw [ready.here.step ready.inside grows .nil]
  rfl

theorem unreachable_step (ready : Ready F c fr) (ran : emit .unreachable c = .ok (n, c'))
    (grows : c'.func.Grows F) :
    (virtual fns oracle).step (.running fr callers w) = .ended ⟨.error .missingReturn, w⟩ := by
  obtain ⟨op, t, args, planned, rfl, rfl⟩ := emit_ok.1 ran
  cases planned
  rw [ready.here.step ready.inside grows .nil]
  rfl

end Requests

end ImpCompiler.Lower
