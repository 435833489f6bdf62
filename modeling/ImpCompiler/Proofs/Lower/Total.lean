import ImpCompiler.Proofs.Lower.Steps
import ImpCompiler.Proofs.Tree.Types

/-!
# Proofs.Lower.Total — well typed trees are lowered

Requests are checked again when an instruction is made: operands have to be values of
the right types, slots have to hold something. The typing rules imply all of it as long
as no type is an array of void, whose elements a program can name although they have no
value. So lowering a well typed tree without such types never stops.
-/

namespace ImpCompiler

set_option autoImplicit false

/-! ## Types with a data type -/

namespace Ty

/-- A type that is known, and that is no array of void. -/
structure IsPlain (t : Ty) : Prop where
  known : t.base ≠ .error
  full : ¬ t.IsVoidArray

/-- A type whose values can be kept in a slot. -/
structure IsStored (t : Ty) : Prop extends t.IsPlain where
  value : t ≠ Ty.void

variable {t u : Ty}

theorem IsPlain.data (plain : t.IsPlain) : ∃ d, t.data? = some d := by
  obtain ⟨base, dims⟩ := t
  obtain ⟨known, -⟩ := plain
  cases dims <;> cases base <;> simp_all [data?, kind, isArray]

theorem IsStored.data (stored : t.IsStored) : ∃ d, t.data? = some d ∧ d ≠ .void := by
  obtain ⟨base, dims⟩ := t
  obtain ⟨⟨known, -⟩, value⟩ := stored
  cases dims <;> cases base <;> simp_all [data?, kind, isArray, Ty.void]

theorem data?_of_isArray (array : t.isArray = true) : t.data? = some .ptr := by
  simp [data?, kind, array]

theorem data?_of_elem? (elem : t.elem? = some u) : t.data? = some .ptr := by
  obtain ⟨base, dims⟩ := t
  cases dims with
  | zero => cases elem
  | succ n => exact data?_of_isArray rfl

theorem IsPlain.elem (plain : t.IsPlain) (elem : t.elem? = some u) : u.IsStored := by
  obtain ⟨base, dims⟩ := t
  cases dims with
  | zero => cases elem
  | succ n =>
    cases elem
    have notVoid : base ≠ .void := fun void => plain.full ⟨void, rfl⟩
    exact ⟨⟨plain.known, fun void => notVoid void.1⟩, fun void => notVoid (congrArg Ty.base void)⟩

theorem isStored_of_base {b : Base} {n : Nat} (known : b ≠ .error) (value : b ≠ .void) :
    IsStored ⟨b, n⟩ :=
  ⟨⟨known, fun void => value void.1⟩, fun void => value (congrArg Ty.base void)⟩

end Ty

theorem UnOp.accepts_stored {op : UnOp} {t : Ty} (accepts : op.accepts t = true) : t.IsStored := by
  have cases : t = Ty.int ∨ t = Ty.double ∨ t = Ty.boolean := by
    cases op <;> simp [UnOp.accepts] at accepts <;> tauto
  rcases cases with rfl | rfl | rfl <;> exact Ty.isStored_of_base (by decide) (by decide)

theorem BinOp.accepts_stored {op : BinOp} {t : Ty} (accepts : op.accepts t = true) :
    t.IsStored := by
  have cases : t = Ty.int ∨ t = Ty.double ∨ t = Ty.boolean := by
    cases op <;> simp [BinOp.accepts] at accepts <;> tauto
  rcases cases with rfl | rfl | rfl <;> exact Ty.isStored_of_base (by decide) (by decide)

namespace Typing

/-- Signatures of functions that can be lowered. -/
structure Signatures.Plain (σ : Signatures) : Prop where
  params : ∀ name s, σ.lookup name = some s → ∀ t ∈ s.params, t.IsStored
  ret : ∀ name s, σ.lookup name = some s → s.ret.IsPlain

section Expressions

variable {σ : Signatures} {Γ : Context}

mutual

theorem HasType.plain (plain : σ.Plain) (stored : ∀ name t, Γ.lookup name = some t → t.IsStored)
    {e : Expr} {t : Ty} (typed : HasType σ Γ e t) : t.IsPlain := by
  match typed with
  | .typed form => exact form.plain plain stored

/-- Expressions have plain types if the variables and functions do. -/
theorem HasForm.plain (plain : σ.Plain) (stored : ∀ name t, Γ.lookup name = some t → t.IsStored)
    {e : Expr} {t : Ty} (typed : HasForm σ Γ e t) : t.IsPlain := by
  match typed with
  | .int | .double | .bool | .string | .length .. =>
    exact (Ty.isStored_of_base (by decide) (by decide)).toIsPlain
  | .ident known => exact (stored _ _ known).toIsPlain
  | .unary _ operand => exact operand.plain plain stored
  | @HasForm.binary _ _ _ op _ _ t _ left _ =>
    unfold BinOp.result
    split
    · exact (Ty.isStored_of_base (by decide) (by decide)).toIsPlain
    · exact left.plain plain stored
  | .call known _ => exact plain.ret _ _ known
  | .index elem array _ => exact ((array.plain plain stored).elem elem).toIsPlain
  | .new constructible _ _ =>
    refine (Ty.isStored_of_base (fun error => ?_) (fun void => ?_)).toIsPlain
    · rw [error] at constructible
      cases constructible
    · rw [void] at constructible
      cases constructible

end

end Expressions

end Typing

namespace Lower

open Typing

/-! ## Requests that are accepted -/

section Requests

variable {c : Cursor} {r : Request}

theorem emit_effect {planned : Op × DataType × List ValueRef}
    (accepted : c.func.Plans r planned) :
    ∃ n c', emit r c = .ok (n, c') ∧ c.func.Grows c'.func := by
  obtain ⟨op, t, args⟩ := planned
  have ran := emit_ok.2 ⟨op, t, args, accepted, rfl, rfl⟩
  exact ⟨_, _, ran, (Steps.of_emit ran).grows⟩

/-- An instruction that computes something is a value behind it. -/
theorem emit_value {op : Op} {t : DataType} {args : List ValueRef}
    (accepted : c.func.Plans r (op, t, args)) (nonvoid : t ≠ .void) (computes : op.computes = true) :
    ∃ n c', emit r c = .ok (n, c') ∧ c.func.Grows c'.func ∧ c'.func.IsValue n t := by
  have ran := emit_ok.2 ⟨op, t, args, accepted, rfl, rfl⟩
  refine ⟨_, _, ran, (Steps.of_emit ran).grows,
    ⟨op, t, args.map fun v => (v.number : Value), some c.block, none, .unassigned⟩, ?_, ?_, rfl, rfl⟩
  · simp [Cursor.emitted]
  · simp [Instr.hasValue, computes, nonvoid]

theorem emit_load {s : Nat} {slot : Slot} (known : c.func.slots[s]? = some slot)
    (value : slot.type ≠ .void) :
    ∃ n c', emit (.load s) c = .ok (n, c') ∧ c.func.Grows c'.func ∧ c'.func.IsValue n slot.type :=
  emit_value (.load known) value rfl

theorem emit_store {s v : Nat} {slot : Slot} (known : c.func.slots[s]? = some slot)
    (value : c.func.IsValue v slot.type) :
    ∃ n c', emit (.store s (.own v)) c = .ok (n, c') ∧ c.func.Grows c'.func :=
  emit_effect (.store known value)

theorem emit_branch {b : Nat} (inside : b < c.func.blocks.size) :
    ∃ n c', emit (.branch (.own b)) c = .ok (n, c') ∧ c.func.Grows c'.func :=
  emit_effect (.branch inside)

theorem emit_condBranch {v : Nat} (yes no : Nat) (value : c.func.IsValue v .bool)
    (yesInside : yes < c.func.blocks.size) (noInside : no < c.func.blocks.size) :
    ∃ n c', emit (.condBranch (.own v) (.own yes) (.own no)) c = .ok (n, c') ∧
      c.func.Grows c'.func :=
  emit_effect (.condBranch value yesInside noInside)

theorem leaveTo_total {b : Nat} (inside : b < c.func.blocks.size) :
    ∃ c', leaveTo b c = .ok ((), c') ∧ c.func.Grows c'.func := by
  cases ended : (c.func.terminator? c.block).isSome with
  | true => exact ⟨c, leaveTo_ok.2 (.inl ⟨ended, rfl⟩), .refl _⟩
  | false =>
    obtain ⟨n, c', ran, grows⟩ := emit_branch inside
    exact ⟨c', leaveTo_ok.2 (.inr ⟨ended, n, ran⟩), grows⟩

theorem count_total {s : Nat} (op : ArithOp) {name : Text}
    (known : c.func.slots[s]? = some ⟨name, .int⟩) (binary : op ≠ .neg ∧ op ≠ .not) :
    ∃ c', count s op c = .ok ((), c') ∧ c.func.Grows c'.func := by
  obtain ⟨v, c₁, loaded, grows₁, value⟩ := emit_load known (by simp)
  obtain ⟨one, c₂, made, grows₂, unit⟩ :=
    emit_value (c := c₁) (.int (v := 1)) (by decide) rfl
  obtain ⟨w, c₃, added, grows₃, sum⟩ :=
    emit_value (c := c₂) (.arith binary (value.grows grows₂) unit) (by simp) rfl
  have grows := grows₁.trans (grows₂.trans grows₃)
  obtain ⟨n, c₄, stored, grows₄⟩ := emit_store (grows.slot known) sum
  exact ⟨c₄, count_ok.2 ⟨v, c₁, one, c₂, w, c₃, n, loaded, made, added, stored⟩, grows.trans grows₄⟩

/-- A loop over an array gets its counter. -/
theorem forCounter_total (name : Text) {a : Nat} (array : c.func.IsValue a .ptr) :
    ∃ l counter c', ForCounter name a c l counter c' ∧ c.func.Grows c'.func ∧
      c'.func.IsValue l .int ∧ c'.func.slots[counter]? = some ⟨name ++ ".idx", .int⟩ := by
  obtain ⟨l, c₁, len, grows₁, length⟩ := emit_value (.arrayLen array) (by decide) rfl
  have kept : (c₁.slotted (name ++ ".idx") .int).func.slots[c₁.func.slots.length]? =
      some ⟨name ++ ".idx", .int⟩ := by simp [Cursor.slotted]
  obtain ⟨z, c₂, made, grows₂, zero⟩ :=
    emit_value (c := c₁.slotted (name ++ ".idx") .int) (.int (v := 0)) (by decide) rfl
  obtain ⟨n, c', stored, grows₃⟩ := emit_store (grows₂.slot kept) zero
  have rest := (Func.Grows.of_slot c₁.func ⟨name ++ ".idx", .int⟩).trans (grows₂.trans grows₃)
  exact ⟨l, _, c', ⟨len, made, stored⟩, grows₁.trans rest, length.grows rest,
    (grows₂.trans grows₃).slot kept⟩

theorem forTest_total {counter l : Nat} {name : Text}
    (kept : c.func.slots[counter]? = some ⟨name, .int⟩) (length : c.func.IsValue l .int) :
    ∃ more c', ForTest counter l c more c' ∧ c.func.Grows c'.func ∧ c'.func.IsValue more .bool := by
  obtain ⟨k, c₁, loaded, grows₁, count⟩ := emit_load kept (by simp)
  obtain ⟨more, c', compared, grows₂, decision⟩ :=
    emit_value (r := .compare .lt (.own k) (.own l)) (.compare count (length.grows grows₁))
      (by decide) rfl
  exact ⟨more, c', ⟨loaded, compared⟩, grows₁.trans grows₂, decision⟩

theorem forElement_total {counter a s : Nat} {name : Text} {slot : Slot}
    (kept : c.func.slots[counter]? = some ⟨name, .int⟩) (array : c.func.IsValue a .ptr)
    (item : c.func.slots[s]? = some slot) (nonvoid : slot.type ≠ .void) :
    ∃ c', ForElement counter a s slot.type c c' ∧ c.func.Grows c'.func := by
  obtain ⟨k, c₁, loaded, grows₁, count⟩ := emit_load kept (by simp)
  obtain ⟨v, c₂, element, grows₂, value⟩ :=
    emit_value (.loadElem (array.grows grows₁) count) nonvoid rfl
  have grows := grows₁.trans grows₂
  obtain ⟨n, c', stored, grows₃⟩ := emit_store (grows.slot item) value
  exact ⟨c', ⟨loaded, element, stored⟩, grows.trans grows₃⟩

end Requests

/-! ## Expressions -/

/-- What has values of type `t` is a value of its data type. -/
def Valued (f : Func) (n : Nat) (t : Ty) : Prop := ∀ d, t.data? = some d → d ≠ .void → f.IsValue n d

theorem Valued.of_value {f : Func} {n : Nat} {t : Ty} {d : DataType} (known : t.data? = some d)
    (value : f.IsValue n d) : Valued f n t := by
  intro d' known' _
  rw [known] at known'
  cases known'
  exact value

theorem Valued.grows {f g : Func} {n : Nat} {t : Ty} (holds : Valued f n t) (grows : f.Grows g) :
    Valued g n t :=
  fun d known nonvoid => (holds d known nonvoid).grows grows

/-- The variables in scope have slots for values of their types. -/
def Slotted (Γ : Context) (env : Slots) (f : Func) : Prop :=
  ∀ name t, Γ.lookup name = some t → t.IsStored ∧ ∃ s slot, env.lookup name = some s ∧
    f.slots[s]? = some slot ∧ t.data? = some slot.type

namespace Slotted

variable {Γ : Context} {env : Slots} {f g : Func}

theorem grows (slotted : Slotted Γ env f) (grows : f.Grows g) : Slotted Γ env g := by
  intro name t known
  obtain ⟨stored, s, slot, found, kept, typed⟩ := slotted name t known
  exact ⟨stored, s, slot, found, grows.slot kept, typed⟩

theorem stored (slotted : Slotted Γ env f) : ∀ name t, Γ.lookup name = some t → t.IsStored :=
  fun name t known => (slotted name t known).1

/-- A declared variable has a slot of its type. -/
theorem declare {name : Text} {t : Ty} {s : Nat} {slot : Slot} (slotted : Slotted Γ env f)
    (stored : t.IsStored) (kept : f.slots[s]? = some slot) (typed : t.data? = some slot.type) :
    Slotted ((name, t) :: Γ) ((name, s) :: env) f := by
  intro other u known
  rw [List.lookup_cons] at known ⊢
  split at known
  · cases known
    exact ⟨stored, s, slot, rfl, kept, typed⟩
  · exact slotted other u known

end Slotted

section Expressions

variable {σ : Signatures} {Γ : Context} {env : Slots} {c : Cursor} {t : Ty}

/-- Strict operators have an instruction for all types that they accept. -/
theorem strict_total {op : BinOp} {request : Operand → Operand → Request}
    {d : DataType} {v w : Nat} (strict : strictRequest? op = some request)
    (known : t.data? = some d) (nonvoid : d ≠ .void) (left : c.func.IsValue v d)
    (right : c.func.IsValue w d) :
    ∃ n c', emit (request (.own v) (.own w)) c = .ok (n, c') ∧ Valued c'.func n (op.result t) := by
  have arith : ∀ a : ArithOp, a ≠ .neg ∧ a ≠ .not →
      ∃ n c', emit (.arith a (.own v) (.own w)) c = .ok (n, c') ∧ Valued c'.func n t := by
    intro a binary
    obtain ⟨n, c', ran, -, value⟩ :=
      emit_value (.arith binary left right) nonvoid rfl
    exact ⟨n, c', ran, .of_value known value⟩
  have compare : ∀ r : RelOp,
      ∃ n c', emit (.compare r (.own v) (.own w)) c = .ok (n, c') ∧
        Valued c'.func n Ty.boolean := by
    intro r
    obtain ⟨n, c', ran, -, value⟩ :=
      emit_value (.compare left right) (by decide) rfl
    exact ⟨n, c', ran, .of_value rfl value⟩
  cases op <;> cases strict
  case add | sub | mul | div | mod => exact arith _ (by decide)
  case lt | le | gt | ge | eq | ne => exact compare _

/-- Signs have an instruction for all types that they accept. -/
theorem sign_total {op : UnOp} {v : Nat} (accepts : op.accepts t = true)
    (holds : Valued c.func v t) :
    ∃ n c', emit (signRequest op v) c = .ok (n, c') ∧ Valued c'.func n t := by
  obtain ⟨d, data, nonvoid⟩ := (UnOp.accepts_stored accepts).data
  have value := holds d data nonvoid
  cases op with
  | neg =>
    obtain ⟨n, c', ran, -, result⟩ := emit_value (.neg value) nonvoid rfl
    exact ⟨n, c', ran, .of_value data result⟩
  | not =>
    have bool : t = Ty.boolean := by simpa [UnOp.accepts] using accepts
    subst bool
    cases data
    obtain ⟨n, c', ran, -, result⟩ := emit_value (.not value) nonvoid rfl
    exact ⟨n, c', ran, .of_value rfl result⟩

/-- `&&` and `||` can be lowered if their right operand can. -/
theorem shortCircuit_total (op : BinOp) {left : Nat} (right : Lowering Nat)
    (value : c.func.IsValue left .bool)
    (rightTotal : ∀ c₁ : Cursor, c.func.Grows c₁.func →
      ∃ v c₂, right c₁ = .ok (v, c₂) ∧ c₁.func.Grows c₂.func ∧ c₂.func.IsValue v .bool) :
    ∃ n c', shortCircuit op left right c = .ok (n, c') ∧ c'.func.IsValue n .bool := by
  have grows₀ := (Steps.of_prepared op c).grows
  obtain ⟨name, kept⟩ : ∃ name,
      (prepared op c).func.slots[c.func.slots.length]? = some ⟨name, .bool⟩ := by
    simp [prepared, Cursor.slotted]
  have two : (prepared op c).func.blocks.size = c.func.blocks.size + 2 := by simp [prepared]
  obtain ⟨n₁, c₁, stored, grows₁⟩ := emit_store kept (value.grows grows₀)
  have size₁ := grows₁.size
  obtain ⟨n₂, c₂, decided, grows₂⟩ :
      ∃ n₂ c₂, emit (decision op left c.func.blocks.size (c.func.blocks.size + 1)) c₁ =
        .ok (n₂, c₂) ∧ c₁.func.Grows c₂.func := by
    have value₁ := value.grows (grows₀.trans grows₁)
    unfold decision
    split
    · exact emit_condBranch _ _ value₁ (by omega) (by omega)
    · exact emit_condBranch _ _ value₁ (by omega) (by omega)
  obtain ⟨v, c₃, ran, grows₃, answer⟩ :=
    rightTotal (c₂.moved c.func.blocks.size) (grows₀.trans (grows₁.trans grows₂))
  have kept₃ := (grows₁.trans (grows₂.trans grows₃)).slot kept
  obtain ⟨n₃, c₄, stored', grows₄⟩ := emit_store kept₃ answer
  have size₄ := (grows₂.trans (grows₃.trans grows₄)).size
  obtain ⟨n₄, c₅, left', grows₅⟩ := emit_branch (c := c₄) (b := c.func.blocks.size + 1) (by omega)
  obtain ⟨n, c', loaded, -, result⟩ :=
    emit_load (c := c₅.moved (c.func.blocks.size + 1)) ((grows₄.trans grows₅).slot kept₃) (by simp)
  exact ⟨n, c', shortCircuit_ok.2 ⟨n₁, c₁, n₂, c₂, v, c₃, n₃, c₄, n₄, c₅, stored, decided, ran,
    stored', left', loaded⟩, result⟩

theorem copies_total {vs : List Nat} : ∀ {c : Cursor},
    (∀ v ∈ vs, ∃ d, d ≠ .void ∧ c.func.IsValue v d) →
    ∃ ws c', copies vs c = .ok (ws, c') ∧ ∀ w ∈ ws, ∃ d, c'.func.IsValue w d := by
  induction vs with
  | nil =>
    intro c _
    exact ⟨[], c, copies_nil_ok.2 ⟨rfl, rfl⟩, by simp⟩
  | cons v vs ih =>
    intro c values
    obtain ⟨d, nonvoid, value⟩ := values v (by simp)
    obtain ⟨w, c₁, ran, grows, copy⟩ := emit_value (.copy value) nonvoid rfl
    obtain ⟨ws, c', copied, others⟩ := ih (c := c₁) fun u member => by
      obtain ⟨d, nonvoid, value⟩ := values u (by simp [member])
      exact ⟨d, nonvoid, value.grows grows⟩
    refine ⟨w :: ws, c', copies_cons_ok.2 ⟨w, c₁, ws, ran, copied, rfl⟩, ?_⟩
    intro u member
    rcases List.mem_cons.1 member with rfl | member
    · exact ⟨d, copy.grows (spans_steps.copies copied).grows⟩
    · exact others u member

theorem exists_refs {f : Func} {ns : List Nat} (values : ∀ n ∈ ns, ∃ d, f.IsValue n d) :
    ∃ vs, List.Forall₂ f.Accepts (ns.map .own) vs := by
  induction ns with
  | nil => exact ⟨[], .nil⟩
  | cons n ns ih =>
    obtain ⟨d, value⟩ := values n (by simp)
    obtain ⟨vs, others⟩ := ih fun m member => values m (by simp [member])
    exact ⟨⟨n, d⟩ :: vs, .cons ⟨rfl, value⟩ others⟩

theorem constant_total {x : Expr} {r : Request} {op : Op} {d : DataType}
    {args : List ValueRef} (same : form env t x = emit r) (accepted : c.func.Plans r (op, d, args))
    (data : t.data? = some d) (nonvoid : d ≠ .void) (computes : op.computes = true) :
    ∃ n c', form env t x c = .ok (n, c') ∧ Valued c'.func n t := by
  obtain ⟨n, c', ran, -, value⟩ := emit_value accepted nonvoid computes
  exact ⟨n, c', same ▸ ran, .of_value data value⟩

/-- The right operand is lowered wherever the code of the left one may have led to. -/
theorem binary_total {op : BinOp} {x y : Expr} {p : Pos} {v : Nat} {c c₁ : Cursor}
    (accepts : op.accepts t = true) (ranLeft : expr env x c = .ok (v, c₁)) (left : Valued c₁.func v t)
    (right : ∀ c₂ : Cursor, c₁.func.Grows c₂.func →
      ∃ w c₃, expr env y c₂ = .ok (w, c₃) ∧ Valued c₃.func w t) :
    ∃ n c', form env (op.result t) (.binary p op x y) c = .ok (n, c') ∧
      Valued c'.func n (op.result t) := by
  obtain ⟨d, data, nonvoid⟩ := (BinOp.accepts_stored accepts).data
  have value := left d data nonvoid
  cases kind : strictRequest? op with
  | some request =>
    obtain ⟨w, c₂, ranRight, holds⟩ := right c₁ (.refl _)
    obtain ⟨n, c', ran, result⟩ := strict_total kind data nonvoid
      (value.grows (expr_steps y ranRight).grows) (holds d data nonvoid)
    exact ⟨n, c', (strict_ok kind).2 ⟨v, c₁, w, c₂, ranLeft, ranRight, ran⟩, result⟩
  | none =>
    have bool : t = Ty.boolean := by
      cases op <;> first | simpa [BinOp.accepts] using accepts | cases kind
    subst bool
    cases data
    obtain ⟨n, c', ran, result⟩ := shortCircuit_total op (expr env y) value fun c₂ grows => by
      obtain ⟨w, c₃, ranRight, holds⟩ := right c₂ grows
      exact ⟨w, c₃, ranRight, (expr_steps y ranRight).grows, holds _ rfl nonvoid⟩
    refine ⟨n, c', (logical_ok kind).2 ⟨v, c₁, ranLeft, ran⟩, ?_⟩
    unfold BinOp.result
    rw [ite_self]
    exact .of_value rfl result

/-- Calls of known functions can be lowered. -/
theorem call_total (plain : σ.Plain) {name : Text} {args : List Expr} {p : Pos} {sig : Signature}
    {c c₁ : Cursor} {vs : List Nat} (known : σ.lookup name = some sig)
    (evaluated : exprs env args c = .ok (vs, c₁)) (holds : List.Forall₂ (Valued c₁.func) vs sig.params) :
    ∃ n c', form env sig.ret (.call p name args) c = .ok (n, c') ∧ Valued c'.func n sig.ret := by
  have values : ∀ v ∈ vs, ∃ d, d ≠ .void ∧ c₁.func.IsValue v d := by
    intro v member
    obtain ⟨t, used, typed⟩ := exists_of_forall₂ holds member
    obtain ⟨d, data, nonvoid⟩ := (plain.params _ _ known t used).data
    exact ⟨d, nonvoid, typed d data nonvoid⟩
  obtain ⟨ws, c₂, copied, values⟩ := copies_total values
  obtain ⟨refs, values⟩ := exists_refs values
  obtain ⟨ret, data⟩ := (plain.ret _ _ known).data
  have accepted : c₂.func.Plans (.call name ret (ws.map .own)) (.call name, ret, refs) := .call values
  by_cases void : ret = .void
  · obtain ⟨n, c', ran, -⟩ := emit_effect accepted
    refine ⟨n, c', call_ok.2 ⟨vs, c₁, ws, c₂, ret, evaluated, copied, data, ran⟩, ?_⟩
    intro d known nonvoid
    rw [data] at known
    cases known
    exact absurd void nonvoid
  · obtain ⟨n, c', ran, -, value⟩ := emit_value accepted void rfl
    exact ⟨n, c', call_ok.2 ⟨vs, c₁, ws, c₂, ret, evaluated, copied, data, ran⟩, .of_value data value⟩

/-- Arrays of constructible elements can be made. -/
theorem new_total {elem : Ty} {sizes : List Expr} {p : Pos} {c c₁ : Cursor} {vs : List Nat}
    (constructible : elem.base.isConstructible = true) (nonempty : sizes ≠ [])
    (evaluated : exprs env sizes c = .ok (vs, c₁))
    (holds : List.Forall₂ (Valued c₁.func) vs (List.replicate sizes.length Ty.int)) :
    ∃ n c', form env (elem.arrayOf sizes.length) (.new p elem sizes) c = .ok (n, c') ∧
      Valued c'.func n (elem.arrayOf sizes.length) := by
  have length : vs.length = sizes.length := by simpa using holds.length_eq
  have known : elem.base ≠ .error := by
    intro error
    rw [error] at constructible
    cases constructible
  obtain ⟨d, data⟩ : ∃ d, (elem.arrayOf sizes.length).scalar.data? = some d :=
    Ty.IsPlain.data ⟨known, fun void => by cases void.2⟩
  have nonempty' : vs ≠ [] := by
    rw [← List.length_pos_iff, length]
    exact List.length_pos_iff.2 nonempty
  have array : (elem.arrayOf sizes.length).isArray = true := by
    simp [Ty.isArray, Ty.arrayOf, nonempty]
  have sized : List.Forall₂ (fun o v => c₁.func.Accepts o v ∧ v.type = .int) (vs.map .own)
      (vs.map (⟨·, .int⟩)) := by
    refine List.forall₂_map_left_iff.2 (List.forall₂_map_right_iff.2 (List.forall₂_same.2 ?_))
    intro v member
    obtain ⟨t, used, typed⟩ := exists_of_forall₂ holds member
    cases List.eq_of_mem_replicate used
    exact ⟨⟨rfl, typed .int rfl (by decide)⟩, rfl⟩
  have enough : ((vs.map Operand.own).length : Int) ≤ (elem.arrayOf sizes.length).dims := by
    simp only [List.length_map, length, Ty.arrayOf, Int.toNat_natCast]
    omega
  obtain ⟨n, c', ran, -, value⟩ :=
    emit_value (r := .newArray d (elem.arrayOf sizes.length).dims (vs.map .own))
      (.newArray (by simpa using nonempty') enough sized) (by decide) rfl
  exact ⟨n, c', new_ok.2 ⟨vs, c₁, d, evaluated, data, ran⟩, .of_value (Ty.data?_of_isArray array) value⟩

mutual

/-- A well typed expression is lowered to a value of its type. -/
theorem expr_total (plain : σ.Plain) : ∀ (e : Expr) {t : Ty} {c : Cursor}, HasType σ Γ e t →
    Slotted Γ env c.func → ∃ n c', expr env e c = .ok (n, c') ∧ Valued c'.func n t
  | .typed x _, _, c, typed, slotted => by
    cases typed with
    | typed form =>
      obtain ⟨n, c', ran, holds⟩ := form_total plain x form slotted
      exact ⟨n, c', expr_ok.2 ⟨_, _, rfl, ran⟩, holds⟩
  | .int .., _, _, typed, _ | .double .., _, _, typed, _ | .bool .., _, _, typed, _
  | .string .., _, _, typed, _ | .ident .., _, _, typed, _ | .unary .., _, _, typed, _
  | .binary .., _, _, typed, _ | .call .., _, _, typed, _ | .index .., _, _, typed, _
  | .new .., _, _, typed, _ | .length .., _, _, typed, _ => nomatch typed

theorem form_total (plain : σ.Plain) : ∀ (x : Expr) {t : Ty} {c : Cursor}, HasForm σ Γ x t →
    Slotted Γ env c.func → ∃ n c', form env t x c = .ok (n, c') ∧ Valued c'.func n t
  | .int _ v, _, _, .int, _ =>
    constant_total (r := .int v) (by simp only [form]) .int rfl (by decide) rfl
  | .double _ v, _, _, .double, _ =>
    constant_total (r := .double v) (by simp only [form]) .double rfl (by decide) rfl
  | .bool _ v, _, _, .bool, _ =>
    constant_total (r := .bool v) (by simp only [form]) .bool rfl (by decide) rfl
  | .string _ v, _, _, .string, _ =>
    constant_total (r := .string v) (by simp only [form]) .string rfl (by decide) rfl
  | .ident _ name, t, c, .ident known, slotted => by
    obtain ⟨stored, s, slot, found, kept, typed⟩ := slotted name t known
    obtain ⟨d, data, nonvoid⟩ := stored.data
    rw [typed] at data
    cases data
    obtain ⟨n, c', ran, -, value⟩ := emit_load kept nonvoid
    exact ⟨n, c', ident_ok.2 ⟨s, found, ran⟩, .of_value typed value⟩
  | .unary _ op x, _, _, .unary accepts operand, slotted => by
    obtain ⟨v, c₁, ran, holds⟩ := expr_total plain x operand slotted
    obtain ⟨n, c', signed, result⟩ := sign_total accepts holds
    exact ⟨n, c', unary_ok.2 ⟨v, c₁, ran, signed⟩, result⟩
  | .binary _ op x y, _, _, .binary accepts left right, slotted => by
    obtain ⟨v, c₁, ran, holds⟩ := expr_total plain x left slotted
    exact binary_total accepts ran holds fun c₂ grows =>
      expr_total plain y right (slotted.grows ((expr_steps x ran).grows.trans grows))
  | .call _ name args, _, _, .call known arguments, slotted => by
    obtain ⟨vs, c₁, evaluated, holds⟩ := exprs_total plain args arguments slotted
    exact call_total plain known evaluated holds
  | .index _ a i, t, c, .index elem array index, slotted => by
    obtain ⟨v, c₁, ranArray, arrayHolds⟩ := expr_total plain a array slotted
    have grows₁ := (expr_steps a ranArray).grows
    obtain ⟨w, c₂, ranIndex, indexHolds⟩ := expr_total plain i index (slotted.grows grows₁)
    have value := (arrayHolds _ (Ty.data?_of_elem? elem) (by decide)).grows
      (expr_steps i ranIndex).grows
    obtain ⟨d, data, nonvoid⟩ := ((array.plain plain slotted.stored).elem elem).data
    obtain ⟨n, c', ran, -, result⟩ :=
      emit_value (.loadElem value (indexHolds _ rfl (by decide))) nonvoid rfl
    exact ⟨n, c', index_ok.2 ⟨v, c₁, w, c₂, d, ranArray, ranIndex, data, ran⟩,
      .of_value data result⟩
  | .new _ elem sizes, _, _, .new constructible nonempty ints, slotted => by
    obtain ⟨vs, c₁, evaluated, holds⟩ := exprs_total plain sizes ints slotted
    exact new_total constructible nonempty evaluated holds
  | .length _ a _, _, c, .length isArray _ array, slotted => by
    obtain ⟨v, c₁, ranArray, holds⟩ := expr_total plain a array slotted
    have value := holds _ (Ty.data?_of_isArray isArray) (by decide)
    obtain ⟨n, c', ran, -, result⟩ :=
      emit_value (.arrayLen value) (by decide) rfl
    exact ⟨n, c', length_ok.2 ⟨v, c₁, ranArray, ran⟩, .of_value rfl result⟩

theorem exprs_total (plain : σ.Plain) : ∀ (es : List Expr) {ts : List Ty} {c : Cursor},
    HasTypes σ Γ es ts → Slotted Γ env c.func →
    ∃ ns c', exprs env es c = .ok (ns, c') ∧ List.Forall₂ (Valued c'.func) ns ts
  | [], _, c, .nil, _ => ⟨[], c, exprs_nil_ok.2 ⟨rfl, rfl⟩, .nil⟩
  | e :: es, _, c, .cons first rest, slotted => by
    obtain ⟨n, c₁, ran, holds⟩ := expr_total plain e first slotted
    obtain ⟨ns, c', others, allHold⟩ :=
      exprs_total plain es rest (slotted.grows (expr_steps e ran).grows)
    exact ⟨n :: ns, c', exprs_cons_ok.2 ⟨n, c₁, ns, ran, others, rfl⟩,
      .cons (holds.grows (spans_steps.exprs es others).grows) allHold⟩

end

end Expressions

/-! ## Statements -/

section Statements

variable {σ : Signatures} {ret : Ty}

/-- Every type of values has an initial value. -/
theorem zero_total {d : DataType} {c : Cursor} (nonvoid : d ≠ .void) :
    ∃ n c', zero d c = .ok (n, c') ∧ c'.func.IsValue n d := by
  have made : ∃ r op args, d.zeroRequest? = some r ∧ c.func.Plans r (op, d, args) ∧
      op.computes = true := by
    cases d with
    | int => exact ⟨_, _, _, rfl, .int, rfl⟩
    | double => exact ⟨_, _, _, rfl, .double, rfl⟩
    | bool => exact ⟨_, _, _, rfl, .bool, rfl⟩
    | ptr => exact ⟨_, _, _, rfl, .null, rfl⟩
    | void => exact absurd rfl nonvoid
  obtain ⟨r, op, args, request, accepted, computes⟩ := made
  obtain ⟨n, c', ran, -, value⟩ := emit_value accepted nonvoid computes
  exact ⟨n, c', zero_ok.2 ⟨r, request, ran⟩, value⟩

/-- Declarations of well typed values can be lowered. -/
theorem declare_total (plain : σ.Plain) {t : Ty} {d : DataType} (stored : t.IsStored)
    (data : t.data? = some d) (nonvoid : d ≠ .void) {Γ Γ' : Context} {items : List DeclItem}
    (declares : Declares σ t Γ items Γ') : ∀ {env : Slots} {c : Cursor}, Slotted Γ env c.func →
    ∃ env' c', declare env d items c = .ok (env', c') ∧ Slotted Γ' env' c'.func := by
  induction declares with
  | nil =>
    intro env c slotted
    exact ⟨env, c, declare_nil_ok.2 ⟨rfl, rfl⟩, slotted⟩
  | @cons Γ Γ' item rest start others ih =>
    intro env c slotted
    obtain ⟨v, c₁, ran, value⟩ :
        ∃ v c₁, initial env d item c = .ok (v, c₁) ∧ c₁.func.IsValue v d := by
      unfold initial
      cases init : item.init with
      | none => exact zero_total nonvoid
      | some e =>
        obtain ⟨v, c₁, ran, holds⟩ := expr_total plain e (start e init) slotted
        exact ⟨v, c₁, ran, holds d data nonvoid⟩
    have grows₁ := (spans_steps.initial ran).grows
    have grows₂ : c₁.func.Grows (c₁.slotted item.name d).func := .of_slot _ _
    have kept : (c₁.slotted item.name d).func.slots[c₁.func.slots.length]? =
        some ⟨item.name, d⟩ := by simp [Cursor.slotted]
    obtain ⟨n, c₂, store, grows₃⟩ := emit_store kept (value.grows grows₂)
    obtain ⟨env', c', declared, slotted'⟩ :=
      ih ((slotted.grows (grows₁.trans (grows₂.trans grows₃))).declare stored (grows₃.slot kept) data)
    exact ⟨env', c', declare_cons_ok.2 ⟨v, c₁, n, c₂, ran, nonvoid, store, declared⟩, slotted'⟩

/-- Assignments to assignable expressions can be lowered. -/
theorem assign_total (plain : σ.Plain) {Γ : Context} {env : Slots} {c : Cursor} {p : Pos}
    {target value : Expr} {t : Ty} (slotted : Slotted Γ env c.func) (assignable : Assignable target)
    (left : HasType σ Γ target t) (right : HasType σ Γ value t) :
    ∃ c', assign env p value target.strip c = .ok ((), c') := by
  cases left with
  | typed form =>
    rcases assignable with ⟨q, name, target⟩ | ⟨q, a, i, target⟩
    · cases form <;> cases target
      rename_i known
      change ∃ c', assign env p value (.ident q name) c = _
      obtain ⟨stored, s, slot, found, kept, typed⟩ := slotted name t known
      obtain ⟨d, data, nonvoid⟩ := stored.data
      rw [typed] at data
      cases data
      obtain ⟨v, c₁, ran, holds⟩ := expr_total plain value right slotted
      obtain ⟨n, c', store, -⟩ := emit_store ((expr_steps value ran).grows.slot kept)
        (holds _ typed nonvoid)
      exact ⟨c', assign_ident_ok.2 ⟨s, v, c₁, n, found, ran, store⟩⟩
    · cases form <;> cases target
      rename_i whole elem array index
      change ∃ c', assign env p value (.index q a i) c = _
      obtain ⟨w, c₁, ranArray, arrayHolds⟩ := expr_total plain a array slotted
      have grows₁ := (expr_steps a ranArray).grows
      obtain ⟨k, c₂, ranIndex, indexHolds⟩ := expr_total plain i index (slotted.grows grows₁)
      have grows₂ := (expr_steps i ranIndex).grows
      obtain ⟨v, c₃, ran, holds⟩ :=
        expr_total plain value right (slotted.grows (grows₁.trans grows₂))
      have grows₃ := (expr_steps value ran).grows
      obtain ⟨d, data, nonvoid⟩ := ((array.plain plain slotted.stored).elem elem).data
      obtain ⟨n, c', store, -⟩ := emit_effect (.storeElem
        ((arrayHolds _ (Ty.data?_of_elem? elem) (by decide)).grows (grows₂.trans grows₃))
        ((indexHolds _ rfl (by decide)).grows grows₃) (holds d data nonvoid))
      exact ⟨c', assign_index_ok.2 ⟨w, c₁, k, c₂, v, c₃, n, ranArray, ranIndex, ran, store⟩⟩

theorem rounds_total {c : Cursor} {counter : Nat} (head : Nat) {name : Text}
    (kept : c.func.slots[counter]? = some ⟨name, .int⟩) (inside : head < c.func.blocks.size) :
    ∃ c', Rounds counter head c c' := by
  cases ended : (c.func.terminator? c.block).isSome with
  | true => exact ⟨c, .inl ⟨ended, rfl⟩⟩
  | false =>
    obtain ⟨c₁, counted, grows⟩ := count_total .add kept (by decide)
    obtain ⟨n, c', left, -⟩ := emit_branch (Nat.lt_of_lt_of_le inside grows.size)
    exact ⟨c', .inr ⟨ended, c₁, n, counted, left⟩⟩

/-- The variables in scope have slots, and the function answers with values of the type `ret`. -/
structure Prepared (ret : Ty) (Γ : Context) (env : Slots) (f : Func) : Prop where
  slotted : Slotted Γ env f
  answer : ret.data? = some f.ret

theorem Prepared.grows {Γ : Context} {env : Slots} {f g : Func} (ready : Prepared ret Γ env f)
    (grows : f.Grows g) : Prepared ret Γ env g :=
  ⟨ready.slotted.grows grows, ready.answer.trans (congrArg some grows.ret.symm)⟩

/-- The statement is lowered wherever the variables of `Γ` have slots, and those of `Γ'` have
slots behind it. -/
def Lowers (ret : Ty) (Γ : Context) (s : Stmt) (Γ' : Context) : Prop :=
  ∀ (env : Slots) (c : Cursor), Prepared ret Γ env c.func →
    ∃ env' c', stmt env s c = .ok (env', c') ∧ Prepared ret Γ' env' c'.func

section Nested

variable {Γ Γ' : Context} {s : Stmt} {p : Pos} {x : Expr} {yes no body : Stmt}

/-- A statement that declares nothing around it. -/
theorem Lowers.of_same (total : ∀ (env : Slots) (c : Cursor), Prepared ret Γ env c.func →
    ∃ c', stmt env s c = .ok (env, c')) : Lowers ret Γ s Γ := by
  intro env c ready
  obtain ⟨c', ran⟩ := total env c ready
  exact ⟨env, c', ran, ready.grows (stmt_steps s ran).grows⟩

theorem ifThen_total (plain : σ.Plain) (cond : HasType σ Γ x Ty.boolean) (inner : Lowers ret Γ yes Γ') :
    Lowers ret Γ (.ifThen p x yes) Γ := by
  refine .of_same fun env c ready => ?_
  obtain ⟨v, c₁, ranCond, holds⟩ := expr_total plain x cond ready.slotted
  have grows₁ := (expr_steps x ranCond).grows
  have grows₂ := (Steps.of_withIfBlocks c₁).grows
  obtain ⟨n, c₂, branched, grows₃⟩ := emit_condBranch (c := withIfBlocks c₁)
    c₁.func.blocks.size (c₁.func.blocks.size + 1)
    ((holds _ rfl (by decide)).grows grows₂) (by simp) (by simp)
  have size := grows₃.size
  rw [withIfBlocks_size] at size
  obtain ⟨env', c₃, ran, -⟩ := inner env (c₂.moved c₁.func.blocks.size)
    (ready.grows (grows₁.trans (grows₂.trans grows₃)))
  obtain ⟨c₄, left, -⟩ := leaveTo_total (c := c₃) (b := c₁.func.blocks.size + 1)
    (Nat.lt_of_lt_of_le size (stmt_steps yes ran).grows.size)
  exact ⟨_, ifThen_ok.2 ⟨rfl, v, c₁, n, c₂, env', c₃, c₄, ranCond, branched, ran, left, rfl⟩⟩

theorem ifElse_total {Γ'' : Context} (plain : σ.Plain) (cond : HasType σ Γ x Ty.boolean)
    (first : Lowers ret Γ yes Γ') (second : Lowers ret Γ no Γ'') : Lowers ret Γ (.ifElse p x yes no) Γ := by
  refine .of_same fun env c ready => ?_
  obtain ⟨v, c₁, ranCond, holds⟩ := expr_total plain x cond ready.slotted
  have grows₁ := (expr_steps x ranCond).grows
  have grows₂ := (Steps.of_withIfElseBlocks c₁).grows
  obtain ⟨n, c₂, branched, grows₃⟩ := emit_condBranch (c := withIfElseBlocks c₁)
    c₁.func.blocks.size (c₁.func.blocks.size + 1)
    ((holds _ rfl (by decide)).grows grows₂) (by simp) (by simp)
  have grows := grows₁.trans (grows₂.trans grows₃)
  have size := grows₃.size
  rw [withIfElseBlocks_size] at size
  obtain ⟨env', c₃, ran, -⟩ := first env (c₂.moved c₁.func.blocks.size) (ready.grows grows)
  have grows₄ := (stmt_steps yes ran).grows
  obtain ⟨c₄, left, grows₅⟩ := leaveTo_total (c := c₃) (b := c₁.func.blocks.size + 2)
    (Nat.lt_of_lt_of_le size grows₄.size)
  obtain ⟨env'', c₅, ran', -⟩ := second env (c₄.moved (c₁.func.blocks.size + 1))
    (ready.grows (grows.trans (grows₄.trans grows₅)))
  have grows₆ := (stmt_steps no ran').grows
  obtain ⟨c₆, left', -⟩ := leaveTo_total (c := c₅) (b := c₁.func.blocks.size + 2)
    (Nat.lt_of_lt_of_le size (grows₄.trans (grows₅.trans grows₆)).size)
  exact ⟨_, ifElse_ok.2 ⟨rfl, v, c₁, n, c₂, env', c₃, c₄, env'', c₅, c₆, ranCond, branched,
    ran, left, ran', left', rfl⟩⟩

theorem while_total (plain : σ.Plain) (cond : HasType σ Γ x Ty.boolean) (inner : Lowers ret Γ body Γ') :
    Lowers ret Γ (.while p x body) Γ := by
  refine .of_same fun env c ready => ?_
  have grows₁ := (Steps.of_withWhileBlocks c).grows
  obtain ⟨n, c₁, entered, grows₂⟩ := emit_branch (c := withWhileBlocks c)
    (b := c.func.blocks.size) (by simp)
  have size := grows₂.size
  rw [withWhileBlocks_size] at size
  obtain ⟨v, c₂, ranCond, holds⟩ := expr_total plain x (c := c₁.moved c.func.blocks.size) cond
    (ready.slotted.grows (grows₁.trans grows₂))
  have grows₃ : c₁.func.Grows c₂.func := (expr_steps x ranCond).grows
  have size₂ := grows₃.size
  obtain ⟨m, c₃, branched, grows₄⟩ := emit_condBranch (c := c₂)
    (c.func.blocks.size + 1) (c.func.blocks.size + 2)
    (holds _ rfl (by decide)) (by omega) (by omega)
  obtain ⟨env', c₄, ran, -⟩ := inner env (c₃.moved (c.func.blocks.size + 1))
    (ready.grows (grows₁.trans (grows₂.trans (grows₃.trans grows₄))))
  have grows₅ : c₃.func.Grows c₄.func := (stmt_steps body ran).grows
  have size₄ := (grows₄.trans grows₅).size
  obtain ⟨c₅, left, -⟩ := leaveTo_total (c := c₄) (b := c.func.blocks.size) (by omega)
  exact ⟨_, while_ok.2 ⟨rfl, n, c₁, v, c₂, m, c₃, env', c₄, c₅, entered, ranCond, branched,
    ran, left, rfl⟩⟩

/-- A loop over an array can be lowered if its body can, with the element in scope. -/
theorem forEach_total (plain : σ.Plain) {elem t : Ty} {name : Text} {array : Expr}
    (whole : HasType σ Γ array t) (elems : t.elem? = some elem)
    (inner : Lowers ret ((name, elem) :: Γ) body Γ') : Lowers ret Γ (.forEach p elem name array body) Γ := by
  refine .of_same fun env c ready => ?_
  obtain ⟨a, c₁, ranArray, holds⟩ := expr_total plain array whole ready.slotted
  have isArray := holds _ (Ty.data?_of_elem? elems) (by decide)
  have stored := (whole.plain plain ready.slotted.stored).elem elems
  obtain ⟨d, data, nonvoid⟩ := stored.data
  obtain ⟨l, counter, c₂, start, grows₂, length, kept⟩ := forCounter_total name isArray
  obtain ⟨n, c₃, entered, grows₃⟩ := emit_branch (c := withForBlocks c₂)
    (b := c₂.func.blocks.size) (by simp)
  have size := grows₃.size
  rw [withForBlocks_size] at size
  -- The head.
  have toHead := (Steps.of_withForBlocks c₂).grows.trans grows₃
  obtain ⟨more, c₄, test, grows₄, decision⟩ := forTest_total
    (c := c₃.moved c₂.func.blocks.size) (toHead.slot kept) (length.grows toHead)
  have grows₄ : c₃.func.Grows c₄.func := grows₄
  have size₄ := grows₄.size
  obtain ⟨m, c₅, branched, grows₅⟩ := emit_condBranch (c := c₄) (c₂.func.blocks.size + 1)
    (c₂.func.blocks.size + 2) decision (by omega) (by omega)
  -- The round.
  have inHead := (grows₄.trans grows₅).trans (.of_slot c₅.func ⟨name, d⟩)
  have toRound := toHead.trans inHead
  have item : ((c₅.moved (c₂.func.blocks.size + 1)).slotted name d).func.slots[
      c₅.func.slots.length]? = some ⟨name, d⟩ := by simp [Cursor.slotted]
  obtain ⟨c₆, element, grows₆⟩ := forElement_total (toRound.slot kept)
    (isArray.grows (grows₂.trans toRound)) item nonvoid
  have ready₆ := ready.grows
    ((expr_steps array ranArray).grows.trans (grows₂.trans (toRound.trans grows₆)))
  obtain ⟨env', c₇, ran, -⟩ := inner ((name, c₅.func.slots.length) :: env) c₆
    ⟨ready₆.slotted.declare stored (grows₆.slot item) data, ready₆.answer⟩
  have inRound := grows₆.trans (stmt_steps body ran).grows
  obtain ⟨c₈, round⟩ := rounds_total c₂.func.blocks.size ((toRound.trans inRound).slot kept)
    (Nat.lt_of_lt_of_le (by omega) (inHead.trans inRound).size)
  exact ⟨_, forEach_ok.2 ⟨rfl, a, c₁, l, counter, c₂, n, c₃, more, c₄, m, c₅, d, c₆, env', c₇, c₈,
    ranArray, start, entered, test, branched, data, nonvoid, element, ran, round, rfl⟩⟩

theorem ret_total (plain : σ.Plain) (notVoid : ret ≠ Ty.void) (typed : HasType σ Γ x ret) :
    Lowers ret Γ (.ret p x) Γ := by
  refine .of_same fun env c ready => ?_
  obtain ⟨v, c₁, ran, holds⟩ := expr_total plain x typed ready.slotted
  have nonvoid : c.func.ret ≠ .void := by
    intro void
    have answer := ready.answer
    rw [void] at answer
    exact notVoid (Ty.data?_eq_void.1 answer)
  have value := holds _ ready.answer nonvoid
  rw [← (expr_steps x ran).grows.ret] at value
  obtain ⟨n, c₂, left, -⟩ := emit_effect (.ret value)
  obtain ⟨m, c', marked, -⟩ := emit_effect (c := c₂) .unreachable
  exact ⟨c', ret_ok.2 ⟨rfl, v, c₁, n, c₂, m, ran, left, marked⟩⟩

theorem retVoid_total (void : ret = Ty.void) : Lowers ret Γ (.retVoid p) Γ := by
  refine .of_same fun env c ready => ?_
  have noValue : c.func.ret = .void := by
    have answer := ready.answer
    rw [void] at answer
    exact (Option.some.inj answer).symm
  obtain ⟨n, c₁, left, -⟩ := emit_effect (.retVoid noValue)
  obtain ⟨m, c', marked, -⟩ := emit_effect (c := c₁) .unreachable
  exact ⟨c', retVoid_ok.2 ⟨rfl, n, c₁, m, left, marked⟩⟩

end Nested

mutual

/-- A well typed statement is lowered. -/
theorem stmt_total (plain : σ.Plain) : ∀ (s : Stmt) {Γ Γ' : Context}, Fits σ ret Γ s Γ' →
    (∀ t ∈ s.types, t.IsPlain) → Lowers ret Γ s Γ'
  | .block _ body, _, _, .block inner, named => .of_same fun env c ready => by
    obtain ⟨env', c', ran, -⟩ := stmts_total plain body inner named ready
    exact ⟨c', block_ok.2 ⟨rfl, env', ran⟩⟩
  | .decl _ t items, _, _, .decl notVoid declares, named => by
    intro env c ready
    have stored : t.IsStored := ⟨named t (by simp [Stmt.types]), notVoid⟩
    obtain ⟨d, data, nonvoid⟩ := stored.data
    obtain ⟨env', c', ran, slotted⟩ := declare_total plain stored data nonvoid declares ready.slotted
    exact ⟨env', c', decl_ok.2 ⟨d, data, ran⟩, slotted,
      (ready.grows (spans_steps.declare ran).grows).answer⟩
  | .assign p target value, _, _, .assign assignable left right, _ => .of_same fun env c ready => by
    obtain ⟨c', ran⟩ := assign_total (p := p) plain ready.slotted assignable left right
    exact ⟨c', assign_stmt_ok.2 ⟨rfl, ran⟩⟩
  | .incr _ name decrement, _, _, .incr known, _ => .of_same fun env c ready => by
    obtain ⟨-, s, ⟨slotName, d⟩, found, kept, typed⟩ := ready.slotted name Ty.int known
    cases typed
    obtain ⟨c', counted, -⟩ :=
      count_total (if decrement then .sub else .add) kept (by cases decrement <;> decide)
    exact ⟨c', incr_ok.2 ⟨rfl, s, found, counted⟩⟩
  | .ifThen _ x yes, _, _, .ifThen cond inner, named =>
    ifThen_total plain cond
      (stmt_total plain yes inner fun t member => named t (by simp [Stmt.types, member]))
  | .ifElse _ x yes no, _, _, .ifElse cond inner inner', named =>
    ifElse_total plain cond
      (stmt_total plain yes inner fun t member => named t (by simp [Stmt.types, member]))
      (stmt_total plain no inner' fun t member => named t (by simp [Stmt.types, member]))
  | .while _ x body, _, _, .while cond inner, named =>
    while_total plain cond
      (stmt_total plain body inner fun t member => named t (by simp [Stmt.types, member]))
  | .forEach _ elem name array body, _, _, .forEach whole elems inner, named =>
    forEach_total plain whole elems
      (stmt_total plain body inner fun t member => named t (by simp [Stmt.types, member]))
  | .ret _ value, _, _, .ret notVoid typed, _ => ret_total plain notVoid typed
  | .retVoid _, _, _, .retVoid void, _ => retVoid_total void
  | .expr _ e, _, _, .expr effect, _ => .of_same fun env c ready => by
    obtain ⟨n, c', ran, -⟩ := expr_total plain e effect ready.slotted
    exact ⟨c', effect_ok.2 ⟨rfl, n, ran⟩⟩
  | .empty _, _, _, .empty, _ => .of_same fun env c _ => ⟨c, empty_ok.2 ⟨rfl, rfl⟩⟩

theorem stmts_total (plain : σ.Plain) : ∀ (ss : List Stmt) {Γ Γ' : Context} {env : Slots}
    {c : Cursor}, FitsAll σ ret Γ ss Γ' → (∀ t ∈ Stmt.typesOfAll ss, t.IsPlain) →
    Prepared ret Γ env c.func →
    ∃ env' c', stmts env ss c = .ok (env', c') ∧ Prepared ret Γ' env' c'.func
  | [], _, _, env, c, .nil, _, ready => ⟨env, c, stmts_nil_ok.2 ⟨rfl, rfl⟩, ready⟩
  | s :: rest, _, _, env, c, .cons first others, named, ready => by
    obtain ⟨env₁, c₁, ran, ready₁⟩ := stmt_total plain s first
      (fun t member => named t (by simp [Stmt.typesOfAll, member])) env c ready
    obtain ⟨env', c', ran', ready'⟩ := stmts_total plain rest others
      (fun t member => named t (by simp [Stmt.typesOfAll, member])) ready₁
    exact ⟨env', c', stmts_cons_ok.2 ⟨env₁, c₁, ran, ran'⟩, ready'⟩

end

end Statements

/-! ## Functions -/

section Functions

variable {σ : Signatures}

/-- Every parameter gets a slot. -/
theorem storeParams_total {ps : List Param} {ds : List DataType}
    (typed : List.Forall₂ (fun (q : Param) d => q.type.data? = some d) ps ds)
    (stored : ∀ q ∈ ps, q.type.IsStored) : ∀ {k : Nat} {env : Slots} {Γ : Context} {c : Cursor},
    c.func.params.drop k = ds → Slotted Γ env c.func →
    ∃ env' c', storeParams env k (ps.zip ds) c = .ok (env', c') ∧
      Slotted ((ps.map fun q => (q.name, q.type)).reverse ++ Γ) env' c'.func := by
  induction typed with
  | nil =>
    intro k env Γ c _ slotted
    exact ⟨env, c, storeParams_nil_ok.2 ⟨rfl, rfl⟩, slotted⟩
  | @cons q d ps ds data _ ih =>
    intro k env Γ c rest slotted
    have first := stored q (by simp)
    obtain ⟨d', data', nonvoid⟩ := first.data
    rw [data] at data'
    cases data'
    have grows₁ : c.func.Grows (c.slotted q.name d).func := .of_slot _ _
    have kept : (c.slotted q.name d).func.slots[c.func.slots.length]? = some ⟨q.name, d⟩ := by
      simp [Cursor.slotted]
    have given : c.func.params[k]? = some d := by
      have head := congrArg List.head? rest
      rwa [List.head?_drop] at head
    obtain ⟨v, c₁, got, grows₂, value⟩ :=
      emit_value (c := c.slotted q.name d) (.param given) nonvoid rfl
    obtain ⟨n, c₂, store, grows₃⟩ := emit_store (grows₂.slot kept) value
    have grows := grows₁.trans (grows₂.trans grows₃)
    have rest' : c₂.func.params.drop (k + 1) = ds := by
      rw [grows.params, ← List.tail_drop, rest]
      rfl
    obtain ⟨env', c', ran, slotted'⟩ := ih (fun q member => stored q (by simp [member])) rest'
      ((slotted.grows grows).declare first ((grows₂.trans grows₃).slot kept) data)
    refine ⟨env', c', storeParams_cons_ok.2 ⟨nonvoid, v, c₁, n, c₂, got, store, ran⟩, ?_⟩
    simpa using slotted'

theorem dataTypes_total {ps : List Param} (stored : ∀ q ∈ ps, q.type.IsStored) :
    ∃ ds, List.Forall₂ (fun (q : Param) d => q.type.data? = some d) ps ds := by
  induction ps with
  | nil => exact ⟨[], .nil⟩
  | cons q ps ih =>
    obtain ⟨d, data, -⟩ := (stored q (by simp)).data
    obtain ⟨ds, others⟩ := ih fun q member => stored q (by simp [member])
    exact ⟨d :: ds, .cons data others⟩

/-- The body of a well typed function is lowered. -/
theorem body_total (plain : σ.Plain) {f : FuncDef} (named : ∀ t ∈ f.types, t.IsPlain)
    (fits : FitsFunction σ f) (c : Cursor) : ∃ c', body f c = .ok ((), c') := by
  have stored : ∀ q ∈ f.params, q.type.IsStored := fun q member =>
    ⟨named _ (by simp only [FuncDef.types, List.mem_cons, List.mem_append, List.mem_map]
                 exact .inr (.inl ⟨q, member, rfl⟩)), fits.params q member⟩
  obtain ⟨params, typed⟩ := dataTypes_total stored
  obtain ⟨ret, answer⟩ := (named f.ret (by simp [FuncDef.types])).data
  obtain ⟨Γ, fits⟩ := fits.body
  obtain ⟨env, c₁, storedParams, slotted⟩ := storeParams_total typed stored
    (k := 0) (c := opening f ret params) rfl (show Slotted [] [] _ from fun _ _ known => by cases known)
  rw [List.append_nil] at slotted
  have ret₁ : c₁.func.ret = ret := (spans_steps.storeParams storedParams).grows.ret
  obtain ⟨env', c₂, ran, -⟩ := stmts_total plain f.body fits
    (fun t member => named t (by simp [FuncDef.types, member])) ⟨slotted, by rw [ret₁, answer]⟩
  have ret₂ : c₂.func.ret = ret := (stmts_steps f.body ran).grows.ret.trans ret₁
  have closes : ∃ c', Closes ret c₂ c' := by
    cases ended : (c₂.func.terminator? c₂.block).isSome with
    | true => exact ⟨c₂, .inl ⟨ended, rfl⟩⟩
    | false =>
      obtain ⟨planned, accepted⟩ : ∃ planned, c₂.func.Plans (endRequest ret) planned := by
        unfold endRequest
        split
        · exact ⟨_, .retVoid (by rw [ret₂]; assumption)⟩
        · exact ⟨_, .unreachable⟩
      obtain ⟨n, c', ran, -⟩ := emit_effect accepted
      exact ⟨c', .inr ⟨ended, n, ran⟩⟩
  obtain ⟨c', closed⟩ := closes
  exact ⟨c', body_ok.2 ⟨params, ret, env, c₁, env', c₂, typed, answer, storedParams, ran, closed⟩⟩

end Functions

end Lower

end ImpCompiler
