import ImpCompiler.Code.Lower
import ImpCompiler.Proofs.Code.Requests

/-!
# Proofs.Lower.Runs — what a run of lowering consists of

A run `x c = .ok (a, c')` takes a cursor to another. The lemmas `…_ok` say of each
primitive step exactly when it succeeds and where it leads, and of each form of tree
which runs its own run is made of. Proofs about lowering use these and do not look
into its definition.
-/

namespace ImpCompiler

set_option autoImplicit false

/-- The data type of the values of a type, if the type has any. -/
def Ty.data? (t : Ty) : Option DataType :=
  match t.kind with
  | .base .int => some .int
  | .base .double => some .double
  | .base .boolean => some .bool
  | .base .string | .array => some .ptr
  | .base .void => some .void
  | .base .error => none

theorem Ty.data?_eq_void {t : Ty} : t.data? = some .void ↔ t = Ty.void := by
  obtain ⟨base, dims⟩ := t
  cases base <;> cases dims <;> simp [Ty.data?, Ty.kind, Ty.isArray, Ty.void]

/-- The request for the value that a variable of the type starts with. -/
def DataType.zeroRequest? : DataType → Option Request
  | .int => some (.int 0)
  | .double => some (.double Double.zero)
  | .bool => some (.bool false)
  | .ptr => some .null
  | .void => none

namespace Lower

namespace Cursor

def emitted (c : Cursor) (op : Op) (t : DataType) (args : List Value) : Cursor :=
  { c with func := c.func.append c.block op t args }

def slotted (c : Cursor) (name : Text) (t : DataType) : Cursor :=
  { c with func := { c.func with slots := c.func.slots ++ [⟨name, t⟩] } }

def blocked (c : Cursor) (k : LabelKind) : Cursor := { c with func := (c.func.addBlock k).1 }

def moved (c : Cursor) (b : Nat) : Cursor := { c with block := b }

@[simp] theorem moved_func (c : Cursor) (b : Nat) : (c.moved b).func = c.func := rfl

@[simp] theorem moved_block (c : Cursor) (b : Nat) : (c.moved b).block = b := rfl

@[simp] theorem blocked_block (c : Cursor) (k : LabelKind) : (c.blocked k).block = c.block := rfl

@[simp] theorem slotted_block (c : Cursor) (name : Text) (t : DataType) :
    (c.slotted name t).block = c.block := rfl

@[simp] theorem emitted_block (c : Cursor) (op : Op) (t : DataType) (args : List Value) :
    (c.emitted op t args).block = c.block := rfl

@[simp] theorem blocked_size (c : Cursor) (k : LabelKind) :
    (c.blocked k).func.blocks.size = c.func.blocks.size + 1 := by
  simp [blocked]

@[simp] theorem blocked_slots (c : Cursor) (k : LabelKind) :
    (c.blocked k).func.slots = c.func.slots := rfl

@[simp] theorem slotted_size (c : Cursor) (name : Text) (t : DataType) :
    (c.slotted name t).func.blocks.size = c.func.blocks.size := rfl

@[simp] theorem blocked_instrs (c : Cursor) (k : LabelKind) (b : Nat) :
    ((c.blocked k).func.block b).instrs = (c.func.block b).instrs :=
  Func.addBlock_block_instrs c.func k b

@[simp] theorem slotted_instrs (c : Cursor) (name : Text) (t : DataType) (b : Nat) :
    ((c.slotted name t).func.block b).instrs = (c.func.block b).instrs := rfl

@[simp] theorem emitted_size (c : Cursor) (op : Op) (t : DataType) (args : List Value) :
    (c.emitted op t args).func.blocks.size = c.func.blocks.size := by
  simp [emitted]

end Cursor

/-! ## Steps -/

section Steps

variable {α β : Type} {c c' : Cursor}

theorem bind_ok {x : Lowering α} {f : α → Lowering β} {b : β} :
    (x >>= f) c = .ok (b, c') ↔ ∃ a c₁, x c = .ok (a, c₁) ∧ f a c₁ = .ok (b, c') := by
  change (x c >>= fun p => f p.1 p.2) = .ok (b, c') ↔ _
  rw [Except.bind_eq_ok]
  constructor
  · rintro ⟨⟨a, c₁⟩, ran, goes⟩
    exact ⟨a, c₁, ran, goes⟩
  · rintro ⟨a, c₁, ran, goes⟩
    exact ⟨(a, c₁), ran, goes⟩

theorem pure_ok {a b : α} : (pure a : Lowering α) c = .ok (b, c') ↔ b = a ∧ c' = c := by
  change (pure (a, c) : Except LowerStop (α × Cursor)) = _ ↔ _
  simp

theorem discard_ok {x : Lowering α} {u : Unit} :
    (discard x : Lowering Unit) c = .ok (u, c') ↔ ∃ a, x c = .ok (a, c') := by
  change (x >>= fun a => pure ()) c = .ok (u, c') ↔ _
  rw [bind_ok]
  constructor
  · rintro ⟨a, c₁, ran, answer⟩
    obtain ⟨-, rfl⟩ := pure_ok.1 answer
    exact ⟨a, ran⟩
  · rintro ⟨a, ran⟩
    exact ⟨a, c', ran, rfl⟩

theorem not_stopAt_ok {d : Defect} {a : α} : ¬ (stopAt d : Lowering α) c = .ok (a, c') :=
  fun same => nomatch same

theorem not_fail_ok {e : LowerError} {a : α} : ¬ (fail e : Lowering α) c = .ok (a, c') :=
  fun same => nomatch same

theorem onFunc_ok {x : Builder α} {a : α} :
    onFunc x c = .ok (a, c') ↔ ∃ f, x.run.run c.func = (.ok a, f) ∧ c' = { c with func := f } := by
  simp only [onFunc, bind_ok]
  constructor
  · rintro ⟨_, _, got, ran⟩
    cases got
    rcases made : x.run.run c.func with ⟨answer, f⟩
    rw [made] at ran
    cases answer with
    | error e => exact absurd ran not_stopAt_ok
    | ok a =>
      cases ran
      exact ⟨f, rfl, rfl⟩
  · rintro ⟨f, made, rfl⟩
    refine ⟨c, c, rfl, ?_⟩
    rw [made]
    rfl

/-- An instruction is made by the rules for requests. -/
theorem emit_ok {r : Request} {n : Nat} :
    emit r c = .ok (n, c') ↔
      ∃ op t args, c.func.Plans r (op, t, args) ∧ n = c.func.arena.size ∧
        c' = c.emitted op t (args.map fun v => (v.number : Value)) := by
  have here : emit r c = onFunc (Builder.create c.block r) c := rfl
  rw [here, onFunc_ok]
  constructor
  · rintro ⟨f, made, rfl⟩
    obtain ⟨op, t, args, planned, rfl, rfl⟩ := Builder.create_ok.1 made
    exact ⟨op, t, args, planned, rfl, rfl⟩
  · rintro ⟨op, t, args, planned, rfl, rfl⟩
    exact ⟨_, planned.create, rfl⟩

theorem newSlot_ok {name : Text} {t : DataType} {n : Nat} :
    newSlot name t c = .ok (n, c') ↔
      t ≠ .void ∧ n = c.func.slots.length ∧ c' = c.slotted name t := by
  rw [newSlot, onFunc_ok]
  constructor
  · rintro ⟨f, made, rfl⟩
    obtain ⟨some, rfl, rfl⟩ := Builder.slot_ok.1 made
    exact ⟨some, rfl, rfl⟩
  · rintro ⟨some, rfl, rfl⟩
    exact ⟨_, Builder.slot_ok.2 ⟨some, rfl, rfl⟩, rfl⟩

theorem moveTo_ok {b : Nat} {u : Unit} : moveTo b c = .ok (u, c') ↔ c' = c.moved b := by
  change (pure ((), c.moved b) : Except LowerStop (Unit × Cursor)) = _ ↔ _
  simp

-- `id` keeps `simp` from using these two by unfolding, which takes the kernel long on
-- the continuations of loops.
theorem newBlock_bind {k : LabelKind} {f : Nat → Lowering β} :
    (newBlock k >>= f) c = f c.func.blocks.size (c.blocked k) :=
  id rfl

theorem moveTo_bind {b : Nat} {f : Unit → Lowering β} :
    (moveTo b >>= f) c = f () (c.moved b) :=
  id rfl

theorem discard_bind_ok {x : Lowering α} {f : Unit → Lowering β} {b : β} :
    (discard x >>= f) c = .ok (b, c') ↔ ∃ a c₁, x c = .ok (a, c₁) ∧ f () c₁ = .ok (b, c') := by
  simp only [bind_ok, discard_ok]
  constructor
  · rintro ⟨_, c₁, ⟨a, ran⟩, goes⟩
    exact ⟨a, c₁, ran, goes⟩
  · rintro ⟨a, c₁, ran, goes⟩
    exact ⟨(), c₁, ⟨a, ran⟩, goes⟩

theorem newSlot_bind_ok {name : Text} {t : DataType} {f : Nat → Lowering β} {b : β} :
    (newSlot name t >>= f) c = .ok (b, c') ↔
      t ≠ .void ∧ f c.func.slots.length (c.slotted name t) = .ok (b, c') := by
  simp only [bind_ok, newSlot_ok]
  constructor
  · rintro ⟨_, _, ⟨some, rfl, rfl⟩, goes⟩
    exact ⟨some, goes⟩
  · rintro ⟨some, goes⟩
    exact ⟨_, _, ⟨some, rfl, rfl⟩, goes⟩

theorem isTerminated_ok {r : Bool} :
    isTerminated c = .ok (r, c') ↔ r = (c.func.terminator? c.block).isSome ∧ c' = c := by
  change (pure ((c.func.terminator? c.block).isSome, c) : Except LowerStop (Bool × Cursor)) = _ ↔ _
  simp

/-- A block that is left already is not left twice. -/
theorem leaveTo_ok {b : Nat} {u : Unit} :
    leaveTo b c = .ok (u, c') ↔
      ((c.func.terminator? c.block).isSome = true ∧ c' = c) ∨
        ((c.func.terminator? c.block).isSome = false ∧ ∃ n, emit (.branch (.own b)) c = .ok (n, c')) := by
  simp only [leaveTo, bind_ok, isTerminated_ok]
  constructor
  · rintro ⟨_, c, ⟨rfl, rfl⟩, ran⟩
    cases ended : (c.func.terminator? c.block).isSome with
    | true =>
      rw [ended] at ran
      exact .inl ⟨rfl, (pure_ok.1 ran).2⟩
    | false =>
      rw [ended] at ran
      exact .inr ⟨rfl, discard_ok.1 ran⟩
  · rintro (⟨ended, rfl⟩ | ⟨goesOn, ran⟩)
    · exact ⟨true, c', ⟨ended.symm, rfl⟩, rfl⟩
    · exact ⟨false, c, ⟨goesOn.symm, rfl⟩, discard_ok.2 ran⟩

theorem dataType_ok {t : Ty} {d : DataType} :
    dataType t c = .ok (d, c') ↔ t.data? = some d ∧ c' = c := by
  simp only [dataType, Ty.data?]
  cases t.kind with
  | array => simp [pure_ok, @eq_comm _ d]
  | base b => cases b <;> simp [pure_ok, not_stopAt_ok, @eq_comm _ d]

theorem dataType_bind_ok {t : Ty} {f : DataType → Lowering β} {b : β} :
    (dataType t >>= f) c = .ok (b, c') ↔ ∃ d, t.data? = some d ∧ f d c = .ok (b, c') := by
  simp only [bind_ok, dataType_ok]
  constructor
  · rintro ⟨d, _, ⟨known, rfl⟩, goes⟩
    exact ⟨d, known, goes⟩
  · rintro ⟨d, known, goes⟩
    exact ⟨d, c, ⟨known, rfl⟩, goes⟩

theorem slotOf_ok {env : Slots} {p : Pos} {name : Text} {s : Nat} :
    slotOf env p name c = .ok (s, c') ↔ env.lookup name = some s ∧ c' = c := by
  simp only [slotOf]
  cases env.lookup name <;> simp [pure_ok, not_fail_ok, @eq_comm _ s]

end Steps

/-! ## Expressions -/

section Expressions

variable {env : Slots} {c c' : Cursor} {n : Nat} {t : Ty} {p : Pos}

attribute [local simp] form

theorem expr_ok {e : Expr} :
    expr env e c = .ok (n, c') ↔ ∃ x t, e = .typed x t ∧ form env t x c = .ok (n, c') := by
  cases e <;> simp [expr, not_fail_ok]

theorem ident_ok {name : Text} :
    form env t (.ident p name) c = .ok (n, c') ↔
      ∃ s : Nat, env.lookup name = some s ∧ emit (.load s) c = .ok (n, c') := by
  simp only [form, bind_ok, slotOf_ok]
  constructor
  · rintro ⟨s, _, ⟨known, rfl⟩, ran⟩
    exact ⟨s, known, ran⟩
  · rintro ⟨s, known, ran⟩
    exact ⟨s, c, ⟨known, rfl⟩, ran⟩

def signRequest (op : UnOp) (v : Nat) : Request :=
  match op with
  | .neg => .neg (.own v)
  | .not => .not (.own v)

theorem unary_ok {op : UnOp} {x : Expr} :
    form env t (.unary p op x) c = .ok (n, c') ↔
      ∃ v c₁, expr env x c = .ok (v, c₁) ∧ emit (signRequest op v) c₁ = .ok (n, c') := by
  cases op <;> simp only [form, bind_ok, signRequest]

theorem strict_ok {op : BinOp} {x y : Expr} {request : Operand → Operand → Request}
    (strict : strictRequest? op = some request) :
    form env t (.binary p op x y) c = .ok (n, c') ↔
      ∃ v c₁ w c₂, expr env x c = .ok (v, c₁) ∧ expr env y c₁ = .ok (w, c₂) ∧
        emit (request (.own v) (.own w)) c₂ = .ok (n, c') := by
  simp only [form, bind_ok, strict]
  constructor
  · rintro ⟨v, c₁, left, w, c₂, right, ran⟩
    exact ⟨v, c₁, w, c₂, left, right, ran⟩
  · rintro ⟨v, c₁, w, c₂, left, right, ran⟩
    exact ⟨v, c₁, left, w, c₂, right, ran⟩

theorem logical_ok {op : BinOp} {x y : Expr} (logical : strictRequest? op = none) :
    form env t (.binary p op x y) c = .ok (n, c') ↔
      ∃ v c₁, expr env x c = .ok (v, c₁) ∧
        shortCircuit op v (expr env y) c₁ = .ok (n, c') := by
  simp only [form, bind_ok, logical]

/-- The cursor behind the preparations of `&&` or `||`: two blocks and a slot more. -/
def prepared (op : BinOp) (c : Cursor) : Cursor :=
  let c₁ := (c.blocked (if op = .and then .andRight else .orRight)).blocked .shortEnd
  c₁.slotted (c₁.func.label c.func.blocks.size ++ ".tmp") .bool

/-- The branch of `&&` or `||` on its left operand, where the right one is lowered to
the block `rhs` and what follows to the block `stop`. -/
def decision (op : BinOp) (left rhs stop : Nat) : Request :=
  if op = .and then .condBranch (.own left) (.own rhs) (.own stop)
  else .condBranch (.own left) (.own stop) (.own rhs)

theorem shortCircuit_ok {op : BinOp} {left : Nat} {right : Lowering Nat} :
    shortCircuit op left right c = .ok (n, c') ↔
      ∃ n₁ c₁ n₂ c₂ v c₃ n₃ c₄ n₄ c₅,
        emit (.store c.func.slots.length (.own left)) (prepared op c) = .ok (n₁, c₁) ∧
        emit (decision op left c.func.blocks.size (c.func.blocks.size + 1)) c₁ = .ok (n₂, c₂) ∧
        right (c₂.moved c.func.blocks.size) = .ok (v, c₃) ∧
        emit (.store c.func.slots.length (.own v)) c₃ = .ok (n₃, c₄) ∧
        emit (.branch (.own (c.func.blocks.size + 1))) c₄ = .ok (n₄, c₅) ∧
        emit (.load c.func.slots.length) (c₅.moved (c.func.blocks.size + 1)) = .ok (n, c') := by
  have decides : ∀ (rhs stop : Nat) (rest : Unit → Lowering Nat), (if op = .and then
        discard (emit (.condBranch (.own left) (.own rhs) (.own stop))) >>= rest
      else discard (emit (.condBranch (.own left) (.own stop) (.own rhs))) >>= rest) =
      discard (emit (decision op left rhs stop)) >>= rest := by
    intro rhs stop rest
    simp only [decision]
    split <;> rfl
  constructor
  · intro run
    simp only [shortCircuit, newBlock_bind, Cursor.blocked_size] at run
    obtain ⟨_, _, got, run⟩ := bind_ok.1 run
    cases got
    obtain ⟨-, run⟩ := newSlot_bind_ok.1 run
    obtain ⟨n₁, c₁, stored, run⟩ := discard_bind_ok.1 run
    rw [decides] at run
    obtain ⟨n₂, c₂, decided, run⟩ := discard_bind_ok.1 run
    rw [moveTo_bind] at run
    obtain ⟨v, c₃, ran, run⟩ := bind_ok.1 run
    obtain ⟨n₃, c₄, stored', run⟩ := discard_bind_ok.1 run
    obtain ⟨n₄, c₅, left', run⟩ := discard_bind_ok.1 run
    rw [moveTo_bind] at run
    exact ⟨n₁, c₁, n₂, c₂, v, c₃, n₃, c₄, n₄, c₅, stored, decided, ran, stored', left', run⟩
  · rintro ⟨n₁, c₁, n₂, c₂, v, c₃, n₃, c₄, n₄, c₅, stored, decided, ran, stored', left', loaded⟩
    simp only [shortCircuit, newBlock_bind, Cursor.blocked_size]
    refine bind_ok.2 ⟨_, _, rfl, newSlot_bind_ok.2 ⟨by decide,
      discard_bind_ok.2 ⟨n₁, c₁, stored, ?_⟩⟩⟩
    rw [decides]
    refine discard_bind_ok.2 ⟨n₂, c₂, decided, ?_⟩
    rw [moveTo_bind]
    exact bind_ok.2 ⟨v, c₃, ran, discard_bind_ok.2 ⟨n₃, c₄, stored', discard_bind_ok.2 ⟨n₄, c₅, left',
      loaded⟩⟩⟩

theorem call_ok {name : Text} {args : List Expr} :
    form env t (.call p name args) c = .ok (n, c') ↔
      ∃ vs c₁ ws c₂ ret, exprs env args c = .ok (vs, c₁) ∧ copies vs c₁ = .ok (ws, c₂) ∧
        t.data? = some ret ∧ emit (.call name ret (ws.map .own)) c₂ = .ok (n, c') := by
  simp only [form, bind_ok, dataType_ok]
  constructor
  · rintro ⟨vs, c₁, ran, ws, c₂, copied, ret, _, ⟨known, rfl⟩, called⟩
    exact ⟨vs, c₁, ws, _, ret, ran, copied, known, called⟩
  · rintro ⟨vs, c₁, ws, c₂, ret, ran, copied, known, called⟩
    exact ⟨vs, c₁, ran, ws, c₂, copied, ret, c₂, ⟨known, rfl⟩, called⟩

theorem index_ok {a i : Expr} :
    form env t (.index p a i) c = .ok (n, c') ↔
      ∃ v c₁ w c₂ elem, expr env a c = .ok (v, c₁) ∧ expr env i c₁ = .ok (w, c₂) ∧
        t.data? = some elem ∧ emit (.loadElem (.own v) (.own w) elem) c₂ = .ok (n, c') := by
  simp only [form, bind_ok, dataType_ok]
  constructor
  · rintro ⟨v, c₁, array, w, c₂, index, elem, _, ⟨known, rfl⟩, ran⟩
    exact ⟨v, c₁, w, _, elem, array, index, known, ran⟩
  · rintro ⟨v, c₁, w, c₂, elem, array, index, known, ran⟩
    exact ⟨v, c₁, array, w, c₂, index, elem, c₂, ⟨known, rfl⟩, ran⟩

theorem new_ok {elem : Ty} {sizes : List Expr} :
    form env t (.new p elem sizes) c = .ok (n, c') ↔
      ∃ vs c₁ d, exprs env sizes c = .ok (vs, c₁) ∧ t.scalar.data? = some d ∧
        emit (.newArray d t.dims (vs.map .own)) c₁ = .ok (n, c') := by
  simp only [form, bind_ok, dataType_ok]
  constructor
  · rintro ⟨vs, c₁, ran, d, _, ⟨known, rfl⟩, made⟩
    exact ⟨vs, _, d, ran, known, made⟩
  · rintro ⟨vs, c₁, d, ran, known, made⟩
    exact ⟨vs, c₁, ran, d, c₁, ⟨known, rfl⟩, made⟩

theorem length_ok {a : Expr} {m : Text} :
    form env t (.length p a m) c = .ok (n, c') ↔
      ∃ v c₁, expr env a c = .ok (v, c₁) ∧ emit (.arrayLen (.own v)) c₁ = .ok (n, c') := by
  simp only [form, bind_ok]

theorem not_typed_ok {x : Expr} {u : Ty} : ¬ form env t (.typed x u) c = .ok (n, c') := by
  simp [form, not_stopAt_ok]

theorem exprs_nil_ok {ns : List Nat} :
    exprs env [] c = .ok (ns, c') ↔ ns = [] ∧ c' = c := by
  simp only [exprs, pure_ok]

theorem exprs_cons_ok {e : Expr} {es : List Expr} {ns : List Nat} :
    exprs env (e :: es) c = .ok (ns, c') ↔
      ∃ v c₁ vs, expr env e c = .ok (v, c₁) ∧ exprs env es c₁ = .ok (vs, c') ∧ ns = v :: vs := by
  simp only [exprs, bind_ok, pure_ok]
  constructor
  · rintro ⟨v, c₁, ran, vs, _, ran', rfl, rfl⟩
    exact ⟨v, c₁, vs, ran, ran', rfl⟩
  · rintro ⟨v, c₁, vs, ran, ran', rfl⟩
    exact ⟨v, c₁, ran, vs, c', ran', rfl, rfl⟩

theorem copies_nil_ok {ns : List Nat} : copies [] c = .ok (ns, c') ↔ ns = [] ∧ c' = c := by
  simp only [copies, pure_ok]

theorem copies_cons_ok {v : Nat} {vs ns : List Nat} :
    copies (v :: vs) c = .ok (ns, c') ↔
      ∃ w c₁ ws, emit (.copy (.own v)) c = .ok (w, c₁) ∧ copies vs c₁ = .ok (ws, c') ∧
        ns = w :: ws := by
  simp only [copies, bind_ok, pure_ok]
  constructor
  · rintro ⟨w, c₁, ran, ws, _, ran', rfl, rfl⟩
    exact ⟨w, c₁, ws, ran, ran', rfl⟩
  · rintro ⟨w, c₁, ws, ran, ran', rfl⟩
    exact ⟨w, c₁, ran, ws, c', ran', rfl, rfl⟩

end Expressions

/-! ## Statements -/

section Statements

variable {env env' : Slots} {c c' : Cursor} {p : Pos} {u : Unit}

attribute [local simp] stmt

theorem zero_ok {d : DataType} {n : Nat} :
    zero d c = .ok (n, c') ↔ ∃ r, d.zeroRequest? = some r ∧ emit r c = .ok (n, c') := by
  cases d <;> simp [zero, DataType.zeroRequest?, not_stopAt_ok]

def initial (env : Slots) (d : DataType) (item : DeclItem) : Lowering Nat :=
  match item.init with
  | some e => expr env e
  | none => zero d

theorem declare_nil_ok {d : DataType} :
    declare env d [] c = .ok (env', c') ↔ env' = env ∧ c' = c := by
  simp only [declare, pure_ok]

theorem declare_cons_ok {d : DataType} {item : DeclItem} {rest : List DeclItem} :
    declare env d (item :: rest) c = .ok (env', c') ↔
      ∃ v c₁ n c₂, initial env d item c = .ok (v, c₁) ∧ d ≠ .void ∧
        emit (.store c₁.func.slots.length (.own v)) (c₁.slotted item.name d) = .ok (n, c₂) ∧
        declare ((item.name, c₁.func.slots.length) :: env) d rest c₂ = .ok (env', c') := by
  obtain ⟨q, name, init⟩ := item
  cases init
  all_goals
    simp only [declare, initial, bind_ok, discard_ok, newSlot_ok]
    constructor
    · rintro ⟨v, c₁, ran, _, _, ⟨some, rfl, rfl⟩, _, c₂, ⟨n, stored⟩, declared⟩
      exact ⟨v, c₁, n, c₂, ran, some, stored, declared⟩
    · rintro ⟨v, c₁, n, c₂, ran, some, stored, declared⟩
      exact ⟨v, c₁, ran, _, _, ⟨some, rfl, rfl⟩, (), c₂, ⟨n, stored⟩, declared⟩

theorem decl_ok {t : Ty} {items : List DeclItem} :
    stmt env (.decl p t items) c = .ok (env', c') ↔
      ∃ d, t.data? = some d ∧ declare env d items c = .ok (env', c') := by
  simp only [stmt, bind_ok, dataType_ok]
  constructor
  · rintro ⟨d, _, ⟨known, rfl⟩, ran⟩
    exact ⟨d, known, ran⟩
  · rintro ⟨d, known, ran⟩
    exact ⟨d, c, ⟨known, rfl⟩, ran⟩

theorem block_ok {body : List Stmt} :
    stmt env (.block p body) c = .ok (env', c') ↔
      env' = env ∧ ∃ inner, stmts env body c = .ok (inner, c') := by
  simp only [stmt, bind_ok, discard_ok, pure_ok]
  constructor
  · rintro ⟨-, _, ⟨inner, ran⟩, rfl, rfl⟩
    exact ⟨rfl, inner, ran⟩
  · rintro ⟨rfl, inner, ran⟩
    exact ⟨(), c', ⟨inner, ran⟩, rfl, rfl⟩

theorem assign_stmt_ok {target value : Expr} :
    stmt env (.assign p target value) c = .ok (env', c') ↔
      env' = env ∧ assign env p value target.strip c = .ok ((), c') := by
  simp only [stmt, bind_ok, pure_ok]
  constructor
  · rintro ⟨_, _, ran, rfl, rfl⟩
    exact ⟨rfl, ran⟩
  · rintro ⟨rfl, ran⟩
    exact ⟨(), c', ran, rfl, rfl⟩

theorem assign_ident_ok {value : Expr} {q : Pos} {name : Text} :
    assign env p value (.ident q name) c = .ok (u, c') ↔
      ∃ (s v : Nat) (c₁ : Cursor) (n : Nat), env.lookup name = some s ∧
        expr env value c = .ok (v, c₁) ∧ emit (.store s (.own v)) c₁ = .ok (n, c') := by
  simp only [assign, bind_ok, slotOf_ok, discard_ok]
  constructor
  · rintro ⟨s, _, ⟨known, rfl⟩, v, c₁, ran, n, stored⟩
    exact ⟨s, v, c₁, n, known, ran, stored⟩
  · rintro ⟨s, v, c₁, n, known, ran, stored⟩
    exact ⟨s, c, ⟨known, rfl⟩, v, c₁, ran, n, stored⟩

theorem assign_index_ok {value a i : Expr} {q : Pos} :
    assign env p value (.index q a i) c = .ok (u, c') ↔
      ∃ w c₁ k c₂ v c₃ n, expr env a c = .ok (w, c₁) ∧ expr env i c₁ = .ok (k, c₂) ∧
        expr env value c₂ = .ok (v, c₃) ∧
        emit (.storeElem (.own w) (.own k) (.own v)) c₃ = .ok (n, c') := by
  simp only [assign, bind_ok, discard_ok]
  constructor
  · rintro ⟨w, c₁, array, k, c₂, index, v, c₃, ran, n, stored⟩
    exact ⟨w, c₁, k, c₂, v, c₃, n, array, index, ran, stored⟩
  · rintro ⟨w, c₁, k, c₂, v, c₃, n, array, index, ran, stored⟩
    exact ⟨w, c₁, array, k, c₂, index, v, c₃, ran, n, stored⟩

/-- Only variables and elements of arrays can be assigned to. -/
theorem assign_target {value target : Expr} (ran : assign env p value target c = .ok (u, c')) :
    (∃ q name, target = .ident q name) ∨ ∃ q a i, target = .index q a i := by
  cases target with
  | ident q name => exact .inl ⟨q, name, rfl⟩
  | index q a i => exact .inr ⟨q, a, i, rfl⟩
  | _ => exact absurd ran not_fail_ok

theorem count_ok {s : Nat} {op : ArithOp} :
    count s op c = .ok (u, c') ↔
      ∃ v c₁ one c₂ w c₃ n, emit (.load s) c = .ok (v, c₁) ∧ emit (.int 1) c₁ = .ok (one, c₂) ∧
        emit (.arith op (.own v) (.own one)) c₂ = .ok (w, c₃) ∧
        emit (.store s (.own w)) c₃ = .ok (n, c') := by
  simp only [count, bind_ok, discard_ok]
  constructor
  · rintro ⟨v, c₁, loaded, one, c₂, made, w, c₃, added, n, stored⟩
    exact ⟨v, c₁, one, c₂, w, c₃, n, loaded, made, added, stored⟩
  · rintro ⟨v, c₁, one, c₂, w, c₃, n, loaded, made, added, stored⟩
    exact ⟨v, c₁, loaded, one, c₂, made, w, c₃, added, n, stored⟩

theorem incr_ok {name : Text} {decrement : Bool} :
    stmt env (.incr p name decrement) c = .ok (env', c') ↔
      env' = env ∧ ∃ s : Nat, env.lookup name = some s ∧
        count s (if decrement then .sub else .add) c = .ok ((), c') := by
  simp only [stmt, bind_ok, slotOf_ok, pure_ok]
  constructor
  · rintro ⟨s, _, ⟨known, rfl⟩, _, _, ran, rfl, rfl⟩
    exact ⟨rfl, s, known, ran⟩
  · rintro ⟨rfl, s, known, ran⟩
    exact ⟨s, c, ⟨known, rfl⟩, (), c', ran, rfl, rfl⟩

/-- The cursor with the blocks of a condition without an alternative. -/
def withIfBlocks (c : Cursor) : Cursor := (c.blocked .ifThen).blocked .ifEnd

/-- The cursor with the blocks of a condition with an alternative. -/
def withIfElseBlocks (c : Cursor) : Cursor :=
  ((c.blocked .ifThen).blocked .ifElse).blocked .ifEnd

def withWhileBlocks (c : Cursor) : Cursor :=
  ((c.blocked .whileHead).blocked .whileBody).blocked .whileEnd

def withForBlocks (c : Cursor) : Cursor :=
  ((c.blocked .forHead).blocked .forBody).blocked .forEnd

theorem ifThen_ok {x : Expr} {yes : Stmt} :
    stmt env (.ifThen p x yes) c = .ok (env', c') ↔
      env' = env ∧ ∃ v c₁ n c₂ inner c₃ c₄, expr env x c = .ok (v, c₁) ∧
        emit (.condBranch (.own v) (.own c₁.func.blocks.size) (.own (c₁.func.blocks.size + 1)))
          (withIfBlocks c₁) = .ok (n, c₂) ∧
        stmt env yes (c₂.moved c₁.func.blocks.size) = .ok (inner, c₃) ∧
        leaveTo (c₁.func.blocks.size + 1) c₃ = .ok ((), c₄) ∧
        c' = c₄.moved (c₁.func.blocks.size + 1) := by
  constructor
  · intro run
    simp only [stmt] at run
    obtain ⟨v, c₁, cond, run⟩ := bind_ok.1 run
    simp only [newBlock_bind, Cursor.blocked_size] at run
    obtain ⟨n, c₂, branched, run⟩ := discard_bind_ok.1 run
    rw [moveTo_bind] at run
    obtain ⟨inner, c₃, ran, run⟩ := discard_bind_ok.1 run
    obtain ⟨_, c₄, left, run⟩ := bind_ok.1 run
    rw [moveTo_bind] at run
    obtain ⟨rfl, rfl⟩ := pure_ok.1 run
    exact ⟨rfl, v, c₁, n, c₂, inner, c₃, c₄, cond, branched, ran, left, rfl⟩
  · rintro ⟨rfl, v, c₁, n, c₂, inner, c₃, c₄, cond, branched, ran, left, leaves⟩
    simp only [stmt]
    refine bind_ok.2 ⟨v, c₁, cond, ?_⟩
    simp only [newBlock_bind, Cursor.blocked_size]
    refine discard_bind_ok.2 ⟨n, c₂, branched, ?_⟩
    rw [moveTo_bind]
    refine discard_bind_ok.2 ⟨inner, c₃, ran, bind_ok.2 ⟨(), c₄, left, ?_⟩⟩
    rw [moveTo_bind]
    exact pure_ok.2 ⟨rfl, leaves⟩

theorem ifElse_ok {x : Expr} {yes no : Stmt} :
    stmt env (.ifElse p x yes no) c = .ok (env', c') ↔
      env' = env ∧ ∃ v c₁ n c₂ inner c₃ c₄ inner' c₅ c₆, expr env x c = .ok (v, c₁) ∧
        emit (.condBranch (.own v) (.own c₁.func.blocks.size) (.own (c₁.func.blocks.size + 1)))
          (withIfElseBlocks c₁) = .ok (n, c₂) ∧
        stmt env yes (c₂.moved c₁.func.blocks.size) = .ok (inner, c₃) ∧
        leaveTo (c₁.func.blocks.size + 2) c₃ = .ok ((), c₄) ∧
        stmt env no (c₄.moved (c₁.func.blocks.size + 1)) = .ok (inner', c₅) ∧
        leaveTo (c₁.func.blocks.size + 2) c₅ = .ok ((), c₆) ∧
        c' = c₆.moved (c₁.func.blocks.size + 2) := by
  constructor
  · intro run
    simp only [stmt] at run
    obtain ⟨v, c₁, cond, run⟩ := bind_ok.1 run
    simp only [newBlock_bind, Cursor.blocked_size, Nat.add_assoc, Nat.reduceAdd] at run
    obtain ⟨n, c₂, branched, run⟩ := discard_bind_ok.1 run
    rw [moveTo_bind] at run
    obtain ⟨inner, c₃, ran, run⟩ := discard_bind_ok.1 run
    obtain ⟨_, c₄, left, run⟩ := bind_ok.1 run
    rw [moveTo_bind] at run
    obtain ⟨inner', c₅, ran', run⟩ := discard_bind_ok.1 run
    obtain ⟨_, c₆, left', run⟩ := bind_ok.1 run
    rw [moveTo_bind] at run
    obtain ⟨rfl, rfl⟩ := pure_ok.1 run
    exact ⟨rfl, v, c₁, n, c₂, inner, c₃, c₄, inner', c₅, c₆, cond, branched, ran, left, ran', left',
      rfl⟩
  · rintro ⟨rfl, v, c₁, n, c₂, inner, c₃, c₄, inner', c₅, c₆, cond, branched, ran, left, ran', left',
      leaves⟩
    simp only [stmt]
    refine bind_ok.2 ⟨v, c₁, cond, ?_⟩
    simp only [newBlock_bind, Cursor.blocked_size, Nat.add_assoc, Nat.reduceAdd]
    refine discard_bind_ok.2 ⟨n, c₂, branched, ?_⟩
    rw [moveTo_bind]
    refine discard_bind_ok.2 ⟨inner, c₃, ran, bind_ok.2 ⟨(), c₄, left, ?_⟩⟩
    rw [moveTo_bind]
    refine discard_bind_ok.2 ⟨inner', c₅, ran', bind_ok.2 ⟨(), c₆, left', ?_⟩⟩
    rw [moveTo_bind]
    exact pure_ok.2 ⟨rfl, leaves⟩

theorem while_ok {x : Expr} {body : Stmt} :
    stmt env (.while p x body) c = .ok (env', c') ↔
      env' = env ∧ ∃ n c₁ v c₂ m c₃ inner c₄ c₅,
        emit (.branch (.own c.func.blocks.size)) (withWhileBlocks c) = .ok (n, c₁) ∧
        expr env x (c₁.moved c.func.blocks.size) = .ok (v, c₂) ∧
        emit (.condBranch (.own v) (.own (c.func.blocks.size + 1)) (.own (c.func.blocks.size + 2)))
          c₂ = .ok (m, c₃) ∧
        stmt env body (c₃.moved (c.func.blocks.size + 1)) = .ok (inner, c₄) ∧
        leaveTo c.func.blocks.size c₄ = .ok ((), c₅) ∧
        c' = c₅.moved (c.func.blocks.size + 2) := by
  constructor
  · intro run
    simp only [stmt, newBlock_bind, Cursor.blocked_size, Nat.add_assoc, Nat.reduceAdd] at run
    obtain ⟨n, c₁, entered, run⟩ := discard_bind_ok.1 run
    rw [moveTo_bind] at run
    obtain ⟨v, c₂, cond, run⟩ := bind_ok.1 run
    obtain ⟨m, c₃, branched, run⟩ := discard_bind_ok.1 run
    rw [moveTo_bind] at run
    obtain ⟨inner, c₄, ran, run⟩ := discard_bind_ok.1 run
    obtain ⟨_, c₅, left, run⟩ := bind_ok.1 run
    rw [moveTo_bind] at run
    obtain ⟨rfl, rfl⟩ := pure_ok.1 run
    exact ⟨rfl, n, c₁, v, c₂, m, c₃, inner, c₄, c₅, entered, cond, branched, ran, left, rfl⟩
  · rintro ⟨rfl, n, c₁, v, c₂, m, c₃, inner, c₄, c₅, entered, cond, branched, ran, left, leaves⟩
    simp only [stmt, newBlock_bind, Cursor.blocked_size, Nat.add_assoc, Nat.reduceAdd]
    refine discard_bind_ok.2 ⟨n, c₁, entered, ?_⟩
    rw [moveTo_bind]
    refine bind_ok.2 ⟨v, c₂, cond, discard_bind_ok.2 ⟨m, c₃, branched, ?_⟩⟩
    rw [moveTo_bind]
    refine discard_bind_ok.2 ⟨inner, c₄, ran, bind_ok.2 ⟨(), c₅, left, ?_⟩⟩
    rw [moveTo_bind]
    exact pure_ok.2 ⟨rfl, leaves⟩

/-- The end of a round of a loop over an array: the counter goes up, and control goes
back to the head, unless the body has come to its end. -/
def Rounds (counter head : Nat) (c c' : Cursor) : Prop :=
  ((c.func.terminator? c.block).isSome = true ∧ c' = c) ∨
    ((c.func.terminator? c.block).isSome = false ∧ ∃ c₁ n, count counter .add c = .ok ((), c₁) ∧
      emit (.branch (.own head)) c₁ = .ok (n, c'))

/-- The end of a round counts up and goes back, unless the body has returned. -/
theorem rounds_ok {counter head stop : Nat} {env₁ : Slots} :
    (do
      if !(← isTerminated) then
        count counter .add
        discard (emit (.branch (.own head)))
      moveTo stop
      return env : Lowering Slots) c = .ok (env₁, c') ↔
    env₁ = env ∧ ∃ c₁, Rounds counter head c c₁ ∧ c' = c₁.moved stop := by
  rw [bind_ok]
  simp only [isTerminated_ok]
  cases ended : (c.func.terminator? c.block).isSome with
  | true =>
    constructor
    · rintro ⟨_, _, ⟨rfl, rfl⟩, ran⟩
      simp only [Bool.not_true, Bool.false_eq_true, if_false, bind_ok, moveTo_ok, pure_ok] at ran
      obtain ⟨_, _, rfl, rfl, rfl⟩ := ran
      exact ⟨rfl, _, .inl ⟨ended, rfl⟩, rfl⟩
    · rintro ⟨rfl, c₁, ⟨-, rfl⟩ | ⟨goesOn, -⟩, rfl⟩
      · exact ⟨true, _, ⟨rfl, rfl⟩, rfl⟩
      · simp [ended] at goesOn
  | false =>
    constructor
    · rintro ⟨_, _, ⟨rfl, rfl⟩, ran⟩
      simp only [Bool.not_false, if_true, bind_ok, discard_ok, moveTo_ok, pure_ok] at ran
      obtain ⟨_, c₁, counted, _, c₂, ⟨n, left⟩, _, _, rfl, rfl, rfl⟩ := ran
      exact ⟨rfl, c₂, .inr ⟨ended, c₁, n, counted, left⟩, rfl⟩
    · rintro ⟨rfl, c₂, ⟨goes, -⟩ | ⟨-, c₁, n, counted, left⟩, rfl⟩
      · simp [ended] at goes
      · refine ⟨false, c, ⟨rfl, rfl⟩, ?_⟩
        simp only [Bool.not_false, if_true, bind_ok, discard_ok, moveTo_ok]
        exact ⟨(), c₁, counted, (), c₂, ⟨n, left⟩, (), _, rfl, rfl⟩

/-- The way to a loop over the array `a`: its length goes to `l`, and the counter, which is
a new slot, starts at zero. -/
inductive ForCounter (name : Text) (a : Nat) (c : Cursor) : Nat → Nat → Cursor → Prop
  | mk {l z n : Nat} {c₁ c₂ c' : Cursor} (len : emit (.arrayLen (.own a)) c = .ok (l, c₁))
      (made : emit (.int 0) (c₁.slotted (name ++ ".idx") .int) = .ok (z, c₂))
      (stored : emit (.store c₁.func.slots.length (.own z)) c₂ = .ok (n, c')) :
      ForCounter name a c l c₁.func.slots.length c'

/-- The head of a loop over an array: the counter is compared with the length. -/
inductive ForTest (counter l : Nat) (c : Cursor) (more : Nat) (c' : Cursor) : Prop
  | mk {k : Nat} {c₁ : Cursor} (loaded : emit (.load counter) c = .ok (k, c₁))
      (compared : emit (.compare .lt (.own k) (.own l)) c₁ = .ok (more, c'))

/-- The start of a round of a loop over an array: the element goes to the slot of the variable. -/
inductive ForElement (counter a slot : Nat) (d : DataType) (c c' : Cursor) : Prop
  | mk {k v n : Nat} {c₁ c₂ : Cursor} (loaded : emit (.load counter) c = .ok (k, c₁))
      (element : emit (.loadElem (.own a) (.own k) d) c₁ = .ok (v, c₂))
      (stored : emit (.store slot (.own v)) c₂ = .ok (n, c'))

theorem forEach_ok {elem : Ty} {name : Text} {array : Expr} {body : Stmt} :
    stmt env (.forEach p elem name array body) c = .ok (env', c') ↔
      env' = env ∧ ∃ a c₁ l counter c₂ n c₃ more c₄ m c₅ d c₆ inner c₇ c₈,
        expr env array c = .ok (a, c₁) ∧ ForCounter name a c₁ l counter c₂ ∧
        emit (.branch (.own c₂.func.blocks.size)) (withForBlocks c₂) = .ok (n, c₃) ∧
        ForTest counter l (c₃.moved c₂.func.blocks.size) more c₄ ∧
        emit (.condBranch (.own more) (.own (c₂.func.blocks.size + 1))
          (.own (c₂.func.blocks.size + 2))) c₄ = .ok (m, c₅) ∧
        elem.data? = some d ∧ d ≠ .void ∧
        ForElement counter a c₅.func.slots.length d
          ((c₅.moved (c₂.func.blocks.size + 1)).slotted name d) c₆ ∧
        stmt ((name, c₅.func.slots.length) :: env) body c₆ = .ok (inner, c₇) ∧
        Rounds counter c₂.func.blocks.size c₇ c₈ ∧ c' = c₈.moved (c₂.func.blocks.size + 2) := by
  constructor
  · intro run
    simp only [stmt] at run
    obtain ⟨a, c₁, ran, run⟩ := bind_ok.1 run
    obtain ⟨l, _, len, run⟩ := bind_ok.1 run
    obtain ⟨-, run⟩ := newSlot_bind_ok.1 run
    obtain ⟨_, _, made, run⟩ := bind_ok.1 run
    obtain ⟨_, c₂, stored, run⟩ := discard_bind_ok.1 run
    simp only [newBlock_bind, Cursor.blocked_size, Nat.add_assoc, Nat.reduceAdd] at run
    obtain ⟨n, c₃, entered, run⟩ := discard_bind_ok.1 run
    rw [moveTo_bind] at run
    obtain ⟨_, _, loaded, run⟩ := bind_ok.1 run
    obtain ⟨more, c₄, compared, run⟩ := bind_ok.1 run
    obtain ⟨m, c₅, branched, run⟩ := discard_bind_ok.1 run
    obtain ⟨d, known, run⟩ := dataType_bind_ok.1 run
    obtain ⟨some, run⟩ := newSlot_bind_ok.1 run
    rw [moveTo_bind] at run
    obtain ⟨_, _, loaded', run⟩ := bind_ok.1 run
    obtain ⟨_, _, element, run⟩ := bind_ok.1 run
    obtain ⟨_, c₆, stored', run⟩ := discard_bind_ok.1 run
    obtain ⟨inner, c₇, ran', run⟩ := discard_bind_ok.1 run
    obtain ⟨rfl, c₈, round, rfl⟩ := rounds_ok.1 run
    exact ⟨rfl, a, c₁, l, _, c₂, n, c₃, more, c₄, m, c₅, d, c₆, inner, c₇, c₈, ran,
      ⟨len, made, stored⟩, entered, ⟨loaded, compared⟩, branched, known, some,
      ⟨loaded', element, stored'⟩, ran', round, rfl⟩
  · rintro ⟨rfl, a, c₁, l, _, c₂, n, c₃, more, c₄, m, c₅, d, c₆, inner, c₇, c₈, ran,
      ⟨len, made, stored⟩, entered, ⟨loaded, compared⟩, branched, known, some,
      ⟨loaded', element, stored'⟩, ran', round, leaves⟩
    simp only [stmt]
    refine bind_ok.2 ⟨a, c₁, ran, bind_ok.2 ⟨l, _, len, newSlot_bind_ok.2 ⟨by decide,
      bind_ok.2 ⟨_, _, made, discard_bind_ok.2 ⟨_, c₂, stored, ?_⟩⟩⟩⟩⟩
    simp only [newBlock_bind, Cursor.blocked_size, Nat.add_assoc, Nat.reduceAdd]
    refine discard_bind_ok.2 ⟨n, c₃, entered, ?_⟩
    rw [moveTo_bind]
    refine bind_ok.2 ⟨_, _, loaded, bind_ok.2 ⟨more, c₄, compared, discard_bind_ok.2 ⟨m, c₅, branched,
      dataType_bind_ok.2 ⟨d, known, newSlot_bind_ok.2 ⟨some, ?_⟩⟩⟩⟩⟩
    rw [moveTo_bind]
    exact bind_ok.2 ⟨_, _, loaded', bind_ok.2 ⟨_, _, element, discard_bind_ok.2 ⟨_, c₆, stored',
      discard_bind_ok.2 ⟨inner, c₇, ran', rounds_ok.2 ⟨rfl, c₈, round, leaves⟩⟩⟩⟩⟩

theorem ret_ok {value : Expr} :
    stmt env (.ret p value) c = .ok (env', c') ↔
      env' = env ∧ ∃ v c₁ n c₂ m, expr env value c = .ok (v, c₁) ∧
        emit (.ret (some (.own v))) c₁ = .ok (n, c₂) ∧ emit .unreachable c₂ = .ok (m, c') := by
  simp only [stmt, bind_ok, discard_ok, pure_ok]
  constructor
  · rintro ⟨v, c₁, ran, _, c₂, ⟨n, left⟩, _, _, ⟨m, marked⟩, rfl, rfl⟩
    exact ⟨rfl, v, c₁, n, c₂, m, ran, left, marked⟩
  · rintro ⟨rfl, v, c₁, n, c₂, m, ran, left, marked⟩
    exact ⟨v, c₁, ran, (), c₂, ⟨n, left⟩, (), c', ⟨m, marked⟩, rfl, rfl⟩

theorem retVoid_ok :
    stmt env (.retVoid p) c = .ok (env', c') ↔
      env' = env ∧ ∃ n c₁ m, emit (.ret none) c = .ok (n, c₁) ∧
        emit .unreachable c₁ = .ok (m, c') := by
  simp only [stmt, bind_ok, discard_ok, pure_ok]
  constructor
  · rintro ⟨_, c₁, ⟨n, left⟩, _, _, ⟨m, marked⟩, rfl, rfl⟩
    exact ⟨rfl, n, c₁, m, left, marked⟩
  · rintro ⟨rfl, n, c₁, m, left, marked⟩
    exact ⟨(), c₁, ⟨n, left⟩, (), c', ⟨m, marked⟩, rfl, rfl⟩

theorem effect_ok {e : Expr} :
    stmt env (.expr p e) c = .ok (env', c') ↔ env' = env ∧ ∃ n, expr env e c = .ok (n, c') := by
  simp only [stmt, bind_ok, discard_ok, pure_ok]
  constructor
  · rintro ⟨_, _, ⟨n, ran⟩, rfl, rfl⟩
    exact ⟨rfl, n, ran⟩
  · rintro ⟨rfl, n, ran⟩
    exact ⟨(), c', ⟨n, ran⟩, rfl, rfl⟩

theorem empty_ok : stmt env (.empty p) c = .ok (env', c') ↔ env' = env ∧ c' = c := by
  simp only [stmt, pure_ok]

theorem stmts_nil_ok : stmts env [] c = .ok (env', c') ↔ env' = env ∧ c' = c := by
  simp only [stmts, pure_ok]

theorem stmts_cons_ok {s : Stmt} {rest : List Stmt} :
    stmts env (s :: rest) c = .ok (env', c') ↔
      ∃ env₁ c₁, stmt env s c = .ok (env₁, c₁) ∧ stmts env₁ rest c₁ = .ok (env', c') := by
  simp only [stmts, bind_ok]

end Statements

/-! ## Functions -/

section Functions

variable {env env' : Slots} {c c' : Cursor} {f : FuncDef}

theorem dataTypes_ok {ps : List Param} {ds : List DataType} :
    dataTypes ps c = .ok (ds, c') ↔
      List.Forall₂ (fun (q : Param) d => q.type.data? = some d) ps ds ∧ c' = c := by
  induction ps generalizing ds with
  | nil => simp [dataTypes, pure_ok]
  | cons q ps ih =>
    rw [dataTypes, dataType_bind_ok]
    constructor
    · rintro ⟨d, known, run⟩
      obtain ⟨ds, c₁, ran, run⟩ := bind_ok.1 run
      obtain ⟨rfl, rfl⟩ := pure_ok.1 run
      obtain ⟨all, same⟩ := ih.1 ran
      exact ⟨.cons known all, same⟩
    · rintro ⟨all, same⟩
      cases all with
      | cons known all => exact ⟨_, known, bind_ok.2 ⟨_, _, ih.2 ⟨all, same⟩, rfl⟩⟩

theorem storeParams_nil_ok {k : Nat} :
    storeParams env k [] c = .ok (env', c') ↔ env' = env ∧ c' = c := by
  simp only [storeParams, pure_ok]

theorem storeParams_cons_ok {k : Nat} {q : Param} {t : DataType} {rest : List (Param × DataType)} :
    storeParams env k ((q, t) :: rest) c = .ok (env', c') ↔
      t ≠ .void ∧ ∃ v c₁ n c₂, emit (.param k) (c.slotted q.name t) = .ok (v, c₁) ∧
        emit (.store c.func.slots.length (.own v)) c₁ = .ok (n, c₂) ∧
        storeParams ((q.name, c.func.slots.length) :: env) (k + 1) rest c₂ = .ok (env', c') := by
  simp only [storeParams, newSlot_bind_ok]
  constructor
  · rintro ⟨some, run⟩
    obtain ⟨v, c₁, got, run⟩ := bind_ok.1 run
    obtain ⟨n, c₂, stored, run⟩ := discard_bind_ok.1 run
    exact ⟨some, v, c₁, n, c₂, got, stored, run⟩
  · rintro ⟨some, v, c₁, n, c₂, got, stored, run⟩
    exact ⟨some, bind_ok.2 ⟨v, c₁, got, discard_bind_ok.2 ⟨n, c₂, stored, run⟩⟩⟩

/-- What is asked for where control runs off the end of a body. -/
def endRequest (ret : DataType) : Request := if ret = .void then .ret none else .unreachable

/-- The end of a body: it is marked unless it has come to its end. -/
def Closes (ret : DataType) (c c' : Cursor) : Prop :=
  ((c.func.terminator? c.block).isSome = true ∧ c' = c) ∨
    ((c.func.terminator? c.block).isSome = false ∧ ∃ n, emit (endRequest ret) c = .ok (n, c'))

/-- A function with nothing but an empty entry block. -/
def opening (f : FuncDef) (ret : DataType) (params : List DataType) : Cursor :=
  ⟨((Func.empty f.name ret params).addBlock .entry).1, 0⟩

/-- A body up to where control may run off its end, and what the function returns. -/
def statements (f : FuncDef) : Lowering DataType := do
  let params ← dataTypes f.params
  let ret ← dataType f.ret
  set (Cursor.mk (Func.empty f.name ret params) 0)
  let entry ← newBlock .entry
  moveTo entry
  let env ← storeParams [] 0 (f.params.zip params)
  discard (stmts env f.body)
  return ret

theorem statements_ok {ret : DataType} :
    statements f c = .ok (ret, c') ↔ ∃ params env c₁ env',
        List.Forall₂ (fun (q : Param) d => q.type.data? = some d) f.params params ∧
        f.ret.data? = some ret ∧
        storeParams [] 0 (f.params.zip params) (opening f ret params) = .ok (env, c₁) ∧
        stmts env f.body c₁ = .ok (env', c') := by
  constructor
  · intro run
    simp only [statements] at run
    obtain ⟨params, _, typed, run⟩ := bind_ok.1 run
    obtain ⟨all, -⟩ := dataTypes_ok.1 typed
    obtain ⟨ret, known, run⟩ := dataType_bind_ok.1 run
    obtain ⟨_, _, start, run⟩ := bind_ok.1 run
    cases start
    rw [newBlock_bind, moveTo_bind] at run
    obtain ⟨env, c₁, stored, run⟩ := bind_ok.1 run
    obtain ⟨env', c₂, ran, run⟩ := discard_bind_ok.1 run
    obtain ⟨rfl, rfl⟩ := pure_ok.1 run
    exact ⟨params, env, c₁, env', all, known, stored, ran⟩
  · rintro ⟨params, env, c₁, env', all, known, stored, ran⟩
    simp only [statements]
    refine bind_ok.2 ⟨params, c, dataTypes_ok.2 ⟨all, rfl⟩, dataType_bind_ok.2 ⟨ret, known,
      bind_ok.2 ⟨(), _, rfl, ?_⟩⟩⟩
    rw [newBlock_bind, moveTo_bind]
    exact bind_ok.2 ⟨env, c₁, stored, discard_bind_ok.2 ⟨env', c', ran, rfl⟩⟩

theorem closes_ok {ret : DataType} {u : Unit} :
    (do
      if !(← isTerminated) then
        if ret = .void then discard (emit (.ret none)) else discard (emit .unreachable) :
      Lowering Unit) c = .ok (u, c') ↔ Closes ret c c' := by
  have asks : (if ret = .void then discard (emit (.ret none)) else discard (emit .unreachable) :
      Lowering Unit) = discard (emit (endRequest ret)) := by
    simp only [endRequest]
    split <;> rfl
  simp only [bind_ok, isTerminated_ok, Closes, asks]
  constructor
  · rintro ⟨_, c, ⟨rfl, rfl⟩, run⟩
    cases ended : (c.func.terminator? c.block).isSome with
    | true =>
      rw [ended] at run
      exact .inl ⟨rfl, (pure_ok.1 run).2⟩
    | false =>
      rw [ended] at run
      exact .inr ⟨rfl, discard_ok.1 run⟩
  · rintro (⟨ended, rfl⟩ | ⟨goesOn, run⟩)
    · exact ⟨true, c', ⟨ended.symm, rfl⟩, rfl⟩
    · exact ⟨false, c, ⟨goesOn.symm, rfl⟩, discard_ok.2 run⟩

theorem body_closes {u : Unit} :
    body f c = .ok (u, c') ↔ ∃ ret c₁, statements f c = .ok (ret, c₁) ∧ Closes ret c₁ c' := by
  have split : body f = (do
      let ret ← statements f
      if !(← isTerminated) then
        if ret = .void then discard (emit (.ret none)) else discard (emit .unreachable)) := by
    simp only [body, statements, bind_assoc, pure_bind]
  rw [split, bind_ok]
  simp only [closes_ok]

/-- The parameters are stored, the statements follow, and the end is closed. -/
theorem body_ok {u : Unit} :
    body f c = .ok (u, c') ↔ ∃ params ret env c₁ env' c₂,
        List.Forall₂ (fun (q : Param) d => q.type.data? = some d) f.params params ∧
        f.ret.data? = some ret ∧
        storeParams [] 0 (f.params.zip params) (opening f ret params) = .ok (env, c₁) ∧
        stmts env f.body c₁ = .ok (env', c₂) ∧ Closes ret c₂ c' := by
  rw [body_closes]
  constructor
  · rintro ⟨ret, c₂, run, closed⟩
    obtain ⟨params, env, c₁, env', all, known, stored, ran⟩ := statements_ok.1 run
    exact ⟨params, ret, env, c₁, env', c₂, all, known, stored, ran, closed⟩
  · rintro ⟨params, ret, env, c₁, env', c₂, all, known, stored, ran, closed⟩
    exact ⟨ret, c₂, statements_ok.2 ⟨params, env, c₁, env', all, known, stored, ran⟩, closed⟩

/-- A function is its body after the flow was built. -/
theorem function_ok {g : Func} :
    function f = .ok g ↔
      ∃ c, body f ⟨Func.empty f.name .void [], 0⟩ = .ok ((), c) ∧ c.func.buildFlow = (g, none) := by
  simp only [function, StateT.run]
  cases ran : body f ⟨Func.empty f.name .void [], 0⟩ with
  | error stop => simp
  | ok p =>
    obtain ⟨u, c⟩ := p
    simp only [Except.ok.injEq, Prod.mk.injEq, true_and, exists_eq_left']
    cases flow : c.func.buildFlow with
    | mk h e => cases e <;> simp

end Functions

end Lower

end ImpCompiler
