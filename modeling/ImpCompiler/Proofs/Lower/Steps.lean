import ImpCompiler.Proofs.Lower.Runs

/-!
# Proofs.Lower.Steps — lowering is a sequence of four steps

Whatever lowering does, it does by four steps: it puts an accepted instruction into
the block of the cursor, makes a slot, makes a block, or moves the cursor to a block
that is there. `stmts_steps` and its companions say so of every tree; what each step
preserves, lowering preserves.
-/

namespace ImpCompiler.Lower

set_option autoImplicit false

variable {c c' : Cursor}

/-- One step of lowering, which leaves the first `old` blocks alone unless it is in one
of them. -/
inductive Step (old : Nat) : Cursor → Cursor → Prop
  | emit {c : Cursor} {r : Request} {op : Op} {t : DataType} {args : List ValueRef}
      (planned : c.func.Plans r (op, t, args)) :
      Step old c (c.emitted op t (args.map fun v => (v.number : Value)))
  | slot {c : Cursor} {name : Text} {t : DataType} (some : t ≠ .void) :
      Step old c (c.slotted name t)
  | block {c : Cursor} {k : LabelKind} (inner : k ≠ .entry) : Step old c (c.blocked k)
  | move {c : Cursor} {b : Nat} (new : old ≤ b) (inside : b < c.func.blocks.size) :
      Step old c (c.moved b)

/-- Steps from a cursor, which move to blocks that they made themselves. -/
inductive Steps (c : Cursor) : Cursor → Prop
  | refl : Steps c c
  | tail {c' c'' : Cursor} (steps : Steps c c') (step : Step c.func.blocks.size c' c'') :
      Steps c c''

theorem Step.grows {old : Nat} (step : Step old c c') : c.func.Grows c'.func := by
  cases step with
  | emit => exact .of_append _ _ _ _ _
  | slot => exact .of_slot _ _
  | block => exact .of_addBlock _ _
  | move => exact .refl _

theorem Step.older {old old' : Nat} (step : Step old c c') (le : old' ≤ old) : Step old' c c' := by
  cases step with
  | emit planned => exact .emit planned
  | slot some => exact .slot some
  | block inner => exact .block inner
  | move new inside => exact .move (Nat.le_trans le new) inside

@[simp] theorem prepared_size (op : BinOp) (c : Cursor) :
    (prepared op c).func.blocks.size = c.func.blocks.size + 2 := by
  simp [prepared]

namespace Steps

variable {c c' c'' : Cursor}

theorem grows (steps : Steps c c') : c.func.Grows c'.func := by
  induction steps with
  | refl => exact .refl _
  | tail _ step ih => exact ih.trans step.grows

theorem size (steps : Steps c c') : c.func.blocks.size ≤ c'.func.blocks.size := steps.grows.size

theorem trans (first : Steps c c') (second : Steps c' c'') : Steps c c'' := by
  induction second with
  | refl => exact first
  | tail _ step ih => exact ih.tail (step.older first.size)

/-- A property of cursors that every step preserves holds after any number of them. -/
theorem preserve {P : Cursor → Prop} (kept : ∀ old c c', Step old c c' → P c → P c')
    (steps : Steps c c') (start : P c) : P c' := by
  induction steps with
  | refl => exact start
  | tail _ step ih => exact kept _ _ _ step ih

/-- Steps stay in the block of the cursor or go to blocks that they made. -/
theorem block_or (steps : Steps c c') :
    c'.block = c.block ∨ c.func.blocks.size ≤ c'.block := by
  induction steps with
  | refl => exact .inl rfl
  | tail _ step ih =>
    cases step with
    | move new _ => exact .inr new
    | _ => exact ih

/-- The other blocks are left alone. -/
theorem others (steps : Steps c c') {b : Nat} (old : b < c.func.blocks.size) (ne : b ≠ c.block) :
    (c'.func.block b).instrs = (c.func.block b).instrs := by
  induction steps with
  | refl => rfl
  | @tail c₁ c₂ steps step ih =>
    cases step with
    | @emit r op t args planned =>
      have elsewhere : b ≠ c₁.block := by
        rcases steps.block_or with same | new
        · rwa [same]
        · exact Nat.ne_of_lt (Nat.lt_of_lt_of_le old new)
      rw [← ih]
      exact congrArg Block.instrs (Func.append_block_ne _ op t _ elsewhere)
    | slot some => exact ih
    | block inner =>
      rw [← ih]
      exact Func.addBlock_block_instrs _ _ _
    | move _ _ => exact ih

/-- The cursor stays in a block that is there. -/
theorem inside (steps : Steps c c') (start : c.block < c.func.blocks.size) :
    c'.block < c'.func.blocks.size := by
  refine steps.preserve (P := fun c => c.block < c.func.blocks.size)
    (fun old c c' step start => ?_) start
  cases step with
  | move _ inside => exact inside
  | emit => simpa using start
  | slot => simpa using start
  | block =>
    rw [Cursor.blocked_size]
    exact Nat.lt_succ_of_lt start

theorem of_emit {r : Request} {n : Nat} (ran : emit r c = .ok (n, c')) : Steps c c' := by
  obtain ⟨op, t, args, planned, -, rfl⟩ := emit_ok.1 ran
  exact .tail .refl (.emit planned)

theorem addBlock (steps : Steps c c') {k : LabelKind} (inner : k ≠ .entry) : Steps c (c'.blocked k) :=
  steps.tail (.block inner)

theorem addSlot (steps : Steps c c') {t : DataType} (some : t ≠ .void) (name : Text) :
    Steps c (c'.slotted name t) :=
  steps.tail (.slot some)

theorem move (steps : Steps c c') {b : Nat} (new : c.func.blocks.size ≤ b)
    (inside : b < c'.func.blocks.size) : Steps c (c'.moved b) :=
  steps.tail (.move new inside)

theorem of_leaveTo {b : Nat} (left : leaveTo b c = .ok ((), c')) : Steps c c' := by
  rcases leaveTo_ok.1 left with ⟨-, rfl⟩ | ⟨-, n, ran⟩
  · exact .refl
  · exact of_emit ran

theorem of_prepared (op : BinOp) (c : Cursor) : Steps c (prepared op c) := by
  refine ((Steps.addBlock .refl ?_).addBlock (by decide)).addSlot (by decide) _
  split <;> decide

/-- The ways of `&&` and `||`: to the block of the right operand and to the block behind
both, which are empty when the cursor gets there. -/
theorem shortCircuit_ways {op : BinOp} {left n₁ n₂ n₃ n₄ v : Nat} {c₁ c₂ c₃ c₄ c₅ : Cursor}
    (stored : emit (.store c.func.slots.length (.own left)) (prepared op c) = .ok (n₁, c₁))
    (decided : emit (decision op left c.func.blocks.size (c.func.blocks.size + 1)) c₁ = .ok (n₂, c₂))
    (right : Steps (c₂.moved c.func.blocks.size) c₃)
    (stored' : emit (.store c.func.slots.length (.own v)) c₃ = .ok (n₃, c₄))
    (left' : emit (.branch (.own (c.func.blocks.size + 1))) c₄ = .ok (n₄, c₅)) :
    Steps c (c₂.moved c.func.blocks.size) ∧ Steps c (c₅.moved (c.func.blocks.size + 1)) ∧
      (c.block < c.func.blocks.size → (c₂.func.block c.func.blocks.size).instrs = [] ∧
        (c₅.func.block (c.func.blocks.size + 1)).instrs = []) := by
  have first := (of_emit stored).trans (of_emit decided)
  have second := right.trans ((of_emit stored').trans (of_emit left'))
  have sizes := And.intro first.size second.size
  simp only [prepared_size, Cursor.moved_func] at sizes
  have toRight := ((of_prepared op c).trans first).move (Nat.le_refl _) (by omega)
  refine ⟨toRight, (toRight.trans second).move (by omega) (by omega), fun inside => ?_⟩
  have untouched : ∀ b, c.func.blocks.size ≤ b → b < c.func.blocks.size + 2 →
      (c₂.func.block b).instrs = [] := by
    intro b new bound
    have elsewhere : b ≠ c.block := Nat.ne_of_gt (Nat.lt_of_lt_of_le inside new)
    rw [first.others (by rw [prepared_size]; exact bound) elsewhere]
    simp [prepared, Func.instrs_of_size_le new]
  refine ⟨untouched _ (Nat.le_refl _) (by omega), ?_⟩
  have kept := second.others (b := c.func.blocks.size + 1) (by simp only [Cursor.moved_func]; omega)
    (by simp)
  rw [kept]
  exact untouched _ (by omega) (by omega)

end Steps

/-! ## Code without statements -/

/-- A relation between the cursors in front of and behind code in which only `&&` and `||`
make blocks. -/
structure Spans (T : Cursor → Cursor → Prop) : Prop where
  refl : ∀ c, T c c
  trans : ∀ {c c' c'' : Cursor}, T c c' → T c' c'' → T c c''
  emit : ∀ {c c' : Cursor} {r : Request} {n : Nat}, Lower.emit r c = .ok (n, c') →
    r.endsBlock = false → T c c'
  slot : ∀ (c : Cursor) (name : Text) {t : DataType}, t ≠ .void → T c (c.slotted name t)
  short : ∀ {op : BinOp} {left n₁ n₂ n₃ n₄ v : Nat} {c c₁ c₂ c₃ c₄ c₅ : Cursor},
    Lower.emit (.store c.func.slots.length (.own left)) (prepared op c) = .ok (n₁, c₁) →
    Lower.emit (decision op left c.func.blocks.size (c.func.blocks.size + 1)) c₁ = .ok (n₂, c₂) →
    T (c₂.moved c.func.blocks.size) c₃ →
    Lower.emit (.store c.func.slots.length (.own v)) c₃ = .ok (n₃, c₄) →
    Lower.emit (.branch (.own (c.func.blocks.size + 1))) c₄ = .ok (n₄, c₅) →
    T c (c₅.moved (c.func.blocks.size + 1))

namespace Spans

variable {T : Cursor → Cursor → Prop} {c c' : Cursor} {env env' : Slots}

theorem copies (spans : Spans T) {vs ws : List Nat} (copied : Lower.copies vs c = .ok (ws, c')) :
    T c c' := by
  induction vs generalizing c ws with
  | nil =>
    obtain ⟨-, rfl⟩ := copies_nil_ok.1 copied
    exact spans.refl c'
  | cons v vs ih =>
    obtain ⟨_, _, _, ran, copied, -⟩ := copies_cons_ok.1 copied
    exact spans.trans (spans.emit ran rfl) (ih copied)

theorem shortCircuit (spans : Spans T) {op : BinOp} {left n : Nat} {right : Lowering Nat}
    (spanned : ∀ {c₁ c₂ : Cursor} {v : Nat}, right c₁ = .ok (v, c₂) → T c₁ c₂)
    (ran : Lower.shortCircuit op left right c = .ok (n, c')) : T c c' := by
  obtain ⟨_, _, _, _, _, _, _, _, _, _, stored, decided, ran, stored', left', loaded⟩ :=
    shortCircuit_ok.1 ran
  exact spans.trans (spans.short stored decided (spanned ran) stored' left') (spans.emit loaded rfl)

mutual

/-- An expression is spanned. -/
theorem expr (spans : Spans T) : ∀ (e : Expr) {c c' : Cursor} {n : Nat},
    Lower.expr env e c = .ok (n, c') → T c c'
  | .typed x t, _, _, _, ran => by
    obtain ⟨_, _, same, ran⟩ := expr_ok.1 ran
    cases same
    exact spans.form t x ran
  | .int .., _, _, _, ran | .double .., _, _, _, ran | .bool .., _, _, _, ran
  | .string .., _, _, _, ran | .ident .., _, _, _, ran | .unary .., _, _, _, ran
  | .binary .., _, _, _, ran | .call .., _, _, _, ran | .index .., _, _, _, ran
  | .new .., _, _, _, ran | .length .., _, _, _, ran => absurd ran not_fail_ok

theorem form (spans : Spans T) (t : Ty) : ∀ (x : Expr) {c c' : Cursor} {n : Nat},
    Lower.form env t x c = .ok (n, c') → T c c'
  | .int .., _, _, _, ran | .double .., _, _, _, ran | .bool .., _, _, _, ran
  | .string .., _, _, _, ran => by
    simp only [Lower.form] at ran
    exact spans.emit ran rfl
  | .ident .., _, _, _, ran => by
    obtain ⟨_, -, ran⟩ := ident_ok.1 ran
    exact spans.emit ran rfl
  | .unary _ op x, _, _, _, ran => by
    obtain ⟨_, _, operand, ran⟩ := unary_ok.1 ran
    exact spans.trans (spans.expr x operand) (spans.emit ran (by cases op <;> rfl))
  | .binary _ op x y, _, _, _, ran => by
    cases kind : strictRequest? op with
    | some request =>
      obtain ⟨_, _, _, _, left, right, ran⟩ := (strict_ok kind).1 ran
      have last := spans.emit ran (by cases op <;> cases kind <;> rfl)
      exact spans.trans (spans.expr x left) (spans.trans (spans.expr y right) last)
    | none =>
      obtain ⟨_, _, left, ran⟩ := (logical_ok kind).1 ran
      exact spans.trans (spans.expr x left) (spans.shortCircuit (spans.expr y) ran)
  | .call _ _ args, _, _, _, ran => by
    obtain ⟨_, _, _, _, _, evaluated, copied, -, ran⟩ := call_ok.1 ran
    exact spans.trans (spans.exprs args evaluated)
      (spans.trans (spans.copies copied) (spans.emit ran rfl))
  | .index _ a i, _, _, _, ran => by
    obtain ⟨_, _, _, _, _, array, index, -, ran⟩ := index_ok.1 ran
    exact spans.trans (spans.expr a array) (spans.trans (spans.expr i index) (spans.emit ran rfl))
  | .new _ _ sizes, _, _, _, ran => by
    obtain ⟨_, _, _, evaluated, -, ran⟩ := new_ok.1 ran
    exact spans.trans (spans.exprs sizes evaluated) (spans.emit ran rfl)
  | .length _ a _, _, _, _, ran => by
    obtain ⟨_, _, array, ran⟩ := length_ok.1 ran
    exact spans.trans (spans.expr a array) (spans.emit ran rfl)
  | .typed .., _, _, _, ran => absurd ran not_typed_ok

theorem exprs (spans : Spans T) : ∀ (es : List Expr) {c c' : Cursor} {ns : List Nat},
    Lower.exprs env es c = .ok (ns, c') → T c c'
  | [], _, _, _, ran => by
    obtain ⟨-, rfl⟩ := exprs_nil_ok.1 ran
    exact spans.refl _
  | e :: es, _, _, _, ran => by
    obtain ⟨_, _, _, first, rest, -⟩ := exprs_cons_ok.1 ran
    exact spans.trans (spans.expr e first) (spans.exprs es rest)

end

theorem initial (spans : Spans T) {d : DataType} {item : DeclItem} {n : Nat}
    (ran : Lower.initial env d item c = .ok (n, c')) : T c c' := by
  obtain ⟨_, _, init⟩ := item
  cases init with
  | some e => exact spans.expr e ran
  | none =>
    obtain ⟨_, known, ran⟩ := zero_ok.1 ran
    exact spans.emit ran (by cases d <;> cases known <;> rfl)

theorem declare (spans : Spans T) {d : DataType} {items : List DeclItem}
    (ran : Lower.declare env d items c = .ok (env', c')) : T c c' := by
  induction items generalizing env c with
  | nil =>
    obtain ⟨-, rfl⟩ := declare_nil_ok.1 ran
    exact spans.refl c'
  | cons item items ih =>
    obtain ⟨_, _, _, _, ran, some, stored, rest⟩ := declare_cons_ok.1 ran
    exact spans.trans (spans.initial ran) (spans.trans (spans.slot _ _ some)
      (spans.trans (spans.emit stored rfl) (ih rest)))

theorem assign (spans : Spans T) {p : Pos} {value target : Expr} {u : Unit}
    (ran : Lower.assign env p value target c = .ok (u, c')) : T c c' := by
  rcases assign_target ran with ⟨_, _, rfl⟩ | ⟨_, _, _, rfl⟩
  · obtain ⟨_, _, _, _, -, ran, stored⟩ := assign_ident_ok.1 ran
    exact spans.trans (spans.expr _ ran) (spans.emit stored rfl)
  · obtain ⟨_, _, _, _, _, _, _, array, index, ran, stored⟩ := assign_index_ok.1 ran
    exact spans.trans (spans.expr _ array) (spans.trans (spans.expr _ index)
      (spans.trans (spans.expr _ ran) (spans.emit stored rfl)))

theorem count (spans : Spans T) {s : Nat} {op : ArithOp}
    (counted : Lower.count s op c = .ok ((), c')) : T c c' := by
  obtain ⟨_, _, _, _, _, _, _, loaded, made, added, stored⟩ := count_ok.1 counted
  exact spans.trans (spans.emit loaded rfl) (spans.trans (spans.emit made rfl)
    (spans.trans (spans.emit added rfl) (spans.emit stored rfl)))

theorem forCounter (spans : Spans T) {name : Text} {a l counter : Nat}
    (ran : ForCounter name a c l counter c') : T c c' := by
  obtain ⟨len, made, stored⟩ := ran
  exact spans.trans (spans.emit len rfl) (spans.trans (spans.slot _ _ (by decide))
    (spans.trans (spans.emit made rfl) (spans.emit stored rfl)))

theorem forTest (spans : Spans T) {counter l more : Nat} (ran : ForTest counter l c more c') :
    T c c' := by
  obtain ⟨loaded, compared⟩ := ran
  exact spans.trans (spans.emit loaded rfl) (spans.emit compared rfl)

theorem forElement (spans : Spans T) {counter a slot : Nat} {d : DataType}
    (ran : ForElement counter a slot d c c') : T c c' := by
  obtain ⟨loaded, element, stored⟩ := ran
  exact spans.trans (spans.emit loaded rfl)
    (spans.trans (spans.emit element rfl) (spans.emit stored rfl))

theorem storeParams (spans : Spans T) {k : Nat} {ps : List (Param × DataType)}
    (ran : Lower.storeParams env k ps c = .ok (env', c')) : T c c' := by
  induction ps generalizing env k c with
  | nil =>
    obtain ⟨-, rfl⟩ := storeParams_nil_ok.1 ran
    exact spans.refl c'
  | cons q ps ih =>
    obtain ⟨some, _, _, _, _, got, stored, rest⟩ := storeParams_cons_ok.1 ran
    exact spans.trans (spans.slot _ _ some) (spans.trans (spans.emit got rfl)
      (spans.trans (spans.emit stored rfl) (ih rest)))

end Spans

theorem spans_steps : Spans Steps where
  refl _ := .refl
  trans := Steps.trans
  emit ran _ := .of_emit ran
  slot _ name _ some := Steps.refl.addSlot some name
  short stored decided right stored' left' :=
    (Steps.shortCircuit_ways stored decided right stored' left').2.1

/-- Lowering an expression is a sequence of steps. -/
theorem expr_steps {env : Slots} (e : Expr) {n : Nat}
    (ran : expr env e c = .ok (n, c')) : Steps c c' :=
  spans_steps.expr e ran

namespace Steps

variable {c c' : Cursor}

theorem of_rounds {counter head : Nat} (round : Rounds counter head c c') : Steps c c' := by
  rcases round with ⟨-, rfl⟩ | ⟨-, c₁, n, counted, left⟩
  · exact .refl
  · exact (spans_steps.count counted).trans (of_emit left)

theorem of_withIfBlocks (c : Cursor) : Steps c (withIfBlocks c) :=
  (Steps.refl.addBlock (by decide)).addBlock (by decide)

theorem of_withIfElseBlocks (c : Cursor) : Steps c (withIfElseBlocks c) :=
  ((Steps.refl.addBlock (by decide)).addBlock (by decide)).addBlock (by decide)

theorem of_withWhileBlocks (c : Cursor) : Steps c (withWhileBlocks c) :=
  ((Steps.refl.addBlock (by decide)).addBlock (by decide)).addBlock (by decide)

theorem of_withForBlocks (c : Cursor) : Steps c (withForBlocks c) :=
  ((Steps.refl.addBlock (by decide)).addBlock (by decide)).addBlock (by decide)

theorem of_closes {ret : DataType} (closed : Closes ret c c') : Steps c c' := by
  rcases closed with ⟨-, rfl⟩ | ⟨-, n, ran⟩
  · exact .refl
  · exact of_emit ran

end Steps

/-- The slot of a counter is new. -/
theorem ForCounter.new {name : Text} {a l counter : Nat}
    (ran : ForCounter name a c l counter c') : c.func.slots.length ≤ counter := by
  obtain ⟨len, -, -⟩ := ran
  exact (Steps.of_emit len).grows.slots_length

@[simp] theorem withIfBlocks_size (c : Cursor) :
    (withIfBlocks c).func.blocks.size = c.func.blocks.size + 2 := by
  simp [withIfBlocks]

@[simp] theorem withIfElseBlocks_size (c : Cursor) :
    (withIfElseBlocks c).func.blocks.size = c.func.blocks.size + 3 := by
  simp [withIfElseBlocks]

@[simp] theorem withWhileBlocks_size (c : Cursor) :
    (withWhileBlocks c).func.blocks.size = c.func.blocks.size + 3 := by
  simp [withWhileBlocks]

@[simp] theorem withForBlocks_size (c : Cursor) :
    (withForBlocks c).func.blocks.size = c.func.blocks.size + 3 := by
  simp [withForBlocks]

/-! ## Blocks that wait to be filled -/

/-- A block that was made and not yet filled, elsewhere than the cursor. -/
structure Fresh (c : Cursor) (b : Nat) : Prop where
  inside : b < c.func.blocks.size
  away : b ≠ c.block
  empty : (c.func.block b).instrs = []

namespace Fresh

variable {c c' : Cursor} {b : Nat}

/-- Steps leave a fresh block alone. -/
theorem steps (fresh : Fresh c b) (steps : Steps c c') : Fresh c' b where
  inside := Nat.lt_of_lt_of_le fresh.inside steps.size
  away := by
    rcases steps.block_or with same | new
    · rw [same]
      exact fresh.away
    · exact Nat.ne_of_lt (Nat.lt_of_lt_of_le fresh.inside new)
  empty := (steps.others fresh.inside fresh.away).trans fresh.empty

theorem moved (fresh : Fresh c b) {b' : Nat} (ne : b ≠ b') : Fresh (c.moved b') b :=
  ⟨fresh.inside, ne, fresh.empty⟩

/-- Blocks are fresh when they are made. -/
theorem of_new (inside : c.block < c.func.blocks.size) (block : c'.block = c.block)
    (instrs : (c'.func.block b).instrs = (c.func.block b).instrs) (new : c.func.blocks.size ≤ b)
    (made : b < c'.func.blocks.size) : Fresh c' b :=
  ⟨made, by rw [block]; exact (Nat.ne_of_lt (Nat.lt_of_lt_of_le inside new)).symm,
    instrs.trans (Func.instrs_of_size_le new)⟩

theorem of_prepared (op : BinOp) (inside : c.block < c.func.blocks.size)
    (new : c.func.blocks.size ≤ b) (made : b < c.func.blocks.size + 2) : Fresh (prepared op c) b :=
  of_new inside rfl (by simp [prepared]) new (by simpa using made)

theorem of_withIfBlocks (inside : c.block < c.func.blocks.size) (new : c.func.blocks.size ≤ b)
    (made : b < c.func.blocks.size + 2) : Fresh (withIfBlocks c) b :=
  of_new inside rfl (by simp [withIfBlocks]) new (by simpa using made)

theorem of_withIfElseBlocks (inside : c.block < c.func.blocks.size) (new : c.func.blocks.size ≤ b)
    (made : b < c.func.blocks.size + 3) : Fresh (withIfElseBlocks c) b :=
  of_new inside rfl (by simp [withIfElseBlocks]) new (by simpa using made)

end Fresh

/-- The ways to three blocks that are made at `c` and filled one after the other: the cursor
goes to them from `c₁`, `c₂` and `c₃`, and finds them empty. -/
structure Ways (c c₁ c₂ c₃ : Cursor) : Prop where
  first : Steps c (c₁.moved c.func.blocks.size)
  second : Steps c (c₂.moved (c.func.blocks.size + 1))
  third : Steps c (c₃.moved (c.func.blocks.size + 2))
  fresh : c.block < c.func.blocks.size → Fresh c₁ c.func.blocks.size ∧
    Fresh c₂ (c.func.blocks.size + 1) ∧ Fresh c₃ (c.func.blocks.size + 2)

theorem Ways.of_blocks {c c₁ c₂ c₃ : Cursor} {k₁ k₂ k₃ : LabelKind}
    (inner : k₁ ≠ .entry ∧ k₂ ≠ .entry ∧ k₃ ≠ .entry)
    (enter : Steps (((c.blocked k₁).blocked k₂).blocked k₃) c₁)
    (fill : Steps (c₁.moved c.func.blocks.size) c₂)
    (fill' : Steps (c₂.moved (c.func.blocks.size + 1)) c₃) : Ways c c₁ c₂ c₃ := by
  have made := ((Steps.refl (c := c).addBlock inner.1).addBlock inner.2.1).addBlock inner.2.2
  have sizes := And.intro enter.size (And.intro fill.size fill'.size)
  simp only [Cursor.blocked_size, Cursor.moved_func] at sizes
  have first := (made.trans enter).move (b := c.func.blocks.size) (Nat.le_refl _) (by omega)
  have second := (first.trans fill).move (b := c.func.blocks.size + 1) (by omega) (by omega)
  refine ⟨first, second, (second.trans fill').move (by omega) (by omega), fun inside => ?_⟩
  have fresh : ∀ {b : Nat}, c.func.blocks.size ≤ b → b < c.func.blocks.size + 3 → Fresh c₁ b := by
    intro b new made
    have empty : Fresh (((c.blocked k₁).blocked k₂).blocked k₃) b :=
      .of_new inside rfl (by simp) new (by simp only [Cursor.blocked_size]; exact made)
    exact empty.steps enter
  have waits : ∀ {b : Nat}, c.func.blocks.size < b → b < c.func.blocks.size + 3 → Fresh c₂ b :=
    fun new made => ((fresh (Nat.le_of_lt new) made).moved (Nat.ne_of_gt new)).steps fill
  exact ⟨fresh (Nat.le_refl _) (by omega), waits (by omega) (by omega),
    ((waits (by omega) (by omega)).moved (by omega)).steps fill'⟩

/-! ## Statements -/

mutual

/-- Lowering a statement is a sequence of steps. -/
theorem stmt_steps : ∀ (s : Stmt) {env env' : Slots} {c c' : Cursor},
    stmt env s c = .ok (env', c') → Steps c c'
  | .block _ body, _, _, _, _, ran => by
    obtain ⟨-, _, ran⟩ := block_ok.1 ran
    exact stmts_steps body ran
  | .decl .., _, _, _, _, ran => by
    obtain ⟨_, -, ran⟩ := decl_ok.1 ran
    exact spans_steps.declare ran
  | .assign .., _, _, _, _, ran => spans_steps.assign (assign_stmt_ok.1 ran).2
  | .incr .., _, _, _, _, ran => by
    obtain ⟨-, _, -, ran⟩ := incr_ok.1 ran
    exact spans_steps.count ran
  | .ifThen _ _ yes, _, _, _, _, run => by
    obtain ⟨-, _, c₁, _, c₂, _, c₃, c₄, cond, branched, ran, left, rfl⟩ := ifThen_ok.1 run
    have inner := (stmt_steps yes ran).trans (.of_leaveTo left)
    have sizes := And.intro (Steps.of_emit branched).size inner.size
    simp only [withIfBlocks_size, Cursor.moved_func] at sizes
    have branch := (Steps.of_withIfBlocks c₁).trans (.of_emit branched)
    have both := (branch.move (Nat.le_refl _) (by omega)).trans inner
    exact (expr_steps _ cond).trans (both.move (by omega) (by omega))
  | .ifElse _ _ yes no, _, _, _, _, run => by
    obtain ⟨-, _, _, _, _, _, _, _, _, _, _, cond, branched, ran, left, ran', left', rfl⟩ :=
      ifElse_ok.1 run
    have ways := Ways.of_blocks (by decide) (.of_emit branched)
      ((stmt_steps yes ran).trans (.of_leaveTo left)) ((stmt_steps no ran').trans (.of_leaveTo left'))
    exact (expr_steps _ cond).trans ways.third
  | .while _ _ body, _, _, _, _, run => by
    obtain ⟨-, _, _, _, _, _, _, _, _, _, entered, cond, branched, ran, left, rfl⟩ := while_ok.1 run
    exact (Ways.of_blocks (by decide) (.of_emit entered) ((expr_steps _ cond).trans (.of_emit branched))
      ((stmt_steps body ran).trans (.of_leaveTo left))).third
  | .forEach _ _ name _ body, _, _, _, _, run => by
    obtain ⟨-, _, _, _, _, _, _, _, _, _, _, _, _, _, _, _, _, array, counter, entered, test,
      branched, -, some, element, ran, round, rfl⟩ := forEach_ok.1 run
    have before := (expr_steps _ array).trans (spans_steps.forCounter counter)
    have head := (spans_steps.forTest test).trans (.of_emit branched)
    have inner := (Steps.refl.addSlot some name).trans ((spans_steps.forElement element).trans
      ((stmt_steps body ran).trans (.of_rounds round)))
    exact before.trans (Ways.of_blocks (by decide) (.of_emit entered) head inner).third
  | .ret .., _, _, _, _, ran => by
    obtain ⟨-, _, _, _, _, _, ran, left, marked⟩ := ret_ok.1 ran
    exact (expr_steps _ ran).trans ((Steps.of_emit left).trans (.of_emit marked))
  | .retVoid _, _, _, _, _, ran => by
    obtain ⟨-, _, _, _, left, marked⟩ := retVoid_ok.1 ran
    exact (Steps.of_emit left).trans (.of_emit marked)
  | .expr .., _, _, _, _, ran => by
    obtain ⟨-, _, ran⟩ := effect_ok.1 ran
    exact expr_steps _ ran
  | .empty _, _, _, _, _, ran => by
    obtain ⟨-, rfl⟩ := empty_ok.1 ran
    exact .refl

theorem stmts_steps : ∀ (ss : List Stmt) {env env' : Slots} {c c' : Cursor},
    stmts env ss c = .ok (env', c') → Steps c c'
  | [], _, _, _, _, ran => by
    obtain ⟨-, rfl⟩ := stmts_nil_ok.1 ran
    exact .refl
  | s :: ss, _, _, _, _, ran => by
    obtain ⟨_, _, first, rest⟩ := stmts_cons_ok.1 ran
    exact (stmt_steps s first).trans (stmts_steps ss rest)

end

/-- The whole of a function is made by steps from its empty entry block. -/
theorem body_steps {f : FuncDef} {u : Unit} (ran : body f c = .ok (u, c')) :
    ∃ params ret, Steps (opening f ret params) c' := by
  obtain ⟨params, ret, _, _, _, _, -, -, stored, ran, closed⟩ := body_ok.1 ran
  exact ⟨params, ret, (spans_steps.storeParams stored).trans ((stmts_steps _ ran).trans (.of_closes closed))⟩

end ImpCompiler.Lower
