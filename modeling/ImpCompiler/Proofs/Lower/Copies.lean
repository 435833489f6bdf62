import ImpCompiler.Proofs.Live.Copies

/-!
# Proofs.Lower.Copies — what lowering copies it uses for nothing else

The arguments of a call are computed one after another and copied when all of them are there. The
code of an expression uses only values of its own (`Adds`), so an argument stays unused until it
is copied (`Unspent`), however many others are computed after it. In between only `&&` and `||`
make blocks, and nothing branches to them later; so the blocks that statements branch to stay idle
(`Going`), also the heads of loops, to which control comes back.
-/

namespace ImpCompiler.Lower

set_option autoImplicit false

variable {c₀ c c' c'' : Cursor} {b k m n : Nat}

/-! ## Code that uses values of its own -/

/-- Lowering keeps functions well typed. -/
theorem Steps.wellTyped (steps : Steps c c') (typed : c.func.WellTyped)
    (inside : c.block < c.func.blocks.size) : c'.func.WellTyped := by
  refine (steps.preserve (P := fun c => c.func.WellTyped ∧ c.block < c.func.blocks.size)
    (fun old c c' step kept => ?_) ⟨typed, inside⟩).1
  obtain ⟨typed, inside⟩ := kept
  cases step with
  | emit planned =>
    exact ⟨typed.oneMore (.append inside) (planned.rule), by simpa using inside⟩
  | slot some => exact ⟨typed.addSlot some, inside⟩
  | block inner =>
    refine ⟨typed.addBlock _, ?_⟩
    rw [Cursor.blocked_size]
    exact Nat.lt_succ_of_lt inside
  | move new inside => exact ⟨typed, inside⟩

/-- The cursor is in a function where what is copied has no other use. -/
structure Neat (c : Cursor) : Prop where
  inside : c.block < c.func.blocks.size
  typed : c.func.WellTyped
  copied : c.func.Copied

/-- Code was added that uses and copies only what it computes itself. -/
structure Adds (c c' : Cursor) : Prop where
  neat : Neat c'
  steps : Steps c c'
  later : c.func.Later c'.func
  own : ∀ {k m : Nat}, c.func.arena.size ≤ k → c'.func.UsesValue k m → c.func.arena.size ≤ m

/-- A value of the code behind `c₀` that nothing uses. When it was computed, the cursor was in
its block. -/
structure Unspent (c₀ c : Cursor) (m : Nat) : Prop where
  new : c₀.func.arena.size ≤ m
  plain : ¬ c.func.IsCopy m
  unused : ∀ k, ¬ c.func.UsesValue k m
  made : ∃ c₁, Steps c₀ c₁ ∧ Steps c₁ c ∧ Neat c₁ ∧ c₁.func.arena.size = m + 1 ∧
    m ∈ (c₁.func.block c₁.block).instrs

namespace Adds

theorem refl (neat : Neat c) : Adds c c :=
  ⟨neat, .refl, .refl _, fun outside used => absurd used.lt_size (Nat.not_lt.2 outside)⟩

theorem trans (first : Adds c c') (second : Adds c' c'') : Adds c c'' where
  neat := second.neat
  steps := first.steps.trans second.steps
  later := first.later.trans second.later
  own {k m} new used := by
    by_cases early : k < c'.func.arena.size
    · rw [Func.UsesValue, second.later.grows.arena_eq early] at used
      exact first.own new used
    · exact Nat.le_trans first.later.grows.arena_le (second.own (Nat.not_lt.1 early) used)

/-- Blocks and slots are made. -/
theorem silent (first : Adds c₀ c) (steps : Steps c c') (arena : c'.func.arena = c.func.arena)
    (instrs : ∀ b, (c'.func.block b).instrs = (c.func.block b).instrs) : Adds c₀ c' where
  neat := ⟨steps.inside first.neat.inside, steps.wellTyped first.neat.typed first.neat.inside,
    first.neat.copied.congr arena instrs⟩
  steps := first.steps.trans steps
  later := first.later.trans (.silent steps.grows arena instrs)
  own new used := by
    rw [Func.UsesValue, arena] at used
    exact first.own new used

theorem moved (first : Adds c₀ c) (new : c₀.func.blocks.size ≤ b) (inside : b < c.func.blocks.size) :
    Adds c₀ (c.moved b) :=
  ⟨⟨inside, first.neat.typed, first.neat.copied⟩, first.steps.move new inside, first.later, first.own⟩

end Adds

namespace Unspent

theorem lt_size (unspent : Unspent c₀ c m) : m < c.func.arena.size := by
  obtain ⟨c₁, -, after, -, size, -⟩ := unspent.made
  have := after.grows.arena_le
  omega

theorem spare (unspent : Unspent c₀ c m) : c.func.Spare m :=
  ⟨unspent.lt_size, unspent.plain, fun n copy => unspent.unused n copy.uses⟩

theorem older (unspent : Unspent c c' m) (steps : Steps c₀ c) : Unspent c₀ c' m := by
  obtain ⟨c₁, before, rest⟩ := unspent.made
  exact ⟨Nat.le_trans steps.grows.arena_le unspent.new, unspent.plain, unspent.unused,
    c₁, steps.trans before, rest⟩

theorem adds (unspent : Unspent c₀ c m) (adds : Adds c c') : Unspent c₀ c' m := by
  have inside := unspent.lt_size
  obtain ⟨c₁, before, after, rest⟩ := unspent.made
  refine ⟨unspent.new, (adds.later.spare unspent.spare).2.1, fun k used => ?_,
    c₁, before, after.trans adds.steps, rest⟩
  by_cases old : k < c.func.arena.size
  · rw [Func.UsesValue, adds.later.grows.arena_eq old] at used
    exact unspent.unused k used
  · exact absurd inside (Nat.not_lt.2 (adds.own (Nat.not_lt.1 old) used))

/-- The blocks that got code since the value was computed, and do not compute it, were made
since, and so was what branches to them. -/
theorem beyond (unspent : Unspent c₀ c m) (outside : m ∉ (c.func.block b).instrs)
    (since : b = c.block ∨ ∃ k ∈ (c.func.block b).instrs, m < k) :
    c₀.func.blocks.size ≤ b ∧ ∀ t, c.func.BranchesTo t b → m < t := by
  obtain ⟨c₁, before, after, neat, size, here⟩ := unspent.made
  have elsewhere : b ≠ c₁.block := by
    rintro rfl
    exact outside ((after.grows.instrs _).subset here)
  have new : c₁.func.blocks.size ≤ b := by
    rcases since with rfl | ⟨k, member, low⟩
    · exact after.block_or.resolve_left elsewhere
    · by_contra old
      rw [after.others (Nat.not_le.1 old) elsewhere] at member
      have := neat.typed.lt_size member
      omega
  refine ⟨Nat.le_trans before.size new, fun t goes => ?_⟩
  by_contra early
  obtain ⟨i, known, goes⟩ := goes
  rw [after.grows.arena_eq (by omega)] at known
  exact absurd ((neat.typed.rules t i known).targets b goes) (Nat.not_lt.2 new)

end Unspent

/-! ## Instructions -/

/-- An operand of an instruction at the cursor: a value of the code that is not copied, or a copy
in the block of the cursor. -/
structure Usable (c₀ c : Cursor) (m : Nat) : Prop where
  new : c₀.func.arena.size ≤ m
  free : ∀ n, ¬ c.func.CopyOf n m
  here : c.func.IsCopy m → m ∈ (c.func.block c.block).instrs

theorem Unspent.usable (unspent : Unspent c₀ c m) : Usable c₀ c m :=
  ⟨unspent.new, unspent.spare.2.2, fun copy => absurd copy unspent.plain⟩

/-- An instruction that only uses what is usable adds to the code. -/
theorem Adds.emitted (first : Adds c₀ c) {r : Request} {op : Op} {u : DataType} {args : List ValueRef}
    (planned : c.func.Plans r (op, u, args))
    (operands : ∀ v ∈ args, Usable c₀ c v.number) (idle : ∀ b ∈ op.targets, c.func.Idle b)
    (source : op = .copy → ∀ v ∈ args, Unspent c₀ c v.number) :
    Adds c₀ (c.emitted op u (args.map fun v => (v.number : Value))) := by
  have neat := first.neat
  have rule := planned.rule
  have more : c.func.OneMore c.block _ (c.emitted op u (args.map fun v => (v.number : Value))).func :=
    .append neat.inside
  have used : ∀ {P : Nat → Prop}, (∀ v ∈ args, P v.number) →
      ∀ m : Nat, (m : Value) ∈ args.map (fun v => (v.number : Value)) → P m := by
    intro P all m member
    obtain ⟨v, known, same⟩ := List.mem_map.1 member
    cases Int.ofNat.inj same
    exact all v known
  have beyond : op = .copy → ∀ m : Nat, (m : Value) ∈ args.map (fun v => (v.number : Value)) →
      Unspent c₀ c m ∧ ∀ b, (c.emitted op u (args.map fun v => (v.number : Value))).func.Between m
        c.func.arena.size b → c₀.func.blocks.size ≤ b ∧ ∀ t, c.func.BranchesTo t b → m < t := by
    intro copy m member
    have unspent := used (source copy) m member
    refine ⟨unspent, fun b between => ?_⟩
    obtain ⟨outside, since⟩ := more.between_new between
    exact unspent.beyond outside since
  refine ⟨⟨by simpa using neat.inside, neat.typed.oneMore more rule, ?_⟩, first.steps.tail (.emit planned),
    ?_, fun {k m} new uses => ?_⟩
  · refine neat.copied.oneMore more neat.typed rule (used fun v member => ?_) idle fun copy m member => ?_
    · exact ⟨(operands v member).free, (operands v member).here⟩
    · obtain ⟨unspent, near⟩ := beyond copy m member
      exact ⟨unspent.plain, unspent.unused, fun between goes => (near _ between).2 _ goes⟩
  · refine first.later.oneMore more fun copy m member => ?_
    obtain ⟨unspent, near⟩ := beyond copy m member
    exact ⟨unspent.new, fun b between => (near b between).1⟩
  · rcases more.uses_cases uses with known | ⟨-, member⟩
    · exact first.own new known
    · exact used (fun v member => (operands v member).new) m member

/-- An instruction that is no copy. -/
theorem Adds.plain (first : Adds c₀ c) {r : Request} (ran : emit r c = .ok (n, c'))
    (noCopy : ∀ x, r ≠ .copy x) (operands : ∀ m, .own m ∈ r.operands → Usable c₀ c m)
    (idle : ∀ b, .own b ∈ r.targets → c.func.Idle b) :
    Adds c₀ c' ∧ c.func.Later c'.func ∧ Unspent c₀ c' n := by
  obtain ⟨op, u, args, planned, rfl, rfl⟩ := emit_ok.1 ran
  have accepted := planned.planned
  have plain : op ≠ .copy := by
    rintro rfl
    obtain ⟨x, copy⟩ := planned.copies
    exact noCopy x copy
  have added := first.emitted planned (fun v member => operands _ (accepted.value member).2)
    (fun b goes => idle b (accepted.targets b goes).2) fun copy => absurd copy plain
  have more : c.func.OneMore c.block _ (c.emitted op u (args.map fun v => (v.number : Value))).func :=
    .append first.neat.inside
  refine ⟨added, (Func.Later.refl c.func).oneMore more fun copy => absurd copy plain,
    first.later.grows.arena_le, fun copy => ?_, fun k used => ?_, _, added.steps, .refl, added.neat, ?_, ?_⟩
  · obtain ⟨i, known, copy⟩ := copy
    rw [more.instr_new] at known
    cases known
    exact plain copy
  · exact more.unused added.neat.typed used
  · simp [more.arena]
  · simp [more.block]

/-- A copy of an argument, which is used in the block of the cursor. -/
structure Moved (c₀ c : Cursor) (w : Nat) : Prop extends Usable c₀ c w where
  copy : c.func.IsCopy w

/-- A copy spends the value that it copies. -/
theorem Adds.copy (first : Adds c₀ c) (value : Unspent c₀ c m)
    (ran : emit (.copy (.own m)) c = .ok (n, c')) :
    Adds c₀ c' ∧ Moved c₀ c' n ∧ (∀ w, Moved c₀ c w → Moved c₀ c' w) ∧
      ∀ v, v ≠ m → Unspent c₀ c v → Unspent c₀ c' v := by
  have steps := Steps.of_emit ran
  obtain ⟨op, u, args, planned, rfl, rfl⟩ := emit_ok.1 ran
  cases planned
  rename_i known
  have added := first.emitted (.copy known)
    (by simpa using value.usable)
    (by simp [Op.targets]) (by simpa using value)
  have more : c.func.OneMore c.block _ (c.emitted .copy u [(m : Value)]).func := .append first.neat.inside
  have copies : ∀ {k w}, (c.emitted .copy u [(m : Value)]).func.CopyOf k w → c.func.CopyOf k w ∨ w = m := by
    intro k w copy
    rcases more.copyOf_cases copy with old | ⟨-, -, used⟩
    · exact .inl old
    · exact .inr (Int.ofNat.inj (List.mem_singleton.1 used))
  refine ⟨added, ⟨⟨first.later.grows.arena_le, fun k copy => ?_, fun _ => ?_⟩, ?_⟩, fun w moved => ?_,
    fun v other unspent => ?_⟩
  · exact more.unused added.neat.typed copy.uses
  · simp [more.block]
  · exact ⟨_, more.instr_new, rfl⟩
  · obtain ⟨i, known, op⟩ := moved.copy
    refine ⟨⟨moved.new, fun k copy => ?_, fun _ => ?_⟩, i, more.grows.instr known, op⟩
    · rcases copies copy with old | rfl
      · exact moved.free k old
      · exact value.plain moved.copy
    · exact (more.grows.instrs _).subset (moved.here moved.copy)
  · obtain ⟨c₁, before, after, rest⟩ := unspent.made
    have inside := unspent.lt_size
    refine ⟨unspent.new, fun copy => ?_, fun k used => ?_, c₁, before, after.trans steps, rest⟩
    · exact unspent.plain ((more.isCopy_cases copy).resolve_right (by omega))
    · rcases more.uses_cases used with old | ⟨-, used⟩
      · exact unspent.unused k old
      · exact other (Int.ofNat.inj (List.mem_singleton.1 used))

theorem copies_adds {vs ws : List Nat} (first : Adds c₀ c) (values : ∀ v ∈ vs, Unspent c₀ c v)
    (distinct : vs.Nodup) (ran : copies vs c = .ok (ws, c')) :
    Adds c₀ c' ∧ (∀ w ∈ ws, Moved c₀ c' w) ∧ ∀ w, Moved c₀ c w → Moved c₀ c' w := by
  induction vs generalizing c ws with
  | nil =>
    obtain ⟨rfl, rfl⟩ := copies_nil_ok.1 ran
    exact ⟨first, by simp, fun _ => id⟩
  | cons v vs ih =>
    obtain ⟨w, c₁, ws, copied, ran', rfl⟩ := copies_cons_ok.1 ran
    obtain ⟨here, others⟩ := List.forall_mem_cons.1 values
    obtain ⟨single, distinct⟩ := List.nodup_cons.1 distinct
    obtain ⟨second, moved, kept, unspent⟩ := first.copy here copied
    obtain ⟨third, rest, kept'⟩ := ih second
      (fun u member => unspent u (fun same => single (same ▸ member)) (others u member)) distinct ran'
    exact ⟨third, List.forall_mem_cons.2 ⟨kept' w moved, rest⟩, fun u old => kept' u (kept u old)⟩

/-! ## Code on the way -/

/-- Code behind `c₀` up to the cursor, with values at hand and blocks that can be branched to. -/
structure Going (c₀ : Cursor) (held waiting : List Nat) (c : Cursor) : Prop where
  adds : Adds c₀ c
  held : ∀ m ∈ held, c₀.func.arena.size ≤ m ∧ c.func.Spare m
  waiting : ∀ b ∈ waiting, c₀.func.blocks.size ≤ b ∧ b < c.func.blocks.size ∧ c.func.Idle b

namespace Going

variable {held held' waiting : List Nat}

theorem start (neat : Neat c) : Going c [] [] c := ⟨.refl neat, by simp, by simp⟩

theorem fewer (going : Going c₀ held waiting c) (subset : ∀ m ∈ held', m ∈ held) :
    Going c₀ held' waiting c :=
  ⟨going.adds, fun m member => going.held m (subset m member), going.waiting⟩

theorem later (going : Going c₀ held waiting c) (adds : Adds c₀ c') (later : c.func.Later c'.func) :
    Going c₀ held waiting c' where
  adds := adds
  held m member := by
    obtain ⟨new, spare⟩ := going.held m member
    exact ⟨new, later.spare spare⟩
  waiting b member := by
    obtain ⟨new, inside, idle⟩ := going.waiting b member
    exact ⟨new, Nat.lt_of_lt_of_le inside later.grows.size, later.idle inside idle⟩

theorem run (going : Going c₀ held waiting c) (added : Adds c c') : Going c₀ held waiting c' :=
  going.later (going.adds.trans added) added.later

theorem value (going : Going c₀ held waiting c) (unspent : Unspent c₀ c n) :
    Going c₀ (n :: held) waiting c :=
  ⟨going.adds, List.forall_mem_cons.2 ⟨⟨unspent.new, unspent.spare⟩, going.held⟩, going.waiting⟩

/-- The code of an expression. -/
theorem computed (going : Going c₀ held waiting c) (added : Adds c c' ∧ Unspent c c' n) :
    Going c₀ (n :: held) waiting c' :=
  (going.run added.1).value (added.2.older going.adds.steps)

theorem usable (going : Going c₀ held waiting c) (member : m ∈ held) : Usable c₀ c m := by
  obtain ⟨new, -, plain, free⟩ := going.held m member
  exact ⟨new, free, fun copy => absurd copy plain⟩

theorem emit (going : Going c₀ held waiting c) {r : Request} (ran : Lower.emit r c = .ok (n, c'))
    (noCopy : ∀ x, r ≠ .copy x) (operands : ∀ m, .own m ∈ r.operands → m ∈ held)
    (targets : ∀ b, .own b ∈ r.targets → b ∈ waiting) : Going c₀ (n :: held) waiting c' := by
  obtain ⟨added, later, unspent⟩ := going.adds.plain ran noCopy
    (fun m used => going.usable (operands m used)) fun b goes => (going.waiting b (targets b goes)).2.2
  exact (going.later added later).value unspent

/-- The last instruction of an expression. -/
theorem result (going : Going c₀ held waiting c) {r : Request} (ran : Lower.emit r c = .ok (n, c'))
    (noCopy : ∀ x, r ≠ .copy x) (operands : ∀ m, .own m ∈ r.operands → m ∈ held)
    (targets : r.targets = []) : Adds c₀ c' ∧ Unspent c₀ c' n := by
  obtain ⟨added, -, unspent⟩ := going.adds.plain ran noCopy
    (fun m used => going.usable (operands m used)) (by simp [targets])
  exact ⟨added, unspent⟩

/-- New blocks, which can be branched to, and new slots. -/
theorem opened (going : Going c₀ held waiting c) (steps : Steps c c')
    (arena : c'.func.arena = c.func.arena)
    (instrs : ∀ b, (c'.func.block b).instrs = (c.func.block b).instrs) (new : List Nat)
    (made : ∀ b ∈ new, c.func.blocks.size ≤ b ∧ b < c'.func.blocks.size) :
    Going c₀ held (new ++ waiting) c' := by
  have next := going.later (going.adds.silent steps arena instrs) (.silent steps.grows arena instrs)
  refine ⟨next.adds, next.held, fun b member => ?_⟩
  rcases List.mem_append.1 member with new | old
  · obtain ⟨low, high⟩ := made b new
    refine ⟨Nat.le_trans going.adds.steps.size low, high, Func.idle_of_empty ?_⟩
    rw [instrs, Func.instrs_of_size_le low]
  · exact next.waiting b old

theorem slotted (going : Going c₀ held waiting c) (name : Text) {t : DataType} (some : t ≠ .void) :
    Going c₀ held waiting (c.slotted name t) :=
  going.opened (Steps.refl.addSlot some name) rfl (fun _ => rfl) [] (by simp)

theorem moved (going : Going c₀ held waiting c) (member : b ∈ waiting) :
    Going c₀ held waiting (c.moved b) := by
  obtain ⟨new, inside, -⟩ := going.waiting b member
  exact ⟨going.adds.moved new inside, going.held, going.waiting⟩

theorem leaveTo (going : Going c₀ held waiting c) (left : Lower.leaveTo b c = .ok ((), c'))
    (member : b ∈ waiting) : Going c₀ held waiting c' := by
  rcases leaveTo_ok.1 left with ⟨-, rfl⟩ | ⟨-, n, ran⟩
  · exact going
  · exact (going.emit ran (by simp) (by simp [Request.operands])
      (by simpa [Request.targets] using member)).fewer (by simp +contextual)

theorem count (going : Going c₀ held waiting c) {s : Nat} {op : ArithOp}
    (counted : Lower.count s op c = .ok ((), c')) : Going c₀ held waiting c' := by
  obtain ⟨_, _, _, _, _, _, _, loaded, made, added, stored⟩ := count_ok.1 counted
  have first := going.emit loaded (by simp) (by simp [Request.operands]) (by simp [Request.targets])
  have second := first.emit made (by simp) (by simp [Request.operands]) (by simp [Request.targets])
  have third := second.emit added (by simp) (by simp [Request.operands]) (by simp [Request.targets])
  have fourth := third.emit stored (by simp) (by simp [Request.operands]) (by simp [Request.targets])
  exact fourth.fewer (by simp +contextual)

theorem rounds (going : Going c₀ held waiting c) {counter head : Nat}
    (round : Rounds counter head c c') (member : head ∈ waiting) : Going c₀ held waiting c' := by
  rcases round with ⟨-, rfl⟩ | ⟨-, c₁, n, counted, left⟩
  · exact going
  · exact ((going.count counted).emit left (by simp) (by simp [Request.operands])
      (by simpa [Request.targets] using member)).fewer (by simp +contextual)

theorem forCounter (going : Going c₀ held waiting c) {name : Text} {a l counter : Nat}
    (ran : ForCounter name a c l counter c') (array : a ∈ held) : Going c₀ (l :: held) waiting c' := by
  obtain ⟨len, made, stored⟩ := ran
  have first := going.emit len (by simp) (by simpa [Request.operands] using array)
    (by simp [Request.targets])
  have second := (first.slotted (t := .int) (name ++ ".idx") (by simp)).emit made (by simp)
    (by simp [Request.operands]) (by simp [Request.targets])
  have third := second.emit stored (by simp) (by simp [Request.operands]) (by simp [Request.targets])
  exact third.fewer (by simp +contextual)

theorem forTest (going : Going c₀ held waiting c) {counter l more : Nat}
    (ran : ForTest counter l c more c') (length : l ∈ held) : Going c₀ (more :: held) waiting c' := by
  obtain ⟨loaded, compared⟩ := ran
  have first := going.emit loaded (by simp) (by simp [Request.operands]) (by simp [Request.targets])
  have second := first.emit compared (by simp) (by simp [Request.operands, length])
    (by simp [Request.targets])
  exact second.fewer (by simp +contextual)

theorem forElement (going : Going c₀ held waiting c) {counter a slot : Nat} {d : DataType}
    (ran : ForElement counter a slot d c c') (array : a ∈ held) : Going c₀ held waiting c' := by
  obtain ⟨loaded, element, stored⟩ := ran
  have first := going.emit loaded (by simp) (by simp [Request.operands]) (by simp [Request.targets])
  have second := first.emit element (by simp) (by simp [Request.operands, array])
    (by simp [Request.targets])
  have third := second.emit stored (by simp) (by simp [Request.operands]) (by simp [Request.targets])
  exact third.fewer (by simp +contextual)

end Going

/-! ## Expressions -/

/-- The result of `&&` and `||` is loaded and not yet used. -/
theorem shortCircuit_adds {op : BinOp} {left : Nat} {right : Lowering Nat} (first : Adds c₀ c)
    (value : Unspent c₀ c left)
    (rightAdds : ∀ {c v c'}, Neat c → right c = .ok (v, c') → Adds c c' ∧ Unspent c c' v)
    (ran : shortCircuit op left right c = .ok (n, c')) : Adds c₀ c' ∧ Unspent c₀ c' n := by
  obtain ⟨n₁, c₁, n₂, c₂, v, c₃, n₃, c₄, n₄, c₅, stored, decided, ran', stored', left', loaded⟩ :=
    shortCircuit_ok.1 ran
  have start : Going c₀ [left] [] c := (⟨first, by simp, by simp⟩ : Going c₀ [] [] c).value value
  have opened := start.opened (Steps.of_prepared op c) rfl (by simp [prepared])
    [c.func.blocks.size, c.func.blocks.size + 1] (by simp)
  have kept := opened.emit stored (by simp) (by simp [Request.operands]) (by simp [Request.targets])
  have branched := (kept.emit decided
    (by
      simp only [decision]
      split <;> simp)
    (by
      simp only [decision]
      split <;> simp [Request.operands])
    (by
      simp only [decision]
      split <;> simp [Request.targets])).moved (b := c.func.blocks.size) (by simp)
  have computed := branched.computed (rightAdds branched.adds.neat ran')
  have kept' := computed.emit stored' (by simp) (by simp [Request.operands]) (by simp [Request.targets])
  have last := (kept'.emit left' (by simp) (by simp [Request.operands])
    (by simp [Request.targets])).moved (b := c.func.blocks.size + 1) (by simp)
  exact last.result loaded (by simp) (by simp [Request.operands]) rfl

mutual

/-- The code of an expression uses values of its own, and nothing in it uses its value. -/
theorem expr_adds {env : Slots} : ∀ (e : Expr) {c c' : Cursor} {n : Nat}, Neat c →
    expr env e c = .ok (n, c') → Adds c c' ∧ Unspent c c' n
  | .typed x t, _, _, _, neat, ran => by
    obtain ⟨_, _, same, ran⟩ := expr_ok.1 ran
    cases same
    exact form_adds t x neat ran
  | .int .., _, _, _, _, ran | .double .., _, _, _, _, ran | .bool .., _, _, _, _, ran
  | .string .., _, _, _, _, ran | .ident .., _, _, _, _, ran | .unary .., _, _, _, _, ran
  | .binary .., _, _, _, _, ran | .call .., _, _, _, _, ran | .index .., _, _, _, _, ran
  | .new .., _, _, _, _, ran | .length .., _, _, _, _, ran => absurd ran not_fail_ok

theorem form_adds {env : Slots} (t : Ty) : ∀ (x : Expr) {c c' : Cursor} {n : Nat}, Neat c →
    form env t x c = .ok (n, c') → Adds c c' ∧ Unspent c c' n
  | .int .., _, _, _, neat, ran | .double .., _, _, _, neat, ran | .bool .., _, _, _, neat, ran
  | .string .., _, _, _, neat, ran => by
    simp only [form] at ran
    exact (Going.start neat).result ran (by simp) (by simp [Request.operands]) rfl
  | .ident .., _, _, _, neat, ran => by
    obtain ⟨_, -, ran⟩ := ident_ok.1 ran
    exact (Going.start neat).result ran (by simp) (by simp [Request.operands]) rfl
  | .unary _ op x, _, _, _, neat, ran => by
    obtain ⟨_, _, operand, ran⟩ := unary_ok.1 ran
    have first := (Going.start neat).computed (expr_adds x neat operand)
    exact first.result ran (by cases op <;> simp [signRequest])
      (by cases op <;> simp [signRequest, Request.operands]) (by cases op <;> rfl)
  | .binary _ op x y, _, _, _, neat, ran => by
    cases kind : strictRequest? op with
    | some request =>
      obtain ⟨v, _, w, _, left, right, ran⟩ := (strict_ok kind).1 ran
      have first := (Going.start neat).computed (expr_adds x neat left)
      have second := first.computed (expr_adds y first.adds.neat right)
      obtain ⟨plain, -, uses⟩ := strictRequest?_operands kind v w
      exact second.result ran (by cases op <;> cases kind <;> simp) (by simp [uses]) plain
    | none =>
      obtain ⟨_, _, left, ran⟩ := (logical_ok kind).1 ran
      obtain ⟨first, value⟩ := expr_adds x neat left
      exact shortCircuit_adds first value (expr_adds y) ran
  | .call _ _ args, _, _, _, neat, ran => by
    obtain ⟨_, _, ws, _, _, evaluated, copied, -, ran⟩ := call_ok.1 ran
    obtain ⟨first, values, distinct⟩ := exprs_adds args neat evaluated
    obtain ⟨second, moved, -⟩ := copies_adds first values distinct copied
    obtain ⟨third, -, result⟩ := second.plain ran (by simp)
      (by simpa [Request.operands] using fun w member => (moved w member).toUsable)
      (by simp [Request.targets])
    exact ⟨third, result⟩
  | .index _ a i, _, _, _, neat, ran => by
    obtain ⟨_, _, _, _, _, array, index, -, ran⟩ := index_ok.1 ran
    have first := (Going.start neat).computed (expr_adds a neat array)
    have second := first.computed (expr_adds i first.adds.neat index)
    exact second.result ran (by simp) (by simp [Request.operands]) rfl
  | .new _ _ sizes, _, _, _, neat, ran => by
    obtain ⟨_, _, _, evaluated, -, ran⟩ := new_ok.1 ran
    obtain ⟨first, values, -⟩ := exprs_adds sizes neat evaluated
    obtain ⟨second, -, result⟩ := first.plain ran (by simp)
      (by simpa [Request.operands] using fun v member => (values v member).usable)
      (by simp [Request.targets])
    exact ⟨second, result⟩
  | .length _ a _, _, _, _, neat, ran => by
    obtain ⟨_, _, array, ran⟩ := length_ok.1 ran
    have first := (Going.start neat).computed (expr_adds a neat array)
    exact first.result ran (by simp) (by simp [Request.operands]) rfl
  | .typed .., _, _, _, _, ran => absurd ran not_typed_ok

/-- Expressions give distinct values that are not used yet. -/
theorem exprs_adds {env : Slots} : ∀ (es : List Expr) {c c' : Cursor} {ns : List Nat}, Neat c →
    exprs env es c = .ok (ns, c') → Adds c c' ∧ (∀ n ∈ ns, Unspent c c' n) ∧ ns.Nodup
  | [], _, _, _, neat, ran => by
    obtain ⟨rfl, rfl⟩ := exprs_nil_ok.1 ran
    exact ⟨.refl neat, by simp, .nil⟩
  | e :: es, _, _, _, neat, ran => by
    obtain ⟨v, _, vs, first, rest, rfl⟩ := exprs_cons_ok.1 ran
    obtain ⟨first, value⟩ := expr_adds e neat first
    obtain ⟨rest, values, distinct⟩ := exprs_adds es first.neat rest
    refine ⟨first.trans rest, List.forall_mem_cons.2 ⟨value.adds rest, fun w member => ?_⟩,
      List.nodup_cons.2 ⟨fun again => ?_, distinct⟩⟩
    · exact (values w member).older first.steps
    · exact absurd value.lt_size (Nat.not_lt.2 (values v again).new)

end

/-! ## Statements -/

section Statements

variable {env env' : Slots}

theorem initial_adds {d : DataType} {item : DeclItem} (neat : Neat c)
    (ran : initial env d item c = .ok (n, c')) : Adds c c' ∧ Unspent c c' n := by
  obtain ⟨_, _, init⟩ := item
  cases init with
  | some e => exact expr_adds e neat ran
  | none =>
    obtain ⟨r, known, ran⟩ := zero_ok.1 ran
    cases d <;> cases known
    all_goals exact (Going.start neat).result ran (by simp) (by simp [Request.operands]) rfl

theorem declare_adds {d : DataType} {items : List DeclItem} (neat : Neat c)
    (ran : declare env d items c = .ok (env', c')) : Adds c c' := by
  induction items generalizing env c with
  | nil =>
    obtain ⟨-, rfl⟩ := declare_nil_ok.1 ran
    exact .refl neat
  | cons item items ih =>
    obtain ⟨_, _, _, _, ran, some, stored, rest⟩ := declare_cons_ok.1 ran
    have first := ((Going.start neat).computed (initial_adds neat ran)).slotted item.name some
    have second := (first.emit stored (by simp) (by simp [Request.operands]) (by simp [Request.targets])).adds
    exact second.trans (ih second.neat rest)

theorem assign_adds {p : Pos} {value target : Expr} {u : Unit} (neat : Neat c)
    (ran : assign env p value target c = .ok (u, c')) : Adds c c' := by
  rcases assign_target ran with ⟨_, _, rfl⟩ | ⟨_, _, _, rfl⟩
  · obtain ⟨_, _, _, _, -, ran, stored⟩ := assign_ident_ok.1 ran
    have first := (Going.start neat).computed (expr_adds _ neat ran)
    exact (first.result stored (by simp) (by simp [Request.operands]) rfl).1
  · obtain ⟨_, _, _, _, _, _, _, array, index, ran, stored⟩ := assign_index_ok.1 ran
    have first := (Going.start neat).computed (expr_adds _ neat array)
    have second := first.computed (expr_adds _ first.adds.neat index)
    have third := second.computed (expr_adds _ second.adds.neat ran)
    exact (third.result stored (by simp) (by simp [Request.operands]) rfl).1

theorem storeParams_adds {ps : List (Param × DataType)} (neat : Neat c)
    (ran : storeParams env k ps c = .ok (env', c')) : Adds c c' := by
  induction ps generalizing env k c with
  | nil =>
    obtain ⟨-, rfl⟩ := storeParams_nil_ok.1 ran
    exact .refl neat
  | cons q ps ih =>
    obtain ⟨some, _, _, _, _, got, stored, rest⟩ := storeParams_cons_ok.1 ran
    have first := ((Going.start neat).slotted q.1.name some).emit got (by simp) (by simp [Request.operands])
      (by simp [Request.targets])
    have second := (first.emit stored (by simp) (by simp [Request.operands]) (by simp [Request.targets])).adds
    exact second.trans (ih second.neat rest)

mutual

/-- The code of a statement uses values of its own. -/
theorem stmt_adds : ∀ (s : Stmt) {env env' : Slots} {c c' : Cursor}, Neat c →
    stmt env s c = .ok (env', c') → Adds c c'
  | .block _ body, _, _, _, _, neat, ran => by
    obtain ⟨-, _, ran⟩ := block_ok.1 ran
    exact stmts_adds body neat ran
  | .decl .., _, _, _, _, neat, ran => by
    obtain ⟨_, -, ran⟩ := decl_ok.1 ran
    exact declare_adds neat ran
  | .assign .., _, _, _, _, neat, ran => assign_adds neat (assign_stmt_ok.1 ran).2
  | .incr .., _, _, _, _, neat, ran => by
    obtain ⟨-, _, -, ran⟩ := incr_ok.1 ran
    exact ((Going.start neat).count ran).adds
  | .ifThen _ _ yes, _, _, _, _, neat, run => by
    obtain ⟨-, _, c₁, _, _, _, _, _, cond, branched, ran, left, rfl⟩ := ifThen_ok.1 run
    have first := (Going.start neat).computed (expr_adds _ neat cond)
    have opened := first.opened (.of_withIfBlocks c₁) rfl (by simp [withIfBlocks])
      [c₁.func.blocks.size, c₁.func.blocks.size + 1] (by simp)
    have second := (opened.emit branched (by simp) (by simp [Request.operands])
      (by simp [Request.targets])).moved (b := c₁.func.blocks.size) (by simp)
    have third := second.run (stmt_adds yes second.adds.neat ran)
    exact ((third.leaveTo left (by simp)).moved (by simp)).adds
  | .ifElse _ _ yes no, _, _, _, _, neat, run => by
    obtain ⟨-, _, c₁, _, _, _, _, _, _, _, _, cond, branched, ran, left, ran', left', rfl⟩ :=
      ifElse_ok.1 run
    have first := (Going.start neat).computed (expr_adds _ neat cond)
    have opened := first.opened (.of_withIfElseBlocks c₁) rfl (by simp [withIfElseBlocks])
      [c₁.func.blocks.size, c₁.func.blocks.size + 1, c₁.func.blocks.size + 2] (by simp)
    have second := (opened.emit branched (by simp) (by simp [Request.operands])
      (by simp [Request.targets])).moved (b := c₁.func.blocks.size) (by simp)
    have third := second.run (stmt_adds yes second.adds.neat ran)
    have fourth := (third.leaveTo left (by simp)).moved (b := c₁.func.blocks.size + 1) (by simp)
    have fifth := fourth.run (stmt_adds no fourth.adds.neat ran')
    exact ((fifth.leaveTo left' (by simp)).moved (by simp)).adds
  | .while _ _ body, _, _, c, _, neat, run => by
    obtain ⟨-, _, _, _, _, _, _, _, _, _, entered, cond, branched, ran, left, rfl⟩ := while_ok.1 run
    have opened := (Going.start neat).opened (.of_withWhileBlocks c) rfl (by simp [withWhileBlocks])
      [c.func.blocks.size, c.func.blocks.size + 1, c.func.blocks.size + 2] (by simp)
    have first := (opened.emit entered (by simp) (by simp [Request.operands])
      (by simp [Request.targets])).moved (b := c.func.blocks.size) (by simp)
    have second := first.computed (expr_adds _ first.adds.neat cond)
    have third := (second.emit branched (by simp) (by simp [Request.operands])
      (by simp [Request.targets])).moved (b := c.func.blocks.size + 1) (by simp)
    have fourth := third.run (stmt_adds body third.adds.neat ran)
    exact ((fourth.leaveTo left (by simp)).moved (by simp)).adds
  | .forEach _ _ name _ body, _, _, _, _, neat, run => by
    obtain ⟨-, _, _, _, _, c₂, _, _, _, _, _, _, _, _, _, _, _, array, counter, entered, test,
      branched, -, some, element, ran, round, rfl⟩ := forEach_ok.1 run
    have first := ((Going.start neat).computed (expr_adds _ neat array)).forCounter counter (by simp)
    -- the head, which control comes back to
    have opened := first.opened (.of_withForBlocks c₂) rfl (by simp [withForBlocks])
      [c₂.func.blocks.size, c₂.func.blocks.size + 1, c₂.func.blocks.size + 2] (by simp)
    have head := (opened.emit entered (by simp) (by simp [Request.operands])
      (by simp [Request.targets])).moved (b := c₂.func.blocks.size) (by simp)
    have head := (head.forTest test (by simp)).emit branched (by simp) (by simp [Request.operands])
      (by simp [Request.targets])
    -- the body
    have inner := (head.moved (b := c₂.func.blocks.size + 1) (by simp)).slotted name some
    have inner := inner.forElement element (by simp)
    have inner := inner.run (stmt_adds body inner.adds.neat ran)
    exact ((inner.rounds round (by simp)).moved (by simp)).adds
  | .ret .., _, _, _, _, neat, ran => by
    obtain ⟨-, _, _, _, _, _, ran, left, marked⟩ := ret_ok.1 ran
    have first := (Going.start neat).computed (expr_adds _ neat ran)
    have second := first.emit left (by simp) (by simp [Request.operands]) (by simp [Request.targets])
    exact (second.result marked (by simp) (by simp [Request.operands]) rfl).1
  | .retVoid _, _, _, _, _, neat, ran => by
    obtain ⟨-, _, _, _, left, marked⟩ := retVoid_ok.1 ran
    have first := (Going.start neat).emit left (by simp) (by simp [Request.operands])
      (by simp [Request.targets])
    exact (first.result marked (by simp) (by simp [Request.operands]) rfl).1
  | .expr .., _, _, _, _, neat, ran => by
    obtain ⟨-, _, ran⟩ := effect_ok.1 ran
    exact (expr_adds _ neat ran).1
  | .empty _, _, _, _, _, neat, ran => by
    obtain ⟨-, rfl⟩ := empty_ok.1 ran
    exact .refl neat

theorem stmts_adds : ∀ (ss : List Stmt) {env env' : Slots} {c c' : Cursor}, Neat c →
    stmts env ss c = .ok (env', c') → Adds c c'
  | [], _, _, _, _, neat, ran => by
    obtain ⟨-, rfl⟩ := stmts_nil_ok.1 ran
    exact .refl neat
  | s :: ss, _, _, _, _, neat, ran => by
    obtain ⟨_, _, first, rest⟩ := stmts_cons_ok.1 ran
    have first := stmt_adds s neat first
    exact first.trans (stmts_adds ss first.neat rest)

end

end Statements

/-! ## Functions -/

theorem opening_neat (f : FuncDef) (ret : DataType) (params : List DataType) :
    Neat (opening f ret params) where
  inside := Nat.one_pos
  typed := (Func.WellTyped.empty f.name ret params).addBlock .entry
  copied := by
    have none : ∀ {n m}, ¬ (opening f ret params).func.CopyOf n m := fun ⟨_, known, _⟩ => by cases known
    refine ⟨fun copy => absurd copy none, fun copy => absurd copy none, fun {n k} copy => ?_,
      fun copy => absurd copy none⟩
    obtain ⟨_, known, -⟩ := copy
    cases known

/-- The code of a body is well typed, and what it copies has no other use. -/
theorem body_neat {f : FuncDef} {u : Unit} (ran : body f c = .ok (u, c')) : Neat c' := by
  obtain ⟨params, ret, _, _, _, _, -, -, stored, ran, closed⟩ := body_ok.1 ran
  have first := storeParams_adds (opening_neat f ret params) stored
  have second := stmts_adds _ first.neat ran
  rcases closed with ⟨-, rfl⟩ | ⟨-, n, left⟩
  · exact second.neat
  · refine ((Going.start second.neat).result left ?_ ?_ ?_).1.neat
    all_goals
      unfold endRequest
      split
      all_goals simp [Request.operands, Request.targets]

end ImpCompiler.Lower
