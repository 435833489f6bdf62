import ImpCompiler.Proofs.Code.Exits
import ImpCompiler.Proofs.Lower.Shape

/-!
# Proofs.Lower.Control — which blocks control reaches while a function is made

The blocks that control reaches are known while a function is made: a block that is made
for a statement is reached exactly if control gets to the statement, but for the block
behind a condition both of whose branches return. `Charted R P c` says that `R` has the
blocks that are reached, where those in `P` wait to be filled, and that no block is left
without a terminator. `stmts_passes` says how far control gets: it gets through
statements exactly if none of them always returns.
-/

namespace ImpCompiler

set_option autoImplicit false

theorem Func.Laid.exits_inside {f : Func} (laid : f.Laid) {b t : Nat} (goes : t ∈ f.exits b) :
    b < f.blocks.size ∧ t < f.blocks.size := by
  obtain ⟨n, i, exit, known, target⟩ := Func.mem_exits.1 goes
  exact ⟨Func.lt_size_of_mem (Func.exit?_mem exit), laid.targets n i known t target⟩

namespace Lower

variable {R R' R'' : Nat → Prop} {P : List Nat} {c c' c'' : Cursor} {n : Nat}

/-- The chart `R` of the blocks that control reaches, where the blocks in `P` are made but
not yet filled. -/
structure Charted (R : Nat → Prop) (P : List Nat) (c : Cursor) : Prop where
  laid : c.func.Laid
  inside : c.block < c.func.blocks.size
  away : c.block ∉ P
  waiting : ∀ b ∈ P, b < c.func.blocks.size ∧ (c.func.block b).instrs = []
  entry : R 0
  closed : ∀ b, R b → ∀ t ∈ c.func.exits b, R t
  reached : ∀ b < c.func.blocks.size, R b → b ∉ P → c.func.Reaches b
  ended : ∀ b < c.func.blocks.size, b ≠ c.block → b ∉ P → (c.func.exit? b).isSome = true
  /-- A mark that control never gets there is where control leaves no block. -/
  unmarked : ∀ (b n : Nat) (i : Instr), c.func.exit? b = some n → c.func.arena[n]? = some i →
    i.op ≠ .unreachable

/-- Control gets to the cursor. -/
def Live (R : Nat → Prop) (c : Cursor) : Prop := R c.block ∧ c.func.exit? c.block = none

namespace Charted

/-- What matters is the blocks that are there. -/
theorem congr (charted : Charted R P c) (same : ∀ b < c.func.blocks.size, R' b ↔ R b) :
    Charted R' P c where
  laid := charted.laid
  inside := charted.inside
  away := charted.away
  waiting := charted.waiting
  entry := (same 0 charted.laid.entry).2 charted.entry
  closed b charts t goes := by
    obtain ⟨inside, inside'⟩ := charted.laid.exits_inside goes
    exact (same t inside').2 (charted.closed b ((same b inside).1 charts) t goes)
  reached b inside charts := charted.reached b inside ((same b inside).1 charts)
  ended := charted.ended
  unmarked := charted.unmarked

theorem slotted (charted : Charted R P c) (name : Text) (t : DataType) :
    Charted R P (c.slotted name t) where
  laid := ⟨charted.laid.layout, charted.laid.entry, charted.laid.owner, charted.laid.once,
    charted.laid.targets, charted.laid.values.operand, charted.laid.values.source⟩
  inside := charted.inside
  away := charted.away
  waiting := charted.waiting
  entry := charted.entry
  closed := charted.closed
  reached b inside charts filled :=
    (charted.reached b inside charts filled).grows charted.laid (.of_slot _ _)
  ended := charted.ended
  unmarked := charted.unmarked

theorem exit?_blocked (charted : Charted R P c) (k : LabelKind) (b : Nat) :
    (c.blocked k).func.exit? b = c.func.exit? b := by
  have grows := Func.Grows.of_addBlock c.func k
  cases exit : c.func.exit? b with
  | some n => exact charted.laid.exit?_grows grows exit
  | none =>
    rw [Func.exit?_eq_none] at exit ⊢
    rw [Cursor.blocked_instrs]
    intro n member
    exact (charted.laid.isTerminatorAt_grows grows member).trans (exit n member)

theorem blocked (charted : Charted R P c) (k : LabelKind) :
    Charted R (c.func.blocks.size :: P) (c.blocked k) := by
  have size := Cursor.blocked_size c k
  refine ⟨charted.laid.addBlock k, ?_, ?_, ?_, charted.entry, ?_, ?_, ?_, ?_⟩
  · rw [size]
    exact Nat.lt_succ_of_lt charted.inside
  · rw [Cursor.blocked_block, List.mem_cons, not_or]
    exact ⟨Nat.ne_of_lt charted.inside, charted.away⟩
  · intro b member
    rw [size, Cursor.blocked_instrs]
    rcases List.mem_cons.1 member with rfl | member
    · exact ⟨Nat.lt_succ_self _, Func.instrs_of_size_le (Nat.le_refl _)⟩
    · obtain ⟨inside, empty⟩ := charted.waiting b member
      exact ⟨Nat.lt_succ_of_lt inside, empty⟩
  · intro b charts t goes
    refine charted.closed b charts t ?_
    obtain ⟨n, i, exit, known, target⟩ := Func.mem_exits.1 goes
    exact Func.mem_exits.2 ⟨n, i, charted.exit?_blocked k b ▸ exit, known, target⟩
  · intro b inside charts filled
    rw [List.mem_cons, not_or] at filled
    exact (charted.reached b (by omega) charts filled.2).grows charted.laid (.of_addBlock _ _)
  · intro b inside other filled
    rw [List.mem_cons, not_or] at filled
    rw [charted.exit?_blocked k b]
    exact charted.ended b (by omega) other filled.2
  · intro b n i exit known
    exact charted.unmarked b n i (charted.exit?_blocked k b ▸ exit) known

/-- Which of the blocks that wait comes first does not matter. -/
theorem perm (charted : Charted R P c) {Q : List Nat} (same : ∀ b, b ∈ Q ↔ b ∈ P) : Charted R Q c where
  laid := charted.laid
  inside := charted.inside
  away := (same _).not.2 charted.away
  waiting b member := charted.waiting b ((same b).1 member)
  entry := charted.entry
  closed := charted.closed
  reached b inside charts filled := charted.reached b inside charts ((same b).not.1 filled)
  ended b inside other filled := charted.ended b inside other ((same b).not.1 filled)
  unmarked := charted.unmarked

/-- Going on in a block that waits, when the block of the cursor has its end. -/
theorem moved {b : Nat} (charted : Charted R (b :: P) c) (new : b ∉ P)
    (ended : (c.func.exit? c.block).isSome = true) (reached : R b → c.func.Reaches b) :
    Charted R P (c.moved b) ∧ (Live R (c.moved b) ↔ R b) := by
  obtain ⟨inside, empty⟩ := charted.waiting b (by simp)
  refine ⟨⟨charted.laid, inside, new, ?_, charted.entry, charted.closed, ?_, ?_, charted.unmarked⟩, ?_⟩
  · exact fun b' member => charted.waiting b' (List.mem_cons_of_mem _ member)
  · intro b' inside charts filled
    by_cases same : b' = b
    · subst same
      exact reached charts
    · exact charted.reached b' inside charts (by simp [same, filled])
  · intro b' inside other filled
    rw [Cursor.moved_block] at other
    by_cases same : b' = c.block
    · subst same
      exact ended
    · exact charted.ended b' inside same (by simp [other, filled])
  · refine and_iff_left ?_
    simp [Func.exit?, empty]

/-! ### Instructions -/

theorem exit?_emit (charted : Charted R P c) {r : Request} (ran : emit r c = .ok (n, c')) :
    c'.block = c.block ∧ c'.func.exit? c.block =
      (c.func.exit? c.block).or (if r.endsBlock then some n else none) := by
  obtain ⟨op, t, args, planned, rfl, rfl⟩ := emit_ok.1 ran
  refine ⟨rfl, ?_⟩
  rw [← planned.planned.ends]
  exact charted.laid.exit?_append charted.inside op t _

/-- An instruction; if it branches and control gets to it, it goes to blocks that are
reached, and it is no mark. -/
theorem emit (charted : Charted R P c) {r : Request} (ran : emit r c = .ok (n, c'))
    (goes : Live R c → ∀ b, .own b ∈ r.targets → R b)
    (real : c.func.exit? c.block = none → r ≠ .unreachable) : Charted R P c' := by
  obtain ⟨op, t, args, planned, rfl, rfl⟩ := emit_ok.1 ran
  have accepted := planned.planned
  generalize operands : (args.map fun v => (v.number : Value)) = vs
  have laid : (c.func.append c.block op t vs).Laid := operands ▸
    charted.laid.append charted.inside t (fun b member => (accepted.targets b member).1)
      (fun v member => (accepted.value member).1) accepted.source
  have grows := Func.Grows.of_append c.func c.block op t vs
  refine ⟨laid, by simpa using charted.inside, charted.away, ?_, charted.entry, ?_, ?_, ?_, ?_⟩
  · intro b member
    have other : b ≠ c.block := fun same => charted.away (same ▸ member)
    obtain ⟨inside, empty⟩ := charted.waiting b member
    refine ⟨by simpa using inside, ?_⟩
    rw [Cursor.emitted, Func.append_block_ne c.func op t vs other, empty]
  · intro b charts t' target
    by_cases here : b = c.block
    · subst here
      rcases (charted.laid.exits_append charted.inside op t vs).1 target with old | ⟨open', new⟩
      · exact charted.closed _ charts t' old
      · exact goes ⟨charts, open'⟩ t' (accepted.targets t' new).2
    · refine charted.closed b charts t' ?_
      obtain ⟨m, i, exit, known, target⟩ := Func.mem_exits.1 target
      rw [Cursor.emitted, charted.laid.exit?_append_ne op t vs here] at exit
      obtain ⟨j, known'⟩ := charted.laid.known (Func.exit?_mem exit)
      have same : j = i := Option.some.inj ((grows.instr known').symm.trans known)
      exact Func.mem_exits.2 ⟨m, j, exit, known', same ▸ target⟩
  · intro b inside charts filled
    exact (charted.reached b (by simpa using inside) charts filled).grows charted.laid grows
  · intro b inside other filled
    have kept := charted.laid.exit?_append_ne op t vs (show b ≠ c.block from other)
    exact kept ▸ charted.ended b (by simpa using inside) other filled
  · intro b m i exit known
    have old : c.func.exit? b = some m → i.op ≠ .unreachable := by
      intro exit
      obtain ⟨j, known'⟩ := charted.laid.known (Func.exit?_mem exit)
      have same : j = i := Option.some.inj ((grows.instr known').symm.trans known)
      exact same ▸ charted.unmarked b m j exit known'
    by_cases here : b = c.block
    · subst here
      rw [Cursor.emitted, charted.laid.exit?_append charted.inside op t vs] at exit
      cases before : c.func.exit? c.block with
      | some k =>
        rw [before] at exit
        exact old (before.trans exit)
      | none =>
        rw [before, Option.none_or] at exit
        split at exit
        · cases exit
          simp only [Cursor.emitted, Func.append_arena, Array.getElem?_push_size] at known
          cases known
          exact fun mark => real before (accepted.marks mark)
        · cases exit
    · rw [Cursor.emitted, charted.laid.exit?_append_ne op t vs here] at exit
      exact old exit

/-- The end of a block; where control goes from there it gets. -/
theorem leave (charted : Charted R P c) {r : Request} (ran : Lower.emit r c = .ok (n, c'))
    (ends : r.endsBlock = true) (goes : Live R c → ∀ b, .own b ∈ r.targets → R b)
    (real : c.func.exit? c.block = none → r ≠ .unreachable) :
    Charted R P c' ∧ (c'.func.exit? c'.block).isSome = true ∧
      (Live R c → ∀ b, .own b ∈ r.targets → c'.func.Reaches b) := by
  obtain ⟨block, exit⟩ := charted.exit?_emit ran
  refine ⟨charted.emit ran goes real, ?_, fun live b member => ?_⟩
  · rw [block, exit, if_pos ends]
    cases c.func.exit? c.block <;> rfl
  · obtain ⟨op, t, args, planned, rfl, rfl⟩ := emit_ok.1 ran
    have here := charted.reached c.block charted.inside live.1 charted.away
    refine (here.grows charted.laid (.of_append _ _ _ _ _)).step ?_
    exact (charted.laid.exits_append charted.inside op t _).2
      (.inr ⟨live.2, planned.planned.named b member⟩)

end Charted

/-! ## Code that control passes through -/

/-- The cursor got from one place to another, to which control gets if it gets to the
first and `through` holds. -/
structure Passes (P : List Nat) (R : Nat → Prop) (c : Cursor) (R' : Nat → Prop) (c' : Cursor)
    (through : Prop) : Prop where
  charted : Charted R' P c'
  grows : c.func.Grows c'.func
  old : ∀ b < c.func.blocks.size, R' b ↔ R b
  live : Live R' c' ↔ Live R c ∧ through

namespace Passes

variable {through through' : Prop}

theorem refl (charted : Charted R P c) : Passes P R c R c True :=
  ⟨charted, .refl _, fun _ _ => .rfl, (and_iff_left trivial).symm⟩

theorem trans (first : Passes P R c R' c' through) (second : Passes P R' c' R'' c'' through') :
    Passes P R c R'' c'' (through ∧ through') where
  charted := second.charted
  grows := first.grows.trans second.grows
  old b inside := (second.old b (Nat.lt_of_lt_of_le inside first.grows.size)).trans (first.old b inside)
  live := by rw [second.live, first.live, and_assoc]

theorem iff (passes : Passes P R c R' c' through) (same : through ↔ through') :
    Passes P R c R' c' through' :=
  ⟨passes.charted, passes.grows, passes.old, passes.live.trans (and_congr_right' same)⟩

/-- Code that control always gets through. -/
theorem andThen (first : Passes P R c R' c' True) (second : Passes P R' c' R'' c'' through) :
    Passes P R c R'' c'' through :=
  (first.trans second).iff (Iff.of_eq (true_and through))

end Passes

namespace Charted

/-- Control gets through an instruction that ends no block. -/
theorem compute (charted : Charted R P c) {r : Request} (ran : Lower.emit r c = .ok (n, c'))
    (plain : r.endsBlock = false) : Passes P R c R c' True := by
  obtain ⟨block, exit⟩ := charted.exit?_emit ran
  refine ⟨charted.emit ran (by simp [Request.targets_eq_nil plain]) ?_, (Steps.of_emit ran).grows,
    fun _ _ => .rfl, ?_⟩
  · rintro - rfl
    cases plain
  · simp only [Live, block, exit, plain, Bool.false_eq_true, if_false, Option.or_none, and_true]

theorem addSlot (charted : Charted R P c) (name : Text) (t : DataType) :
    Passes P R c R (c.slotted name t) True :=
  ⟨charted.slotted name t, .of_slot _ _, fun _ _ => .rfl, (and_iff_left trivial).symm⟩

theorem count (charted : Charted R P c) {s : Nat} {op : ArithOp}
    (counted : Lower.count s op c = .ok ((), c')) : Passes P R c R c' True := by
  obtain ⟨v, c₁, one, c₂, w, c₃, m, loaded, made, added, stored⟩ := count_ok.1 counted
  have first := charted.compute loaded rfl
  have second := first.charted.compute made rfl
  have third := second.charted.compute added rfl
  exact first.andThen (second.andThen (third.andThen (third.charted.compute stored rfl)))

end Charted

/-! ## Blocks that are made together -/

/-- The cursor `c` is in the code for which `k` blocks were made behind `c₀`: those in `W`
wait, and control reaches those that `E` has. -/
structure Enclosed (P : List Nat) (R₀ : Nat → Prop) (c₀ : Cursor) (E : Nat → Prop) (k : Nat)
    (W : List Nat) (R : Nat → Prop) (c : Cursor) : Prop where
  charted : Charted R (W ++ P) c
  grows : c₀.func.Grows c.func
  made : c₀.func.blocks.size + k ≤ c.func.blocks.size
  new : ∀ b, c₀.func.blocks.size ≤ b → b < c₀.func.blocks.size + k → (R b ↔ E b)
  old : ∀ b < c₀.func.blocks.size, R b ↔ R₀ b
  older : ∀ b ∈ P, b < c₀.func.blocks.size

/-- New blocks wait to be filled. -/
theorem Charted.blocks (charted : Charted R P c) (kinds : List LabelKind) :
    Charted R (List.range' c.func.blocks.size kinds.length ++ P) (kinds.foldl Cursor.blocked c) ∧
      c.func.Grows (kinds.foldl Cursor.blocked c).func ∧
      (kinds.foldl Cursor.blocked c).func.blocks.size = c.func.blocks.size + kinds.length ∧
      (Live R (kinds.foldl Cursor.blocked c) ↔ Live R c) := by
  induction kinds generalizing c P with
  | nil => exact ⟨charted, .refl _, rfl, .rfl⟩
  | cons k kinds ih =>
    obtain ⟨rest, grows, size, live⟩ := ih (charted.blocked k)
    refine ⟨rest.perm fun b => ?_, (Func.Grows.of_addBlock c.func k).trans grows, ?_, live.trans ?_⟩
    · simp only [List.length_cons, List.range'_succ, Cursor.blocked_size, List.mem_append,
        List.mem_cons]
      rw [or_assoc, or_left_comm]
    · rw [List.foldl_cons, size, Cursor.blocked_size, List.length_cons]
      omega
    · rw [Live, charted.exit?_blocked]
      exact Iff.rfl

namespace Enclosed

variable {R₀ : Nat → Prop} {c₀ : Cursor} {E : Nat → Prop} {k : Nat} {W : List Nat} {through : Prop}

/-- Blocks that are made are reached as wanted. -/
theorem of_blocks (charted : Charted R₀ P c₀) (kinds : List LabelKind) (E : Nat → Prop) :
    ∃ R, Enclosed P R₀ c₀ E kinds.length (List.range' c₀.func.blocks.size kinds.length) R
        (kinds.foldl Cursor.blocked c₀) ∧
      (Live R (kinds.foldl Cursor.blocked c₀) ↔ Live R₀ c₀) := by
  let R := fun b => if b < c₀.func.blocks.size then R₀ b else E b
  have old : ∀ b < c₀.func.blocks.size, R b ↔ R₀ b := fun b inside => by simp only [R, if_pos inside]
  obtain ⟨made, grows, size, live⟩ := (charted.congr old).blocks kinds
  refine ⟨R, ⟨made, grows, size.ge, fun b new _ => ?_, old, fun b member => ?_⟩, live.trans ?_⟩
  · simp only [R, if_neg (Nat.not_lt.2 new)]
  · exact (charted.waiting b member).1
  · exact and_congr_left' (old _ charted.inside)

theorem passes (enclosed : Enclosed P R₀ c₀ E k W R c) (passes : Passes (W ++ P) R c R' c' through) :
    Enclosed P R₀ c₀ E k W R' c' where
  charted := passes.charted
  grows := enclosed.grows.trans passes.grows
  made := Nat.le_trans enclosed.made passes.grows.size
  new b new inside := by
    rw [passes.old b (Nat.lt_of_lt_of_le inside enclosed.made), enclosed.new b new inside]
  old b inside := by
    have := enclosed.made
    rw [passes.old b (by omega), enclosed.old b inside]
  older := enclosed.older

/-- The end of a block, from which control goes to blocks that were made. -/
theorem leave (enclosed : Enclosed P R₀ c₀ E k W R c) {r : Request}
    (ran : emit r c = .ok (n, c')) (ends : r.endsBlock = true) (real : r ≠ .unreachable)
    (goes : ∀ b, .own b ∈ r.targets → c₀.func.blocks.size ≤ b ∧ b < c₀.func.blocks.size + k ∧
      (Live R c → E b)) :
    Enclosed P R₀ c₀ E k W R c' ∧ (c'.func.exit? c'.block).isSome = true ∧
      (Live R c → ∀ b, .own b ∈ r.targets → c'.func.Reaches b) := by
  have grows := (Steps.of_emit ran).grows
  obtain ⟨charted, ended, reached⟩ := enclosed.charted.leave ran ends (fun live b member => by
    obtain ⟨new, inside, expected⟩ := goes b member
    exact (enclosed.new b new inside).2 (expected live)) fun _ => real
  exact ⟨⟨charted, enclosed.grows.trans grows, Nat.le_trans enclosed.made grows.size, enclosed.new,
    enclosed.old, enclosed.older⟩, ended, reached⟩

theorem leaveTo (enclosed : Enclosed P R₀ c₀ E k W R c) {b : Nat}
    (left : leaveTo b c = .ok ((), c')) (new : c₀.func.blocks.size ≤ b)
    (inside : b < c₀.func.blocks.size + k) (goes : Live R c → E b) :
    Enclosed P R₀ c₀ E k W R c' ∧ (c'.func.exit? c'.block).isSome = true ∧
      (Live R c → c'.func.Reaches b) := by
  rcases leaveTo_ok.1 left with ⟨ended, rfl⟩ | ⟨-, n, ran⟩
  · have exit := Func.exit?_isSome_of_terminator? ended
    exact ⟨enclosed, exit, fun live => by simp [live.2] at exit⟩
  · obtain ⟨enclosed, exit, reached⟩ := enclosed.leave ran rfl (by simp)
      (by simpa [Request.targets] using ⟨new, inside, goes⟩)
    exact ⟨enclosed, exit, fun live => reached live b (by simp [Request.targets])⟩

/-- The end of a round of a loop over an array. -/
theorem rounds (enclosed : Enclosed P R₀ c₀ E k W R c) {counter head : Nat}
    (ended : Rounds counter head c c') (new : c₀.func.blocks.size ≤ head)
    (inside : head < c₀.func.blocks.size + k) (goes : Live R c → E head) :
    Enclosed P R₀ c₀ E k W R c' ∧ (c'.func.exit? c'.block).isSome = true := by
  rcases ended with ⟨ended, rfl⟩ | ⟨-, c₁, n, counted, left⟩
  · exact ⟨enclosed, Func.exit?_isSome_of_terminator? ended⟩
  · have count := enclosed.charted.count counted
    obtain ⟨enclosed, exit, -⟩ := (enclosed.passes count).leave left rfl (by simp)
      (by simpa [Request.targets] using ⟨new, inside, fun live => goes (count.live.1 live).1⟩)
    exact ⟨enclosed, exit⟩

/-- Going on in the next block that waits. -/
theorem moved {b j : Nat} (enclosed : Enclosed P R₀ c₀ E k (List.range' b (j + 1)) R c)
    (new : c₀.func.blocks.size ≤ b) (inside : b < c₀.func.blocks.size + k)
    (ended : (c.func.exit? c.block).isSome = true) (reached : E b → c.func.Reaches b) :
    Enclosed P R₀ c₀ E k (List.range' (b + 1) j) R (c.moved b) ∧ (Live R (c.moved b) ↔ E b) := by
  have same := enclosed.new b new inside
  have other : b ∉ List.range' (b + 1) j ++ P := by
    rw [List.mem_append, List.mem_range'_1]
    rintro (later | member)
    · omega
    · exact Nat.not_lt.2 new (enclosed.older b member)
  obtain ⟨charted, live⟩ := Charted.moved enclosed.charted other ended
    fun charts => reached (same.1 charts)
  exact ⟨⟨charted, enclosed.grows, enclosed.made, enclosed.new, enclosed.old, enclosed.older⟩,
    live.trans same⟩

theorem done (enclosed : Enclosed P R₀ c₀ E k [] R c) (live : Live R c ↔ Live R₀ c₀ ∧ through) :
    Passes P R₀ c₀ R c through :=
  ⟨enclosed.charted, enclosed.grows, enclosed.old, live⟩

end Enclosed

/-! ## Expressions -/

/-- Control gets behind `&&` and `||` if it gets through the right operand. -/
theorem Charted.short {op : BinOp} {left n₁ n₂ n₃ n₄ v : Nat} {c₁ c₂ c₃ c₄ c₅ : Cursor}
    (charted : Charted R P c)
    (kept : Lower.emit (.store c.func.slots.length (.own left)) (prepared op c) = .ok (n₁, c₁))
    (decided : Lower.emit (decision op left c.func.blocks.size (c.func.blocks.size + 1)) c₁ =
      .ok (n₂, c₂))
    (right : ∀ {P : List Nat} {R : Nat → Prop}, Charted R P (c₂.moved c.func.blocks.size) →
      ∃ R', Passes P R (c₂.moved c.func.blocks.size) R' c₃ True)
    (kept' : Lower.emit (.store c.func.slots.length (.own v)) c₃ = .ok (n₃, c₄))
    (left' : Lower.emit (.branch (.own (c.func.blocks.size + 1))) c₄ = .ok (n₄, c₅)) :
    ∃ R', Passes P R c R' (c₅.moved (c.func.blocks.size + 1)) True := by
  obtain ⟨R₁, opened, start⟩ := Enclosed.of_blocks charted
    [if op = .and then .andRight else .orRight, .shortEnd] fun _ => Live R c
  have slot := opened.charted.addSlot (((c.blocked (if op = .and then .andRight else
    .orRight)).blocked .shortEnd).func.label c.func.blocks.size ++ ".tmp") .bool
  have store := slot.andThen (slot.charted.compute kept rfl)
  have first := opened.passes store
  have live₁ : Live R₁ c₁ ↔ Live R c := by rw [store.live, and_true, start]
  have both : ∀ b, b = c.func.blocks.size ∨ b = c.func.blocks.size + 1 →
      .own b ∈ (decision op left c.func.blocks.size (c.func.blocks.size + 1)).targets := by
    simp only [decision]
    split <;> simp [Request.targets, or_comm]
  obtain ⟨second, ended, reached⟩ := first.leave decided
    (by
      simp only [decision]
      split <;> rfl)
    (by
      simp only [decision]
      split <;> simp)
    (by
      simp only [decision]
      split <;> simp [Request.targets, live₁])
  obtain ⟨inside, live₂⟩ := second.moved (b := c.func.blocks.size) (Nat.le_refl _) (by simp)
    ended fun live => reached (live₁.2 live) _ (both _ (.inl rfl))
  obtain ⟨R₂, rest⟩ := right inside.charted
  have again := rest.andThen (rest.charted.compute kept' rfl)
  have live₃ := again.live
  obtain ⟨third, ended', -⟩ := (inside.passes again).leave left' rfl (by simp)
    (by simpa [Request.targets, live₃] using live₂.1)
  have later := (again.grows.trans (Steps.of_emit left').grows)
  obtain ⟨fourth, live₄⟩ := third.moved (b := c.func.blocks.size + 1) (by omega) (by simp)
    ended' fun live => (reached (live₁.2 live) _ (both _ (.inr rfl))).grows second.charted.laid later
  exact ⟨R₂, fourth.done (by rw [live₄, and_true])⟩

/-- Control gets through all code that has no statement in it. -/
theorem spans_passes : Spans fun c c' => ∀ {P : List Nat} {R : Nat → Prop}, Charted R P c →
    ∃ R', Passes P R c R' c' True where
  refl _ _ R charted := ⟨R, .refl charted⟩
  trans first second _ _ charted := by
    obtain ⟨_, first⟩ := first charted
    obtain ⟨R', second⟩ := second first.charted
    exact ⟨R', first.andThen second⟩
  emit ran plain _ R charted := ⟨R, charted.compute ran plain⟩
  slot _ name t _ _ R charted := ⟨R, charted.addSlot name t⟩
  short kept decided right kept' left' _ _ charted := charted.short kept decided right kept' left'

/-- Control gets through expressions. -/
theorem expr_passes {env : Slots} (e : Expr) (charted : Charted R P c)
    (ran : expr env e c = .ok (n, c')) : ∃ R', Passes P R c R' c' True :=
  spans_passes.expr e ran charted

/-! ## Statements -/

section Statements

attribute [local simp] Stmt.returns Stmt.anyReturns

/-- A return, with the mark behind it. -/
theorem Charted.returned {v : Option Operand} {m : Nat} (charted : Charted R P c)
    (left : Lower.emit (.ret v) c = .ok (n, c')) (marked : Lower.emit .unreachable c' = .ok (m, c'')) :
    Passes P R c R c'' False := by
  obtain ⟨first, ended, -⟩ := charted.leave left rfl (by simp [Request.targets]) (by simp)
  have open' : c'.func.exit? c'.block ≠ none := fun exit => by simp [exit] at ended
  obtain ⟨second, ended', -⟩ := first.leave marked rfl (by simp [Request.targets])
    fun exit => absurd exit open'
  refine ⟨second, (Steps.of_emit left).grows.trans (Steps.of_emit marked).grows, fun _ _ => .rfl, ?_⟩
  simp only [and_false, iff_false, Live, not_and]
  intro _ exit
  simp [exit] at ended'

/-- Control gets behind a loop from its head, which it gets to from before the loop. -/
theorem Charted.loop {k₁ k₂ k₃ : LabelKind} {v : Operand} {n₁ n₂ : Nat} {c₁ c₂ c₃ c₄ c₅ : Cursor}
    {through : Prop} (charted : Charted R P c)
    (entered : Lower.emit (.branch (.own c.func.blocks.size))
      (((c.blocked k₁).blocked k₂).blocked k₃) = .ok (n₁, c₁))
    (test : ∀ {P : List Nat} {R : Nat → Prop}, Charted R P (c₁.moved c.func.blocks.size) →
      ∃ R', Passes P R (c₁.moved c.func.blocks.size) R' c₂ True)
    (branched : Lower.emit (.condBranch v (.own (c.func.blocks.size + 1))
      (.own (c.func.blocks.size + 2))) c₂ = .ok (n₂, c₃))
    (body : ∀ {P : List Nat} {R : Nat → Prop}, Charted R P (c₃.moved (c.func.blocks.size + 1)) →
      ∃ R', Passes P R (c₃.moved (c.func.blocks.size + 1)) R' c₄ through)
    (steps : Steps c₄ c₅)
    (back : ∀ {W : List Nat} {R' : Nat → Prop}, Enclosed P R c (fun _ => Live R c) 3 W R' c₄ →
      (Live R' c₄ → Live R c) → Enclosed P R c (fun _ => Live R c) 3 W R' c₅ ∧
        (c₅.func.exit? c₅.block).isSome = true) :
    ∃ R', Passes P R c R' (c₅.moved (c.func.blocks.size + 2)) True := by
  obtain ⟨R₁, opened, start⟩ := Enclosed.of_blocks charted [k₁, k₂, k₃] fun _ => Live R c
  obtain ⟨first, ended, reached⟩ := opened.leave entered rfl (by simp)
    (by simpa [Request.targets] using start.1)
  obtain ⟨second, live⟩ := first.moved (b := c.func.blocks.size) (Nat.le_refl _)
    (by simp) ended fun live => reached (start.2 live) _ (by simp [Request.targets])
  obtain ⟨R₂, head⟩ := test second.charted
  have live₁ := head.live.trans ((and_iff_left trivial).trans live)
  obtain ⟨third, ended', reached'⟩ := (second.passes head).leave branched rfl (by simp)
    (by simp [Request.targets, live₁])
  obtain ⟨fourth, live₂⟩ := third.moved (b := c.func.blocks.size + 1) (by omega)
    (by simp) ended' fun live => reached' (live₁.2 live) _ (by simp [Request.targets])
  obtain ⟨R₃, round⟩ := body fourth.charted
  obtain ⟨fifth, ended''⟩ := back (fourth.passes round) fun live' => live₂.1 (round.live.1 live').1
  obtain ⟨last, live₃⟩ := fifth.moved (b := c.func.blocks.size + 2) (by omega) (by simp)
    ended'' fun live => (reached' (live₁.2 live) _ (by simp [Request.targets])).grows
      third.charted.laid (round.grows.trans steps.grows)
  exact ⟨R₃, last.done (live₃.trans (and_true _).symm.to_iff)⟩

/-- Control gets behind the code of a statement exactly if the statement does not always
return. -/
def Follows (s : Stmt) : Prop :=
  ∀ {env env' : Slots} {P : List Nat} {R : Nat → Prop} {c c' : Cursor}, Charted R P c →
    stmt env s c = .ok (env', c') → ∃ R', Passes P R c R' c' (s.returns = false)

variable {p : Pos} {x : Expr} {yes no body : Stmt}

theorem ifThen_passes (branch : Follows yes) : Follows (.ifThen p x yes) := by
  intro env env' P R c c' charted run
  obtain ⟨rfl, v, c₁, _, c₂, _, _, _, cond, branched, ran, left, rfl⟩ := ifThen_ok.1 run
  obtain ⟨R₁, first⟩ := expr_passes _ charted cond
  obtain ⟨R₂, opened, start⟩ :=
    Enclosed.of_blocks first.charted [.ifThen, .ifEnd] fun _ => Live R₁ c₁
  obtain ⟨second, ended, reached⟩ := opened.leave branched rfl (by simp)
    (by simpa [Request.targets] using start.1)
  obtain ⟨third, live⟩ := second.moved (b := c₁.func.blocks.size) (Nat.le_refl _)
    (by simp) ended fun live => reached (start.2 live) _ (by simp [Request.targets])
  obtain ⟨R₃, inner⟩ := branch third.charted ran
  obtain ⟨fourth, ended', -⟩ := (third.passes inner).leaveTo left (by omega) (by simp)
    fun live' => live.1 (inner.live.1 live').1
  have later := inner.grows.trans (Steps.of_leaveTo left).grows
  obtain ⟨last, live'⟩ := fourth.moved (b := c₁.func.blocks.size + 1) (by omega)
    (by simp) ended' fun live => (reached (start.2 live) _ (by simp [Request.targets])).grows
      second.charted.laid later
  exact ⟨R₃, first.andThen (last.done (live'.trans (by simp)))⟩

theorem ifElse_passes (branch : Follows yes) (branch' : Follows no) :
    Follows (.ifElse p x yes no) := by
  intro env env' P R c c' charted run
  obtain ⟨rfl, v, c₁, _, c₂, _, _, c₄, _, _, _, cond, branched, ran, left, ran', left', rfl⟩ :=
    ifElse_ok.1 run
  obtain ⟨R₁, first⟩ := expr_passes _ charted cond
  -- control gets behind the condition from a branch that does not return
  obtain ⟨R₂, opened, start⟩ :=
    Enclosed.of_blocks first.charted [.ifThen, .ifElse, .ifEnd] fun b =>
      Live R₁ c₁ ∧ (b = c₁.func.blocks.size + 2 → (yes.returns && no.returns) = false)
  obtain ⟨second, ended, reached⟩ := opened.leave branched rfl (by simp)
    (by simpa [Request.targets] using start.1)
  obtain ⟨third, live⟩ := second.moved (b := c₁.func.blocks.size) (Nat.le_refl _)
    (by simp) ended fun live => reached (start.2 live.1) _ (by simp [Request.targets])
  obtain ⟨R₃, inner⟩ := branch third.charted ran
  obtain ⟨fourth, ended', reached'⟩ := (third.passes inner).leaveTo left (by omega) (by simp)
    fun live' => by
      obtain ⟨here, goesOn⟩ := inner.live.1 live'
      simp [(live.1 here).1, goesOn]
  have later := inner.grows.trans (Steps.of_leaveTo left).grows
  obtain ⟨fifth, live₁⟩ := fourth.moved (b := c₁.func.blocks.size + 1) (by omega)
    (by simp) ended' fun live => (reached (start.2 live.1) _ (by simp [Request.targets])).grows
      second.charted.laid later
  obtain ⟨R₄, inner'⟩ := branch' fifth.charted ran'
  obtain ⟨sixth, ended'', reached''⟩ := (fifth.passes inner').leaveTo left' (by omega) (by simp)
    fun live' => by
      obtain ⟨here, goesOn⟩ := inner'.live.1 live'
      simp [(live₁.1 here).1, goesOn]
  have later' := inner'.grows.trans (Steps.of_leaveTo left').grows
  obtain ⟨last, live₂⟩ := sixth.moved (b := c₁.func.blocks.size + 2) (by omega)
    (by simp) ended'' fun ⟨here, goesOn⟩ => by
      rcases Bool.and_eq_false_iff.1 (goesOn rfl) with goesOn | goesOn
      · refine (reached' (inner.live.2 ⟨live.2 ?_, goesOn⟩)).grows fourth.charted.laid later'
        exact ⟨here, by simp⟩
      · exact reached'' (inner'.live.2 ⟨live₁.2 ⟨here, by simp⟩, goesOn⟩)
  exact ⟨R₄, first.andThen (last.done (live₂.trans (by simp)))⟩

theorem while_passes (round : Follows body) : Follows (.while p x body) := by
  intro env env' P R c c' charted run
  obtain ⟨rfl, _, _, _, _, _, _, _, _, _, entered, cond, branched, ran, left, rfl⟩ :=
    while_ok.1 run
  obtain ⟨R₁, loop⟩ := charted.loop entered (fun charted => expr_passes _ charted cond) branched
    (fun charted => round charted ran) (.of_leaveTo left) fun enclosed goes => by
      obtain ⟨enclosed, ended, -⟩ := enclosed.leaveTo left (Nat.le_refl _) (by simp) goes
      exact ⟨enclosed, ended⟩
  exact ⟨R₁, loop.iff (by simp)⟩

theorem forEach_passes {elem : Ty} {name : Text} (inner : Follows body) :
    Follows (.forEach p elem name x body) := by
  intro env env' P R c c' charted run
  obtain ⟨rfl, _, _, _, _, _, _, _, _, _, _, _, _, _, _, _, _, array, counter, entered, test,
    branched, -, some, element, ran, round, rfl⟩ := forEach_ok.1 run
  obtain ⟨R₁, before⟩ :=
    spans_passes.trans (spans_passes.expr _ array) (spans_passes.forCounter counter) charted
  obtain ⟨R₂, loop⟩ := before.charted.loop entered (spans_passes.forTest test) branched
    (fun charted => by
      obtain ⟨_, item⟩ := spans_passes.trans (spans_passes.slot _ name some)
        (spans_passes.forElement element) charted
      obtain ⟨R', rest⟩ := inner item.charted ran
      exact ⟨R', item.andThen rest⟩)
    (.of_rounds round) fun enclosed => enclosed.rounds round (Nat.le_refl _) (by simp)
  exact ⟨R₂, before.andThen (loop.iff (by simp))⟩

mutual

theorem stmt_passes : ∀ s : Stmt, Follows s
  | .block _ body => fun charted ran => by
    obtain ⟨rfl, _, ran⟩ := block_ok.1 ran
    exact stmts_passes body charted ran
  | .decl .. => fun charted ran => by
    obtain ⟨_, -, ran⟩ := decl_ok.1 ran
    obtain ⟨R₁, first⟩ := spans_passes.declare ran charted
    exact ⟨R₁, first.iff (by simp)⟩
  | .assign .. => fun charted ran => by
    obtain ⟨rfl, ran⟩ := assign_stmt_ok.1 ran
    obtain ⟨R₁, first⟩ := spans_passes.assign ran charted
    exact ⟨R₁, first.iff (by simp)⟩
  | .incr .. => fun charted ran => by
    obtain ⟨rfl, _, -, ran⟩ := incr_ok.1 ran
    exact ⟨_, (charted.count ran).iff (by simp)⟩
  | .ifThen _ _ yes => ifThen_passes (stmt_passes yes)
  | .ifElse _ _ yes no => ifElse_passes (stmt_passes yes) (stmt_passes no)
  | .while _ _ body => while_passes (stmt_passes body)
  | .forEach _ _ _ _ body => forEach_passes (stmt_passes body)
  | .ret .. => fun charted ran => by
    obtain ⟨rfl, _, _, _, _, _, ran, left, marked⟩ := ret_ok.1 ran
    obtain ⟨R₁, first⟩ := expr_passes _ charted ran
    exact ⟨R₁, first.andThen ((first.charted.returned left marked).iff (by simp))⟩
  | .retVoid _ => fun charted ran => by
    obtain ⟨rfl, _, _, _, left, marked⟩ := retVoid_ok.1 ran
    exact ⟨_, (charted.returned left marked).iff (by simp)⟩
  | .expr .. => fun charted ran => by
    obtain ⟨rfl, _, ran⟩ := effect_ok.1 ran
    obtain ⟨R₁, first⟩ := expr_passes _ charted ran
    exact ⟨R₁, first.iff (by simp)⟩
  | .empty _ => fun charted ran => by
    obtain ⟨rfl, rfl⟩ := empty_ok.1 ran
    exact ⟨_, (Passes.refl charted).iff (by simp)⟩

/-- Control gets through statements exactly if none of them always returns. -/
theorem stmts_passes : ∀ (ss : List Stmt) {env env' : Slots} {P : List Nat} {R : Nat → Prop}
    {c c' : Cursor}, Charted R P c → stmts env ss c = .ok (env', c') →
      ∃ R', Passes P R c R' c' (Stmt.anyReturns ss = false)
  | [], _, _, _, R, _, _, charted, ran => by
    obtain ⟨rfl, rfl⟩ := stmts_nil_ok.1 ran
    exact ⟨R, (Passes.refl charted).iff (by simp)⟩
  | s :: ss, _, _, _, _, _, _, charted, ran => by
    obtain ⟨_, _, first, rest⟩ := stmts_cons_ok.1 ran
    obtain ⟨R₁, first⟩ := stmt_passes s charted first
    obtain ⟨R₂, rest⟩ := stmts_passes ss first.charted rest
    exact ⟨R₂, (first.trans rest).iff (by simp)⟩

end

end Statements

/-! ## Functions -/

section Functions

theorem opening_charted (f : FuncDef) (ret : DataType) (params : List DataType) :
    Charted (· = 0) [] (opening f ret params) ∧ Live (· = 0) (opening f ret params) := by
  have empty : ∀ b, (opening f ret params).func.exit? b = none := by
    intro b
    rw [Func.exit?_eq_none, opening, Func.addBlock_block_instrs, Func.instrs_of_size_le (Nat.zero_le b)]
    simp
  refine ⟨⟨opening_laid f ret params, Nat.one_pos, by simp, by simp, rfl, ?_, ?_, ?_, ?_⟩, rfl, empty _⟩
  · rintro b - t goes
    obtain ⟨n, i, exit, -⟩ := Func.mem_exits.1 goes
    rw [empty] at exit
    cases exit
  · rintro b - rfl -
    exact .entry
  · intro b inside other
    exact absurd (Nat.lt_one_iff.1 inside) other
  · intro b n i exit
    rw [empty] at exit
    cases exit

/-- Control gets to the end of a body exactly if no statement of it always returns. -/
theorem statements_charted {f : FuncDef} {ret : DataType} (ran : statements f c = .ok (ret, c')) :
    ∃ R, Charted R [] c' ∧ (Live R c' ↔ Stmt.anyReturns f.body = false) := by
  obtain ⟨params, env, c₁, env', -, -, kept, ran⟩ := statements_ok.1 ran
  obtain ⟨charted, live⟩ := opening_charted f ret params
  obtain ⟨R₁, first⟩ := spans_passes.storeParams kept charted
  obtain ⟨R, rest⟩ := stmts_passes f.body first.charted ran
  have whole := first.andThen rest
  exact ⟨R, whole.charted, whole.live.trans (and_iff_right live)⟩

/-- Behind the end of a body every block has a terminator. -/
theorem Charted.closes {ret : DataType} (charted : Charted R [] c) (closed : Closes ret c c') :
    ∀ b < c'.func.blocks.size, (c'.func.exit? b).isSome = true := by
  rcases closed with ⟨ended, rfl⟩ | ⟨-, n, ran⟩
  · intro b inside
    by_cases here : b = c'.block
    · rw [here]
      exact Func.exit?_isSome_of_terminator? ended
    · exact charted.ended b inside here (by simp)
  · intro b inside
    have ends : (endRequest ret).endsBlock = true := by
      unfold endRequest
      split <;> rfl
    obtain ⟨-, exit⟩ := charted.exit?_emit ran
    by_cases here : b = c.block
    · rw [here, exit, if_pos ends]
      cases c.func.exit? c.block <;> rfl
    · have grows := (Steps.of_emit ran).grows
      have same : c'.func.blocks.size = c.func.blocks.size := by
        obtain ⟨op, t, args, -, -, rfl⟩ := emit_ok.1 ran
        simp
      obtain ⟨m, known⟩ := Option.isSome_iff_exists.1
        (charted.ended b (same ▸ inside) here (by simp))
      rw [charted.laid.exit?_grows grows known]
      rfl

/-- The control flow of every body that is lowered can be built. -/
theorem body_flows {f : FuncDef} {u : Unit} (ran : body f c = .ok (u, c')) :
    ∃ g, c'.func.buildFlow = (g, none) := by
  obtain ⟨ret, c₁, run, closed⟩ := body_closes.1 ran
  obtain ⟨R, charted, -⟩ := statements_charted run
  exact (body_laid ran).buildFlow_total (charted.closes closed)

end Functions

end Lower

end ImpCompiler
