import ImpCompiler.Proofs.Code.Forward
import ImpCompiler.Proofs.Lower.Labels
import ImpCompiler.Proofs.Lower.Modules

/-!
# Proofs.Lower.Forward — lowered code goes forward but for loops

What a block is for is known when it is made: `Extends` says that code was added, that the
outline `o'` has its blocks too, and which loops and conditions are among them. The blocks of a
statement are made together and filled one after another, so a branch goes to a block that
waits or back to the head of a loop. Only the block behind a condition can wait while a loop is
made and filled. So in the numbering of a lowered function a block comes behind its
predecessors, but for the heads of loops and the ends of conditions with a loop in a branch.
-/

namespace ImpCompiler

set_option autoImplicit false

namespace Stmt

mutual

def loops : Stmt → Bool
  | .block _ body => anyLoops body
  | .ifThen _ _ yes => yes.loops
  | .ifElse _ _ yes no => yes.loops || no.loops
  | .while .. | .forEach .. => true
  | .decl .. | .assign .. | .incr .. | .ret .. | .retVoid .. | .expr .. | .empty .. => false

def anyLoops : List Stmt → Bool
  | [] => false
  | s :: rest => s.loops || anyLoops rest

end

mutual

/-- The conditions in a statement in the order of the source: whether there is a loop in a
branch. -/
def branchLoops : Stmt → List Bool
  | .block _ body => allBranchLoops body
  | .ifThen _ _ yes => yes.loops :: yes.branchLoops
  | .ifElse _ _ yes no => (yes.loops || no.loops) :: (yes.branchLoops ++ no.branchLoops)
  | .while _ _ body | .forEach _ _ _ _ body => body.branchLoops
  | .decl .. | .assign .. | .incr .. | .ret .. | .retVoid .. | .expr .. | .empty .. => []

def allBranchLoops : List Stmt → List Bool
  | [] => []
  | s :: rest => s.branchLoops ++ allBranchLoops rest

end

end Stmt

namespace Func

theorem append_label (f : Func) {b : Nat} (op : Op) (t : DataType) (args : List Value)
    (inside : b < f.blocks.size) (c : Nat) : (f.append b op t args).label c = f.label c := by
  by_cases here : c = b
  · subst here
    rw [label, append_block f op t args inside, label]
  · rw [label, append_block_ne f op t args here, label]

/-- The label of a new block has the number of those of its kind before it. -/
theorem addBlock_label (f : Func) (k : LabelKind) :
    (f.addBlock k).1.label f.blocks.size = k.label (f.labels.issued.count k) := by
  rw [label, block_eq_getElem (by simp)]
  simp [addBlock, pushBlock, Labels.fresh, LabelKind.label]

end Func

namespace Lower

variable {o o' o'' : Outline} {c c' c'' c₁ c₂ c₃ c₄ c₅ : Cursor} {n : Nat} {loops loops' : Bool}
  {ends ends' : List Bool}

/-- Code that goes forward but for loops, as far as it is made. -/
structure Tidy (o : Outline) (c : Cursor) : Prop where
  laid : c.func.Laid
  inside : c.block < c.func.blocks.size
  outlined : c.func.Outlined o

def Cursor.conditions (c : Cursor) : Nat := c.func.labels.issued.count .ifEnd

/-- Code was added, with loops or without, and with conditions that may have loops in their
branches. -/
structure Extends (o : Outline) (c : Cursor) (loops : Bool) (ends : List Bool) (o' : Outline)
    (c' : Cursor) : Prop where
  tidy : Tidy o' c'
  size : c.func.blocks.size ≤ c'.func.blocks.size
  label : ∀ b < c.func.blocks.size, c'.func.label b = c.func.label b
  old : ∀ b < c.func.blocks.size, o' b = o b
  /-- What control has passed it has passed behind the code too. -/
  passed : ∀ h, o.At c.block h → o'.At c'.block h
  heads : ∀ h, c.func.blocks.size ≤ h → h < c'.func.blocks.size → (o' h).head = true → loops = true
  count : c'.conditions = c.conditions + ends.length
  late : ∀ b, c.func.blocks.size ≤ b → b < c'.func.blocks.size → (o' b).late = true →
    ∃ k, c'.func.label b = LabelKind.ifEnd.label (c.conditions + k) ∧ ends[k]? = some true

namespace Extends

theorem of_size (tidy : Tidy o' c') (size : c'.func.blocks.size = c.func.blocks.size)
    (label : ∀ b, c'.func.label b = c.func.label b) (old : ∀ b < c.func.blocks.size, o' b = o b)
    (passed : ∀ h, o.At c.block h → o'.At c'.block h) (count : c'.conditions = c.conditions) :
    Extends o c false [] o' c' :=
  ⟨tidy, Nat.le_of_eq size.symm, fun b _ => label b, old, passed,
    fun _ new inside => absurd (size ▸ inside) (Nat.not_lt.2 new), count,
    fun _ new inside => absurd (size ▸ inside) (Nat.not_lt.2 new)⟩

theorem refl (tidy : Tidy o c) : Extends o c false [] o c :=
  of_size tidy rfl (fun _ => rfl) (fun _ _ => rfl) (fun _ => id) rfl

theorem trans (first : Extends o c loops ends o' c') (second : Extends o' c' loops' ends' o'' c'') :
    Extends o c (loops || loops') (ends ++ ends') o'' c'' where
  tidy := second.tidy
  size := Nat.le_trans first.size second.size
  label b inside :=
    (second.label b (Nat.lt_of_lt_of_le inside first.size)).trans (first.label b inside)
  old b inside := (second.old b (Nat.lt_of_lt_of_le inside first.size)).trans (first.old b inside)
  passed h there := second.passed h (first.passed h there)
  heads h new inside head := by
    rw [Bool.or_eq_true]
    rcases Nat.lt_or_ge h c'.func.blocks.size with earlier | later
    · exact .inl (first.heads h new earlier (second.old h earlier ▸ head))
    · exact .inr (second.heads h later inside head)
  count := by rw [second.count, first.count, List.length_append, Nat.add_assoc]
  late b new inside isLate := by
    rcases Nat.lt_or_ge b c'.func.blocks.size with earlier | later
    · obtain ⟨k, label, known⟩ := first.late b new earlier (second.old b earlier ▸ isLate)
      have bound := (List.getElem?_eq_some_iff.1 known).1
      exact ⟨k, (second.label b earlier).trans label, (List.getElem?_append_left bound).trans known⟩
    · obtain ⟨k, label, known⟩ := second.late b later inside isLate
      refine ⟨ends.length + k, ?_, ?_⟩
      · rw [label, first.count, Nat.add_assoc]
      · rw [List.getElem?_append_right (Nat.le_add_right _ _), Nat.add_sub_cancel_left, known]

/-- Code without loops and conditions behind other code. -/
theorem plain (first : Extends o c loops ends o' c') (second : Extends o' c' false [] o'' c'') :
    Extends o c loops ends o'' c'' := by
  simpa using first.trans second

/-- Going on in a block that is behind all that control has passed. -/
theorem moved (first : Extends o c loops ends o' c') {b : Nat} (inside : b < c'.func.blocks.size)
    (passes : ∀ h, o.At c.block h → (o' b).passes h) : Extends o c loops ends o' (c'.moved b) :=
  ⟨⟨first.tidy.laid, inside, first.tidy.outlined⟩, first.size, first.label, first.old,
    fun h there => .inl (passes h there), first.heads, first.count, first.late⟩

/-- Code can go to a block that waits, if there is no loop behind the start or the block is
late and control can go nowhere else. -/
theorem mayGo (first : Extends o c loops ends o' c') {b : Nat} {single : Prop} (fresh : Fresh c' b)
    (new : c.func.blocks.size ≤ b + 1) (quiet : (o' b).late = true ∧ single ∨ loops = false)
    (passes : ∀ h, (o' b).passes h → o'.At c'.block h) : c'.func.MayGo o' c'.block single b := by
  refine ⟨passes, .inl ⟨fresh.away, fresh.empty, quiet.imp_right fun none h after inside => ?_⟩⟩
  rw [Bool.eq_false_iff]
  intro head
  have loop := first.heads h (Nat.le_trans new after) inside head
  rw [none] at loop
  cases loop

end Extends

namespace Tidy

/-- A new block, for which a purpose is chosen. -/
theorem blocked (tidy : Tidy o c) (k : LabelKind) (new : Purpose)
    (only : new.late = true → k = .ifEnd) :
    Extends o c new.head (if k = .ifEnd then [new.late] else [])
      (Function.update o c.func.blocks.size new) (c.blocked k) := by
  have old : ∀ b < c.func.blocks.size, Function.update o c.func.blocks.size new b = o b :=
    fun b inside => Function.update_of_ne (Nat.ne_of_lt inside) _ _
  have single : ∀ b, c.func.blocks.size ≤ b → b < (c.blocked k).func.blocks.size →
      b = c.func.blocks.size := by
    intro b outside inside
    rw [Cursor.blocked_size] at inside
    omega
  refine ⟨⟨tidy.laid.addBlock k, ?_, (tidy.outlined.congr tidy.laid old).addBlock k⟩, by simp, ?_, old,
    ?_, ?_, ?_, ?_⟩
  · rw [Cursor.blocked_size]
    exact Nat.lt_succ_of_lt tidy.inside
  · intro b inside
    exact congrArg Block.label (Func.addBlock_block_ne c.func k (Nat.ne_of_lt inside))
  · intro h there
    rwa [Outline.At, Cursor.blocked_block, old _ tidy.inside]
  · intro h outside inside head
    rwa [single h outside inside, Function.update_self] at head
  · by_cases condition : k = .ifEnd
    · subst condition
      simp [Cursor.conditions, Cursor.blocked, Func.addBlock, Func.pushBlock, Labels.fresh]
    · simp [Cursor.conditions, Cursor.blocked, Func.addBlock, Func.pushBlock, Labels.fresh, condition,
        List.count_cons_of_ne condition]
  · intro b outside inside isLate
    obtain rfl := single b outside inside
    rw [Function.update_self] at isLate
    obtain rfl := only isLate
    exact ⟨0, Func.addBlock_label c.func .ifEnd, by simp [isLate]⟩

/-- Blocks that are made together. -/
theorem blocks (tidy : Tidy o c) (new : List (LabelKind × Purpose))
    (only : ∀ e ∈ new, e.2.late = true → e.1 = .ifEnd) :
    ∃ o', Extends o c (new.any (·.2.head))
        (new.flatMap fun e => if e.1 = .ifEnd then [e.2.late] else []) o'
        ((new.map Prod.fst).foldl Cursor.blocked c) ∧
      ∀ i e, new[i]? = some e → o' (c.func.blocks.size + i) = e.2 := by
  induction new generalizing o c with
  | nil => exact ⟨o, .refl tidy, by simp⟩
  | cons e new ih =>
    have first := tidy.blocked e.1 e.2 (only e List.mem_cons_self)
    obtain ⟨o', rest, placed⟩ := ih first.tidy fun e member => only e (List.mem_cons_of_mem _ member)
    refine ⟨o', first.trans rest, fun i e' found => ?_⟩
    cases i with
    | zero =>
      cases found
      rw [Nat.add_zero, rest.old _ (by simp), Function.update_self]
    | succ i =>
      have same := placed i e' found
      rwa [Cursor.blocked_size, Nat.add_right_comm] at same

/-- What blocks that are made together expect, if it is the same. -/
theorem expects {new : List (LabelKind × Purpose)} {s : Nat} {E : Nat → Prop}
    (placed : ∀ i e, new[i]? = some e → o (s + i) = e.2) (all : ∀ e ∈ new, e.2.passes = E) :
    ∀ b, s ≤ b → b < s + new.length → (o b).passes = E := by
  intro b from' inside
  obtain ⟨i, rfl⟩ := Nat.exists_eq_add_of_le from'
  have found := List.getElem?_eq_getElem (Nat.lt_of_add_lt_add_left inside)
  rw [placed i _ found]
  exact all _ (List.mem_of_getElem? found)

/-- Blocks none of which is behind a condition. -/
theorem plainBlocks (tidy : Tidy o c) (new : List (LabelKind × Purpose))
    (plain : ∀ e ∈ new, e.1 ≠ .ifEnd ∧ e.2.late = false) :
    ∃ o', Extends o c (new.any (·.2.head)) [] o' ((new.map Prod.fst).foldl Cursor.blocked c) ∧
      ∀ i e, new[i]? = some e → o' (c.func.blocks.size + i) = e.2 := by
  obtain ⟨o', made, placed⟩ := tidy.blocks new fun e member isLate => by simp [(plain e member).2] at isLate
  have none : (new.flatMap fun e => if e.1 = .ifEnd then [e.2.late] else []) = [] :=
    List.flatMap_eq_nil_iff.2 fun e member => if_neg (plain e member).1
  exact ⟨o', none ▸ made, placed⟩

theorem emit (tidy : Tidy o c) {r : Request} (ran : Lower.emit r c = .ok (n, c'))
    (goes : ∀ b, .own b ∈ r.targets → c.func.MayGo o c.block (r.targets = [.own b]) b) :
    Extends o c false [] o c' := by
  have laid := (Steps.of_emit ran).laid tidy.laid tidy.inside
  obtain ⟨op, t, args, planned, -, rfl⟩ := emit_ok.1 ran
  have accepted := planned.planned
  have outlined := tidy.outlined.append tidy.laid t (args.map fun v => (v.number : Value))
    fun b member => (goes b (accepted.targets b member).2).mono accepted.single
  exact .of_size ⟨laid, by simpa using tidy.inside, outlined⟩ (by simp)
    (Func.append_label c.func op t _ tidy.inside) (fun _ _ => rfl) (fun _ => id) rfl

theorem slotted (tidy : Tidy o c) (name : Text) {t : DataType} (some : t ≠ .void) :
    Extends o c false [] o (c.slotted name t) := by
  refine .of_size ⟨(Steps.refl.addSlot some name).laid tidy.laid tidy.inside, tidy.inside,
    tidy.outlined.entry, fun member known goes => ?_⟩ rfl (fun _ => rfl) (fun _ _ => rfl) (fun _ => id) rfl
  have way := tidy.outlined.ways member known goes
  exact ⟨way.passed, way.goes⟩

end Tidy

/-! ## Parts of code -/

/-- Code that can be added to whatever there is. -/
def Goes (loops : Bool) (ends : List Bool) (c c' : Cursor) : Prop :=
  Steps c c' ∧ ∀ {o : Outline}, Tidy o c → ∃ o', Extends o c loops ends o' c'

/-- Code from which control goes to block `b`, unless it has gone elsewhere. -/
def Leaves (b : Nat) (c c' : Cursor) : Prop :=
  c' = c ∨ ∃ c₁ n, Goes false [] c c₁ ∧ emit (.branch (.own b)) c₁ = .ok (n, c')

namespace Goes

theorem refl (c : Cursor) : Goes false [] c c := ⟨.refl, fun {o} tidy => ⟨o, .refl tidy⟩⟩

theorem trans (first : Goes loops ends c c') (second : Goes loops' ends' c' c'') :
    Goes (loops || loops') (ends ++ ends') c c'' := by
  refine ⟨first.1.trans second.1, fun tidy => ?_⟩
  obtain ⟨_, first⟩ := first.2 tidy
  obtain ⟨o', second⟩ := second.2 first.tidy
  exact ⟨o', first.trans second⟩

theorem of_emit {r : Request} (ran : emit r c = .ok (n, c')) (none : r.targets = []) :
    Goes false [] c c' :=
  ⟨.of_emit ran, fun {o} tidy => ⟨o, tidy.emit ran (by simp [none])⟩⟩

theorem of_slot (c : Cursor) (name : Text) {t : DataType} (some : t ≠ .void) :
    Goes false [] c (c.slotted name t) :=
  ⟨Steps.refl.addSlot some name, fun {o} tidy => ⟨o, tidy.slotted name some⟩⟩

end Goes

namespace Leaves

variable {b : Nat}

theorem steps (leaves : Leaves b c c') : Steps c c' := by
  rcases leaves with rfl | ⟨_, _, goes, ran⟩
  · exact .refl
  · exact goes.1.trans (.of_emit ran)

theorem of_leaveTo (left : leaveTo b c = .ok ((), c')) : Leaves b c c' := by
  rcases leaveTo_ok.1 left with ⟨-, rfl⟩ | ⟨-, n, ran⟩
  · exact .inl rfl
  · exact .inr ⟨c, n, .refl c, ran⟩

theorem added (leaves : Leaves b c c') (tidy : Tidy o c)
    (may : ∀ {o' c₁}, Steps c c₁ → Extends o c false [] o' c₁ → c₁.func.MayGo o' c₁.block True b) :
    ∃ o', Extends o c false [] o' c' := by
  rcases leaves with rfl | ⟨c₁, n, goes, ran⟩
  · exact ⟨o, .refl tidy⟩
  · obtain ⟨o', first⟩ := goes.2 tidy
    exact ⟨o', first.plain (first.tidy.emit ran (by simpa [Request.targets] using may goes.1 first))⟩

end Leaves

/-- A branch to blocks that wait and expect what control has passed. -/
theorem Extends.fork {r : Request} (first : Extends o c false ends o' c')
    (ran : emit r c' = .ok (n, c''))
    (goes : ∀ b, .own b ∈ r.targets →
      c.func.blocks.size ≤ b ∧ Fresh c' b ∧ (o' b).passes = o.At c.block) :
    Extends o c false ends o' c'' := by
  refine first.plain (first.tidy.emit ran fun b member => ?_)
  obtain ⟨new, fresh, expects⟩ := goes b member
  exact first.mayGo fresh (Nat.le_succ_of_le new) (.inr rfl) fun h there =>
    first.passed h (expects ▸ there)

/-- A branch of a condition, from which control goes to the block behind it. -/
theorem Extends.arm {b z : Nat} {c₁ c₂ : Cursor} (first : Extends o c loops ends o' c')
    (inside : b < c'.func.blocks.size) (passes : (o' b).passes = o.At c.block)
    (goes : Goes loops' ends' (c'.moved b) c₁) (leaves : Leaves z c₁ c₂)
    (fresh : Fresh (c'.moved b) z) (new : c.func.blocks.size ≤ z)
    (expects : (o' z).passes = o.At c.block)
    (quiet : (o' z).late = true ∨ (loops || loops') = false) :
    ∃ o'', Extends o c (loops || loops') (ends ++ ends') o'' c₂ ∧
      (∀ x < c'.func.blocks.size, o'' x = o' x) := by
  have start := first.moved inside fun h there => by rwa [passes]
  obtain ⟨o₁, inner⟩ := goes.2 start.tidy
  have whole := start.trans inner
  obtain ⟨o₂, left⟩ := leaves.added whole.tidy fun {o₂ c₃} steps more => by
    have same : o₂ z = o' z := (inner.plain more).old z fresh.inside
    refine (whole.plain more).mayGo (fresh.steps (goes.1.trans steps)) (by omega) ?_ ?_
    · rwa [same, and_true]
    · intro h there
      rw [same, expects] at there
      exact (whole.plain more).passed h there
  exact ⟨o₂, whole.plain left, (inner.plain left).old⟩

/-! ## Expressions -/

/-- `&&` and `||` only jump ahead. -/
theorem Tidy.short {op : BinOp} {left n₁ n₂ n₃ n₄ v : Nat} (tidy : Tidy o c)
    (stored : Lower.emit (.store c.func.slots.length (.own left)) (prepared op c) = .ok (n₁, c₁))
    (decided : Lower.emit (decision op left c.func.blocks.size (c.func.blocks.size + 1)) c₁ =
      .ok (n₂, c₂))
    (right : Goes false [] (c₂.moved c.func.blocks.size) c₃)
    (stored' : Lower.emit (.store c.func.slots.length (.own v)) c₃ = .ok (n₃, c₄))
    (left' : Lower.emit (.branch (.own (c.func.blocks.size + 1))) c₄ = .ok (n₄, c₅)) :
    ∃ o', Extends o c false [] o' (c₅.moved (c.func.blocks.size + 1)) := by
  obtain ⟨o₁, opened, placed⟩ := tidy.plainBlocks
    [(if op = .and then .andRight else .orRight, ⟨false, false, o.At c.block⟩),
      (.shortEnd, ⟨false, false, o.At c.block⟩)]
    (by
      have plain : (if op = .and then .andRight else .orRight : LabelKind) ≠ .ifEnd := by
        split <;> decide
      simp [plain])
  have expects := Tidy.expects placed (E := o.At c.block) (by simp)
  have fresh : ∀ b, c.func.blocks.size ≤ b → b < c.func.blocks.size + 2 → Fresh c₁ b :=
    fun b new made => (Fresh.of_prepared op tidy.inside new made).steps (.of_emit stored)
  have slot : Extends o c false [] o₁ (prepared op c) :=
    opened.plain (opened.tidy.slotted _ (by decide))
  have store := slot.plain (slot.tidy.emit stored (by simp [Request.targets]))
  have branch := store.fork decided (by
    simp only [decision]
    split <;> simp [Request.targets, fresh, expects])
  have stop := (fresh (c.func.blocks.size + 1) (by omega) (by omega)).steps (.of_emit decided)
  obtain ⟨o₂, whole, same⟩ := branch.arm (Nat.lt_of_succ_lt stop.inside)
    (expects _ (by simp) (by simp)) right (.inr ⟨c₄, n₄, .of_emit stored' rfl, left'⟩)
    (stop.moved (by omega)) (by omega) (expects _ (by simp) (by simp)) (.inr rfl)
  have last := Nat.lt_of_lt_of_le stop.inside
    (right.1.trans ((Steps.of_emit stored').trans (.of_emit left'))).size
  exact ⟨o₂, whole.moved last fun h there => by rwa [same _ stop.inside, expects _ (by simp) (by simp)]⟩

/-- All code that has no statement in it only jumps ahead. -/
theorem spans_goes : Spans (Goes false []) where
  refl := Goes.refl
  trans := Goes.trans
  emit ran plain := .of_emit ran (Request.targets_eq_nil plain)
  slot := Goes.of_slot
  short stored decided right stored' left' :=
    ⟨(Steps.shortCircuit_ways stored decided right.1 stored' left').2.1,
      fun tidy => tidy.short stored decided right stored' left'⟩

theorem Leaves.of_rounds {counter head : Nat} (round : Rounds counter head c c') :
    Leaves head c c' := by
  rcases round with ⟨-, rfl⟩ | ⟨-, c₁, n, counted, left⟩
  · exact .inl rfl
  · exact .inr ⟨c₁, n, spans_goes.count counted, left⟩

/-! ## Statements -/

/-- Code that was added behind `c₀` for a loop with the head `s`, the body `s + 1` and the end
`s + 2`. -/
structure Looping (s : Nat) (o₀ : Outline) (c₀ : Cursor) (loops : Bool) (ends : List Bool)
    (o : Outline) (c : Cursor) : Prop where
  added : Extends o₀ c₀ loops ends o c
  made : c₀.func.blocks.size = s + 1
  bound : s + 3 ≤ c.func.blocks.size
  head : o s = ⟨true, false, o₀.At c₀.block⟩
  body : o (s + 1) = ⟨false, false, fun h => o₀.At c₀.block h ∨ h = s⟩
  behind : o (s + 2) = ⟨false, false, o₀.At c₀.block⟩

namespace Looping

variable {s : Nat} {o₀ : Outline} {c₀ : Cursor}

theorem trans (loop : Looping s o₀ c₀ loops ends o c) (more : Extends o c loops' ends' o' c') :
    Looping s o₀ c₀ (loops || loops') (ends ++ ends') o' c' := by
  have bound := loop.bound
  exact ⟨loop.added.trans more, loop.made, Nat.le_trans bound more.size,
    (more.old s (by omega)).trans loop.head, (more.old (s + 1) (by omega)).trans loop.body,
    (more.old (s + 2) (by omega)).trans loop.behind⟩

theorem plain (loop : Looping s o₀ c₀ loops ends o c) (more : Extends o c false [] o' c') :
    Looping s o₀ c₀ loops ends o' c' := by
  simpa using loop.trans more

/-- What control has passed it passes before each block of the loop. -/
theorem expects (loop : Looping s o₀ c₀ loops ends o c) {b h : Nat} (new : s ≤ b) (inside : b < s + 3) :
    (o b).passes h ↔ o₀.At c₀.block h ∨ b = s + 1 ∧ h = s := by
  obtain rfl | rfl | rfl : b = s ∨ b = s + 1 ∨ b = s + 2 := by omega
  · simp [loop.head]
  · simp [loop.body]
  · simp [loop.behind]

theorem moved (loop : Looping s o₀ c₀ loops ends o c) {b : Nat} (new : s ≤ b) (inside : b < s + 3) :
    Looping s o₀ c₀ loops ends o (c.moved b) :=
  ⟨loop.added.moved (Nat.lt_of_lt_of_le inside loop.bound) fun _ there =>
    (loop.expects new inside).2 (.inl there), loop.made, loop.bound, loop.head, loop.body, loop.behind⟩

/-- Control can go to a block that waits before there is another loop, to the body only
through the head. -/
theorem mayGo (loop : Looping s o₀ c₀ false ends o c) {b : Nat} (new : s ≤ b) (inside : b < s + 3)
    (fresh : Fresh c b) (passed : b = s + 1 → o.At c.block s) {single : Prop} :
    c.func.MayGo o c.block single b := by
  refine loop.added.mayGo fresh (by rw [loop.made]; omega) (.inr rfl) fun h there => ?_
  rcases (loop.expects new inside).1 there with before | ⟨body, rfl⟩
  · exact loop.added.passed h before
  · exact passed body

/-- Control can go back to the head once it has passed it. -/
theorem mayReturn (loop : Looping s o₀ c₀ loops ends o c) (passed : o.At c.block s) {single : Prop} :
    c.func.MayGo o c.block single s := by
  refine ⟨fun h there => ?_, .inr ⟨by rw [loop.head], passed⟩⟩
  rcases (loop.expects (Nat.le_refl s) (by omega)).1 there with before | ⟨body, -⟩
  · exact loop.added.passed h before
  · omega

end Looping

/-- The blocks of a loop. The head is made apart, so that no loop is made between it and the
end of the condition. -/
theorem Tidy.loopBlocks (tidy : Tidy o c) {kh kb ke : LabelKind}
    (plain : kh ≠ .ifEnd ∧ kb ≠ .ifEnd ∧ ke ≠ .ifEnd) :
    ∃ o₀ o', Extends o c true [] o₀ (c.blocked kh) ∧
      Looping c.func.blocks.size o₀ (c.blocked kh) false [] o'
        (((c.blocked kh).blocked kb).blocked ke) := by
  obtain ⟨o₀, made, placed⟩ := tidy.plainBlocks [(kh, ⟨true, false, o.At c.block⟩)] (by simp [plain])
  obtain ⟨o', opened, placed'⟩ := made.tidy.plainBlocks
    [(kb, ⟨false, false, fun h => o₀.At c.block h ∨ h = c.func.blocks.size⟩),
      (ke, ⟨false, false, o₀.At c.block⟩)] (by simp [plain])
  have same : o₀.At c.block = o.At c.block := by
    funext h
    rw [Outline.At, made.old _ tidy.inside, Outline.At]
  refine ⟨o₀, o', made, opened, by simp, by simp, ?_, ?_, ?_⟩
  · rw [Cursor.blocked_block, same]
    exact (opened.old _ (by simp)).trans (placed 0 _ rfl)
  · simpa using placed' 0 _ rfl
  · simpa using placed' 1 _ rfl

/-- A loop: control comes back to its head, which it has passed. -/
theorem Tidy.loop {kh kb ke : LabelKind} {v : Operand} {n₁ n₂ : Nat}
    (tidy : Tidy o c) (plain : kh ≠ .ifEnd ∧ kb ≠ .ifEnd ∧ ke ≠ .ifEnd)
    (entered : Lower.emit (.branch (.own c.func.blocks.size))
      (((c.blocked kh).blocked kb).blocked ke) = .ok (n₁, c₁))
    (cond : Goes false [] (c₁.moved c.func.blocks.size) c₂)
    (branched : Lower.emit (.condBranch v (.own (c.func.blocks.size + 1))
      (.own (c.func.blocks.size + 2))) c₂ = .ok (n₂, c₃))
    (body : Goes loops ends (c₃.moved (c.func.blocks.size + 1)) c₄)
    (leaves : Leaves c.func.blocks.size c₄ c₅) :
    ∃ o', Extends o c true ends o' (c₅.moved (c.func.blocks.size + 2)) := by
  obtain ⟨o₀, o₁, made, opened⟩ := tidy.loopBlocks plain
  have fresh : ∀ b, c.func.blocks.size ≤ b → b < c.func.blocks.size + 3 →
      Fresh (((c.blocked kh).blocked kb).blocked ke) b :=
    fun b new inside => Fresh.of_new tidy.inside rfl (by simp) new (by
      simp only [Cursor.blocked_size]
      exact inside)
  have enter := opened.plain (opened.added.tidy.emit entered fun b member => by
    obtain rfl : b = c.func.blocks.size := by simpa [Request.targets] using member
    exact opened.mayGo (Nat.le_refl _) (by omega) (fresh _ (Nat.le_refl _) (by omega)) (by omega))
  have atHead := enter.moved (b := c.func.blocks.size) (Nat.le_refl _) (by omega)
  obtain ⟨o₂, ran⟩ := cond.2 atHead.added.tidy
  have tested := atHead.plain ran
  have may : ∀ b single, c.func.blocks.size < b → b < c.func.blocks.size + 3 →
      c₂.func.MayGo o₂ c₂.block single b := by
    intro b single new inside
    have waits := ((fresh b (by omega) inside).steps (.of_emit entered)).moved (Nat.ne_of_gt new)
    exact tested.mayGo (by omega) inside (waits.steps cond.1) fun _ => ran.passed _ (.inr rfl)
  have branch := tested.plain (tested.added.tidy.emit branched (by simp [Request.targets, may]))
  have atBody := branch.moved (b := c.func.blocks.size + 1) (by omega) (by omega)
  obtain ⟨o₃, ran'⟩ := body.2 atBody.added.tidy
  have passed := ran'.passed c.func.blocks.size
    (.inl ((atBody.expects (by simp) (by simp)).2 (.inr ⟨rfl, rfl⟩)))
  have round := atBody.trans ran'
  obtain ⟨o₄, left⟩ := leaves.added round.added.tidy fun _ more =>
    (round.plain more).mayReturn (more.passed _ passed)
  have whole := (round.plain left).moved (b := c.func.blocks.size + 2) (by omega) (by omega)
  exact ⟨o₄, made.trans whole.added⟩

/-- A condition with one branch. -/
theorem Tidy.ifThen {v : Operand} {c₁ c₂ c₃ : Cursor} (tidy : Tidy o c)
    (branched : Lower.emit (.condBranch v (.own c.func.blocks.size) (.own (c.func.blocks.size + 1)))
      (withIfBlocks c) = .ok (n, c₁))
    (yes : Goes loops ends (c₁.moved c.func.blocks.size) c₂)
    (leaves : Leaves (c.func.blocks.size + 1) c₂ c₃) :
    ∃ o', Extends o c loops (loops :: ends) o' (c₃.moved (c.func.blocks.size + 1)) := by
  obtain ⟨o₁, opened, placed⟩ := tidy.blocks
    [(.ifThen, ⟨false, false, o.At c.block⟩), (.ifEnd, ⟨false, loops, o.At c.block⟩)] (by simp)
  have expects := Tidy.expects placed (E := o.At c.block) (by simp)
  have isLate : (o₁ (c.func.blocks.size + 1)).late = loops := by rw [placed 1 _ rfl]
  have fresh : ∀ b, c.func.blocks.size ≤ b → b < c.func.blocks.size + 2 → Fresh (withIfBlocks c) b :=
    fun b => Fresh.of_withIfBlocks tidy.inside
  have made : Extends o c false [loops] o₁ (withIfBlocks c) := opened
  have branch := made.fork branched (by simp [Request.targets, fresh, expects])
  have stop := (fresh (c.func.blocks.size + 1) (by omega) (by omega)).steps (.of_emit branched)
  obtain ⟨o₂, whole, same⟩ := branch.arm (Nat.lt_of_succ_lt stop.inside)
    (expects _ (by simp) (by simp)) yes leaves (stop.moved (by omega)) (by omega)
    (expects _ (by simp) (by simp)) (by rw [isLate]; cases loops <;> simp)
  have last := Nat.lt_of_lt_of_le stop.inside (yes.1.trans leaves.steps).size
  exact ⟨o₂, whole.moved last fun h there => by rwa [same _ stop.inside, expects _ (by simp) (by simp)]⟩

/-- A condition with two branches. -/
theorem Tidy.ifElse {v : Operand} (tidy : Tidy o c)
    (branched : Lower.emit (.condBranch v (.own c.func.blocks.size) (.own (c.func.blocks.size + 1)))
      (withIfElseBlocks c) = .ok (n, c₁))
    (yes : Goes loops ends (c₁.moved c.func.blocks.size) c₂)
    (leaves : Leaves (c.func.blocks.size + 2) c₂ c₃)
    (no : Goes loops' ends' (c₃.moved (c.func.blocks.size + 1)) c₄)
    (leaves' : Leaves (c.func.blocks.size + 2) c₄ c₅) :
    ∃ o', Extends o c (loops || loops') ((loops || loops') :: (ends ++ ends')) o'
      (c₅.moved (c.func.blocks.size + 2)) := by
  obtain ⟨o₁, opened, placed⟩ := tidy.blocks
    [(.ifThen, ⟨false, false, o.At c.block⟩), (.ifElse, ⟨false, false, o.At c.block⟩),
      (.ifEnd, ⟨false, loops || loops', o.At c.block⟩)] (by simp)
  have expects := Tidy.expects placed (E := o.At c.block) (by simp)
  have isLate : (o₁ (c.func.blocks.size + 2)).late = (loops || loops') := by rw [placed 2 _ rfl]
  have fresh : ∀ b, c.func.blocks.size ≤ b → b < c.func.blocks.size + 3 →
      Fresh (withIfElseBlocks c) b := fun b => Fresh.of_withIfElseBlocks tidy.inside
  have made : Extends o c false [loops || loops'] o₁ (withIfElseBlocks c) := opened
  have branch := made.fork branched (by simp [Request.targets, fresh, expects])
  have stop := (fresh (c.func.blocks.size + 2) (by omega) (by omega)).steps (.of_emit branched)
  have bound := stop.inside
  have waits : Fresh (c₁.moved c.func.blocks.size) (c.func.blocks.size + 2) := stop.moved (by omega)
  obtain ⟨o₂, first, same⟩ := branch.arm (by omega) (expects _ (by simp) (by simp)) yes leaves
    waits (by omega) (expects _ (by simp) (by simp)) (by rw [isLate]; cases loops <;> simp)
  have stop' := waits.steps (yes.1.trans leaves.steps)
  have bound' := stop'.inside
  obtain ⟨o₃, second, same'⟩ := first.arm (by omega)
    (by rw [same _ (by omega), expects _ (by simp) (by simp)]) no leaves' (stop'.moved (by omega))
    (by omega) (by rw [same _ bound, expects _ (by simp) (by simp)])
    (by rw [same _ bound, isLate]; cases loops <;> cases loops' <;> simp)
  have last := Nat.lt_of_lt_of_le bound' (no.1.trans leaves'.steps).size
  exact ⟨o₃, second.moved last fun h there => by
    rwa [same' _ bound', same _ bound, expects _ (by simp) (by simp)]⟩

mutual

/-- A statement is added with the loops and conditions that are in it. -/
theorem stmt_goes : ∀ (s : Stmt) {env env' : Slots} {c c' : Cursor},
    stmt env s c = .ok (env', c') → Goes s.loops s.branchLoops c c'
  | .block _ body, _, _, _, _, ran => by
    obtain ⟨-, _, ran⟩ := block_ok.1 ran
    exact stmts_goes body ran
  | .decl .., _, _, _, _, ran => by
    obtain ⟨_, -, ran⟩ := decl_ok.1 ran
    exact spans_goes.declare ran
  | .assign .., _, _, _, _, ran => spans_goes.assign (assign_stmt_ok.1 ran).2
  | .incr .., _, _, _, _, ran => by
    obtain ⟨-, _, -, ran⟩ := incr_ok.1 ran
    exact spans_goes.count ran
  | .ifThen _ _ yes, _, _, _, _, run => by
    refine ⟨stmt_steps _ run, fun tidy => ?_⟩
    obtain ⟨-, _, _, _, _, _, _, _, cond, branched, ran, left, rfl⟩ := ifThen_ok.1 run
    obtain ⟨_, first⟩ := (spans_goes.expr _ cond).2 tidy
    obtain ⟨o', rest⟩ := first.tidy.ifThen branched (stmt_goes yes ran) (.of_leaveTo left)
    exact ⟨o', first.trans rest⟩
  | .ifElse _ _ yes no, _, _, _, _, run => by
    refine ⟨stmt_steps _ run, fun tidy => ?_⟩
    obtain ⟨-, _, _, _, _, _, _, _, _, _, _, cond, branched, ran, left, ran', left', rfl⟩ :=
      ifElse_ok.1 run
    obtain ⟨_, first⟩ := (spans_goes.expr _ cond).2 tidy
    obtain ⟨o', rest⟩ := first.tidy.ifElse branched (stmt_goes yes ran) (.of_leaveTo left)
      (stmt_goes no ran') (.of_leaveTo left')
    exact ⟨o', first.trans rest⟩
  | .while _ _ body, _, _, _, _, run => by
    refine ⟨stmt_steps _ run, fun tidy => ?_⟩
    obtain ⟨-, _, _, _, _, _, _, _, _, _, entered, cond, branched, ran, left, rfl⟩ := while_ok.1 run
    exact tidy.loop (by decide) entered (spans_goes.expr _ cond) branched (stmt_goes body ran)
      (.of_leaveTo left)
  | .forEach _ _ name _ body, _, _, _, _, run => by
    refine ⟨stmt_steps _ run, fun tidy => ?_⟩
    obtain ⟨-, _, _, _, _, _, _, _, _, _, _, _, _, _, _, _, _, array, counter, entered, test,
      branched, -, some, element, ran, round, rfl⟩ := forEach_ok.1 run
    have before := (spans_goes.expr _ array).trans (spans_goes.forCounter counter)
    have inner := (Goes.of_slot _ name some).trans
      ((spans_goes.forElement element).trans (stmt_goes body ran))
    obtain ⟨_, first⟩ := before.2 tidy
    obtain ⟨o', rest⟩ := first.tidy.loop (by decide) entered (spans_goes.forTest test) branched
      inner (.of_rounds round)
    exact ⟨o', first.trans rest⟩
  | .ret .., _, _, _, _, ran => by
    obtain ⟨-, _, _, _, _, _, ran, left, marked⟩ := ret_ok.1 ran
    exact (spans_goes.expr _ ran).trans ((Goes.of_emit left rfl).trans (.of_emit marked rfl))
  | .retVoid _, _, _, _, _, ran => by
    obtain ⟨-, _, _, _, left, marked⟩ := retVoid_ok.1 ran
    exact (Goes.of_emit left rfl).trans (.of_emit marked rfl)
  | .expr .., _, _, _, _, ran => by
    obtain ⟨-, _, ran⟩ := effect_ok.1 ran
    exact spans_goes.expr _ ran
  | .empty _, _, _, _, _, ran => by
    obtain ⟨-, rfl⟩ := empty_ok.1 ran
    exact .refl _

theorem stmts_goes : ∀ (ss : List Stmt) {env env' : Slots} {c c' : Cursor},
    stmts env ss c = .ok (env', c') → Goes (Stmt.anyLoops ss) (Stmt.allBranchLoops ss) c c'
  | [], _, _, _, _, ran => by
    obtain ⟨-, rfl⟩ := stmts_nil_ok.1 ran
    exact .refl _
  | s :: ss, _, _, _, _, ran => by
    obtain ⟨_, _, first, rest⟩ := stmts_cons_ok.1 ran
    exact (stmt_goes s first).trans (stmts_goes ss rest)

end

/-! ## Functions -/

theorem opening_tidy (f : FuncDef) (ret : DataType) (params : List DataType) :
    Tidy (fun _ => ⟨false, false, fun _ => False⟩) (opening f ret params) := by
  refine ⟨opening_laid f ret params, Nat.one_pos, fun _ => id, fun {p n b i} member => ?_⟩
  rw [opening, Func.addBlock_block_instrs, Func.instrs_of_size_le (Nat.zero_le p)] at member
  cases member

theorem Goes.of_closes {ret : DataType} (closed : Closes ret c c') : Goes false [] c c' := by
  rcases closed with ⟨-, rfl⟩ | ⟨-, n, ran⟩
  · exact .refl _
  · refine .of_emit ran ?_
    unfold endRequest
    split <;> rfl

/-- The code of a body has an outline in which only the ends of conditions with a loop in a
branch are late. -/
theorem body_outlined {f : FuncDef} {u : Unit} (ran : body f c = .ok (u, c')) :
    ∃ o, c'.func.Outlined o ∧ ∀ b < c'.func.blocks.size, (o b).late = true →
      ∃ k, c'.func.label b = LabelKind.ifEnd.label k ∧
        (Stmt.allBranchLoops f.body)[k]? = some true := by
  obtain ⟨params, ret, _, _, _, _, -, -, stored, ran, closed⟩ := body_ok.1 ran
  have tidy := opening_tidy f ret params
  obtain ⟨_, first⟩ := (spans_goes.storeParams stored).2 tidy
  obtain ⟨_, second⟩ := (stmts_goes f.body ran).2 first.tidy
  obtain ⟨o, last⟩ := (Goes.of_closes closed).2 second.tidy
  have whole := first.trans (second.plain last)
  refine ⟨o, last.tidy.outlined, fun b inside isLate => ?_⟩
  rcases Nat.lt_or_ge b (opening f ret params).func.blocks.size with entry | new
  · rw [whole.old b entry] at isLate
    cases isLate
  · obtain ⟨k, label, known⟩ := whole.late b new inside isLate
    exact ⟨k, by rw [label]; exact congrArg _ (Nat.zero_add k), known⟩

end Lower

/-- In the numbering of a lowered function a block comes behind every predecessor that it
does not dominate, and its instructions behind those of the predecessor. Only the end of a
condition with a loop in a branch need not come behind the ends of the branches: it is made
before the loop. -/
theorem blocks_come_after_predecessors {p : Program} {threads : Int} {path : Text} {m : Module}
    (lowered : p.lower threads path = .ok m) {g : Func} (member : g ∈ m.functions) :
    ∃ f ∈ p.functions, Lower.function f = .ok g ∧
      ∀ a b, g.Edge a b → ¬ g.DominatesBlock b a →
        (g.Comes a b ∧ ∀ n ∈ (g.block a).instrs, ∀ k ∈ (g.block b).instrs,
          g.number.indexOf n < g.number.indexOf k) ∨
        ((g.block a).succs = [b] ∧ ∃ k, g.label b = LabelKind.ifEnd.label k ∧
          (Stmt.allBranchLoops f.body)[k]? = some true) := by
  obtain ⟨f, source, ran⟩ := Program.lower_mem lowered member
  obtain ⟨c, made, built⟩ := Lower.function_ok.1 ran
  have laid := Lower.body_laid made
  have trims := laid.trims built
  have formed := trims.formed
  have sorted : g.layout.Pairwise (· < ·) :=
    List.pairwise_lt_range.sublist (laid.layout ▸ trims.layout)
  obtain ⟨o, outlined, late⟩ := Lower.body_outlined made
  refine ⟨f, source, ran, fun a b edge forward => ?_⟩
  rcases (outlined.trims trims).comes_or formed sorted edge with comes | ⟨isLate, single⟩ | back
  · exact .inl ⟨comes, fun n first k second => formed.orderly.indexOf_lt comes edge.1 first second⟩
  · obtain ⟨k, label, known⟩ := late b (trims.size ▸ formed.layout_lt edge.1) isLate
    have listed := formed.orderly.linked b edge.1 edge.2
    exact .inr ⟨(formed.succs a listed).trans single, k, (trims.label b).trans label, known⟩
  · exact absurd back forward

/-- In `sum` control comes back to the head of the loop, block 1, from block 7, the end of the
condition, which comes behind the branch in block 6. -/
theorem sums_blocks_are_in_order : ∃ m g, sums.check.1.lower 2 "sums" = .ok m ∧
    g ∈ m.functions ∧ g.Edge 7 1 ∧ ¬ g.Comes 7 1 ∧ g.Edge 6 7 ∧ ¬ g.DominatesBlock 7 6 ∧
      g.Comes 6 7 ∧ ∀ n ∈ (g.block 6).instrs, ∀ k ∈ (g.block 7).instrs,
        g.number.indexOf n < g.number.indexOf k := by
  have shape : ((sums.check.1.lower 2 "sums").toOption.bind (·.functions.head?)).map (fun g =>
      (decide (g.Edge 7 1 ∧ ¬ g.Comes 7 1 ∧ g.Edge 6 7), g.layout.head?,
        [0, 1, 2, 4, 5].map g.targets)) =
      some (true, some 0, [[1], [2, 3], [4, 5], [5], [6, 7]]) := by
    decide +kernel
  have plain : ∀ f ∈ sums.check.1.functions, true ∉ Stmt.allBranchLoops f.body := by decide +kernel
  obtain ⟨g, found, shape⟩ := Option.map_eq_some_iff.1 shape
  obtain ⟨m, known, first⟩ := Option.bind_eq_some_iff.1 found
  have member : g ∈ m.functions := List.mem_of_mem_head? first
  have lowered : sums.check.1.lower 2 "sums" = .ok m := Except.toOption_eq_some.1 known
  simp only [List.map_cons, List.map_nil, Prod.mk.injEq, List.cons.injEq, and_true,
    decide_eq_true_eq] at shape
  obtain ⟨⟨back, early, edge⟩, entry, fromEntry, fromHead, fromBody, fromRight, fromStop⟩ := shape
  have route : g.Route [0, 1, 2, 4, 5] 6 :=
    .step (.step (.step (.step (.step (.entry entry) (c := 1) (by simp [fromEntry])) (c := 2)
      (by simp [fromHead])) (c := 4) (by simp [fromBody])) (c := 5) (by simp [fromRight]))
      (by simp [fromStop])
  have forward : ¬ g.DominatesBlock 7 6 := fun dominates => by
    have := dominates _ route
    simp at this
  obtain ⟨f, source, -, ordered⟩ := blocks_come_after_predecessors lowered member
  have comes := (ordered 6 7 edge forward).resolve_right fun ⟨_, k, _, loop⟩ =>
    plain f source (List.mem_of_getElem? loop)
  exact ⟨m, g, lowered, member, back, early, edge, forward, comes.1, comes.2⟩

/-- A condition with a loop in its branch. -/
def loopBranchText : Text :=
  "int main() \x7b if (true) \x7b while (false) \x7b \x7d \x7d return 0; \x7d"

/-- Control goes from the end of the loop, block 5, to the end of the condition, block 2, which
does not dominate it and comes before it. -/
theorem end_of_condition_comes_too_early : ∃ p m g, Program.parse loopBranchText = .ok p ∧
    p.check.2 = none ∧ p.check.1.lower 1 "loop" = .ok m ∧ g ∈ m.functions ∧
      g.number.order = [0, 1, 2, 3, 4, 5] ∧ g.Edge 5 2 ∧ ¬ g.DominatesBlock 2 5 ∧ ¬ g.Comes 5 2 := by
  have shape : (Program.parse loopBranchText).toOption.bind (fun p =>
      if p.check.2.isNone then (p.check.1.lower 1 "loop").toOption.bind fun m =>
        m.functions.head?.map fun g => (g.number.order, decide (g.Edge 5 2 ∧ ¬ g.Comes 5 2),
          g.layout.head?, [0, 1, 3].map g.targets)
      else none) = some ([0, 1, 2, 3, 4, 5], true, some 0, [[1, 2], [3], [4, 5]]) := by
    decide +kernel
  obtain ⟨p, parsed, shape⟩ := Option.bind_eq_some_iff.1 shape
  obtain ⟨checked, shape⟩ := Option.ite_none_right_eq_some.1 shape
  obtain ⟨m, lowered, shape⟩ := Option.bind_eq_some_iff.1 shape
  obtain ⟨g, first, shape⟩ := Option.map_eq_some_iff.1 shape
  simp only [List.map_cons, List.map_nil, Prod.mk.injEq, List.cons.injEq, and_true,
    decide_eq_true_eq] at shape
  obtain ⟨order, ⟨edge, early⟩, entry, fromEntry, fromBranch, fromHead⟩ := shape
  have route : g.Route [0, 1, 3] 5 :=
    .step (.step (.step (.entry entry) (c := 1) (by simp [fromEntry])) (c := 3)
      (by simp [fromBranch])) (by simp [fromHead])
  refine ⟨p, m, g, Except.toOption_eq_some.1 parsed, Option.isNone_iff_eq_none.1 checked,
    Except.toOption_eq_some.1 lowered, List.mem_of_mem_head? first, order, edge,
    fun dominates => ?_, early⟩
  have := dominates _ route
  simp at this

end ImpCompiler
