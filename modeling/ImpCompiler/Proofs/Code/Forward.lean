import ImpCompiler.Proofs.Code.Ordering

/-!
# Proofs.Code.Forward — control that goes forward but for loops

An instruction that is made later has a larger number in the arena, and a block is filled
in one go. So the code of a function with an `Outline` goes forward: a branch goes to a block
that is filled later, or back to the head of a loop that control has passed. When numbering
is stuck, the block that is left and was filled first is the head of a loop, and the block
that comes is the first one that was made (`Func.order_cases`). A branch to it is in order if
all loops made after it were filled later; a block behind a condition with a loop in a branch
is made before the loop and reached through it, so there it can come too early.
-/

namespace ImpCompiler

set_option autoImplicit false

/-- What is known of a block from the time when it is made. -/
structure Purpose where
  /-- A loop comes back to the block. -/
  head : Bool
  /-- The block is behind a condition with a loop in a branch. -/
  late : Bool
  /-- Control passes these blocks before it gets to the block. -/
  passes : Nat → Prop

/-- What the blocks of a function are for. -/
abbrev Outline := Nat → Purpose

/-- Control passes block `h` before it gets to the end of block `b`. -/
def Outline.At (outline : Outline) (b h : Nat) : Prop := (outline b).passes h ∨ b = h

namespace Func

variable {f g : Func} {outline : Outline}

/-- Every way from the entry to block `b` gets to block `c`. -/
def DominatesBlock (f : Func) (c b : Nat) : Prop :=
  ∀ passed, f.Route passed b → c ∈ passed ∨ c = b

/-- Block `b` is filled behind instruction `n`, and so are the loops that are made after the
block, unless it is late and control can go nowhere else. -/
def Ahead (f : Func) (outline : Outline) (single : Prop) (n b : Nat) : Prop :=
  (∀ m ∈ (f.block b).instrs, n < m) ∧ ((outline b).late = true ∧ single ∨
    ∀ h, (outline h).head = true → b < h → ∀ m ∈ (f.block h).instrs, n < m)

/-- Instruction `n` of block `p` can go to block `b`, forward or back to a head. -/
structure Way (f : Func) (outline : Outline) (p : Nat) (single : Prop) (n b : Nat) : Prop where
  passed : ∀ h, (outline b).passes h → outline.At p h
  goes : f.Ahead outline single n b ∨ (outline b).head = true ∧ outline.At p b

/-- All branches go forward or back to heads. -/
structure Outlined (f : Func) (outline : Outline) : Prop where
  entry : ∀ h, ¬ (outline 0).passes h
  ways : ∀ {p n b : Nat} {i : Instr}, n ∈ (f.block p).instrs → f.arena[n]? = some i →
    b ∈ i.op.targets → f.Way outline p (i.op.targets = [b]) n b

/-- Block `b`, to which code of block `p` can go: it is empty, and no loop was made after it
unless it is late and control can go nowhere else, or it is the head of a loop that control has
passed. -/
structure MayGo (f : Func) (outline : Outline) (p : Nat) (single : Prop) (b : Nat) : Prop where
  passed : ∀ h, (outline b).passes h → outline.At p h
  goes : b ≠ p ∧ (f.block b).instrs = [] ∧ ((outline b).late = true ∧ single ∨
      ∀ h, b < h → h < f.blocks.size → (outline h).head = false) ∨
    (outline b).head = true ∧ outline.At p b

theorem MayGo.mono {p b : Nat} {single single' : Prop} (may : f.MayGo outline p single b)
    (weaker : single → single') : f.MayGo outline p single' b :=
  ⟨may.passed, may.goes.imp_left fun ⟨other, empty, rest⟩ =>
    ⟨other, empty, rest.imp_left fun ⟨isLate, only⟩ => ⟨isLate, weaker only⟩⟩⟩

namespace Outlined

/-! ## Making code -/

/-- What matters is what the blocks that are there are for. -/
theorem congr (outlined : f.Outlined outline) (laid : f.Laid) {outline' : Outline}
    (same : ∀ b < f.blocks.size, outline' b = outline b) : f.Outlined outline' := by
  refine ⟨same 0 laid.entry ▸ outlined.entry, fun {p n b i} member known goes => ?_⟩
  have way := outlined.ways member known goes
  have target := same b (laid.targets n i known b goes)
  have source : outline'.At p = outline.At p := by
    funext h
    rw [Outline.At, Outline.At, same p (lt_size_of_mem member)]
  refine ⟨by rw [target, source]; exact way.passed, ?_⟩
  rw [Ahead, target, source]
  refine way.goes.imp_left fun ahead => ⟨ahead.1, ahead.2.imp_right ?_⟩
  intro loops h head after m inside
  exact loops h (same h (lt_size_of_mem inside) ▸ head) after m inside

theorem addBlock (outlined : f.Outlined outline) (k : LabelKind) :
    (f.addBlock k).1.Outlined outline where
  entry := outlined.entry
  ways member known goes := by
    rw [addBlock_block_instrs] at member
    have way := outlined.ways member known goes
    refine ⟨way.passed, ?_⟩
    simpa only [Ahead, addBlock_block_instrs] using way.goes

/-- A new instruction, which goes to blocks that are empty or heads of loops around it. -/
theorem append (outlined : f.Outlined outline) (laid : f.Laid) {p : Nat} {op : Op} (t : DataType)
    (args : List Value) (goes : ∀ b ∈ op.targets, f.MayGo outline p (op.targets = [b]) b) :
    (f.append p op t args).Outlined outline := by
  refine ⟨outlined.entry, fun {q n b i} member known target => ?_⟩
  rcases mem_append_block member with old | ⟨rfl, rfl⟩
  · obtain ⟨j, known', -⟩ := laid.owner q n old
    have same := (Grows.of_append f p op t args).instr known'
    cases same.symm.trans known
    have way := outlined.ways old known' target
    have smaller : n < f.arena.size := (Array.getElem?_eq_some_iff.1 known').1
    -- whatever is added to a block is behind instruction `n`
    have still : ∀ c, (∀ m ∈ (f.block c).instrs, n < m) →
        ∀ m ∈ ((f.append p op t args).block c).instrs, n < m := by
      intro c behind m inside
      rcases mem_append_block inside with inside | ⟨rfl, -⟩
      · exact behind m inside
      · exact smaller
    refine ⟨way.passed, way.goes.imp_left fun ahead => ⟨still b ahead.1, ahead.2.imp_right ?_⟩⟩
    exact fun loops h head after => still h (loops h head after)
  · rw [append_arena, Array.getElem?_push_size] at known
    cases known
    have way := goes b target
    refine ⟨way.passed, way.goes.imp_left fun forward => ⟨fun m inside => ?_, ?_⟩⟩
    · rcases mem_append_block inside with inside | ⟨-, here⟩
      · rw [forward.2.1] at inside
        cases inside
      · exact absurd here forward.1
    · refine forward.2.2.imp_right fun quiet h head after m inside => ?_
      have none := quiet h after (append_size f q op t args ▸ lt_size_of_mem inside)
      rw [none] at head
      cases head

/-- Removing dead code leaves an outline as it is. -/
theorem trims (outlined : f.Outlined outline) (trims : f.Trims g) : g.Outlined outline := by
  have fewer : ∀ b, (g.block b).instrs ⊆ (f.block b).instrs := by
    intro b n member
    by_cases left : b ∈ g.layout
    · exact (trims.instrs_prefix left).subset member
    · simp [trims.dropped b left] at member
  refine ⟨outlined.entry, fun {p n b i} member known goes => ?_⟩
  have way := outlined.ways (fewer p member) (trims.stays p n member ▸ known) goes
  refine ⟨way.passed, way.goes.imp_left fun ahead => ⟨fun m inside => ahead.1 m (fewer b inside), ?_⟩⟩
  exact ahead.2.imp_right fun loops h head after m inside => loops h head after m (fewer h inside)

/-! ## Numbering -/

/-- The edges of a function are ways of its outline. -/
theorem edge_way (outlined : f.Outlined outline) (formed : f.Formed) {p b : Nat} (edge : f.Edge p b) :
    ∃ n ∈ (f.block p).instrs, f.Way outline p (f.targets p = [b]) n b := by
  have incoming := edge.2
  rw [formed.preds b edge.1, Func.incoming, List.mem_filter, List.contains_iff_mem] at incoming
  obtain ⟨body, n, i, whole, known, targets, -⟩ := formed.last incoming.1
  have member : n ∈ (f.block p).instrs := by simp [whole]
  rw [targets] at incoming ⊢
  exact ⟨n, member, outlined.ways member known incoming.2⟩

/-- What an outline says is passed before a block is passed. -/
theorem on_route (outlined : f.Outlined outline) (formed : f.Formed) {passed : List Nat} {b h : Nat}
    (route : f.Route passed b) (passes : (outline b).passes h) : h ∈ passed := by
  induction route with
  | entry first =>
    cases formed.first.symm.trans first
    exact absurd passes (outlined.entry h)
  | @step passed p b route goes ih =>
    obtain ⟨body, n, i, whole, known, targets, -⟩ := formed.last (route.listed formed)
    have member : n ∈ (f.block p).instrs := by simp [whole]
    have way := outlined.ways member known (targets ▸ goes)
    rcases way.passed h passes with before | here
    · exact List.mem_append_left _ (ih before)
    · simp [here]

theorem dominates (outlined : f.Outlined outline) (formed : f.Formed) {p h : Nat} (passes : outline.At p h) :
    f.DominatesBlock h p :=
  fun _ route => passes.imp (outlined.on_route formed route) Eq.symm

/-- When nothing is ready, the instruction that was made first of those that are left is in
the head of a loop. -/
theorem head_of_stuck (outlined : f.Outlined outline) (formed : f.Formed) {done : List Nat}
    (stuck : f.Stuck done) {b : Nat} (listed : b ∈ f.layout) (left : b ∉ done) :
    ∃ c ∈ f.layout, c ∉ done ∧ (outline c).head = true ∧ ∃ m ∈ (f.block c).instrs,
      ∀ p ∈ f.layout, p ∉ done → ∀ n ∈ (f.block p).instrs, m ≤ n := by
  classical
  have some : ∃ n, ∃ c ∈ f.layout, c ∉ done ∧ n ∈ (f.block c).instrs := by
    obtain ⟨body, n, i, whole, -⟩ := formed.ends b listed
    exact ⟨n, b, listed, left, by simp [whole]⟩
  have least : ∀ p ∈ f.layout, p ∉ done → ∀ n ∈ (f.block p).instrs, Nat.find some ≤ n :=
    fun p listed left n member => Nat.find_min' some ⟨p, listed, left, member⟩
  obtain ⟨c, listed, left, member⟩ := Nat.find_spec some
  refine ⟨c, listed, left, ?_, _, member, least⟩
  obtain ⟨p, goes, left'⟩ := stuck c listed left
  obtain ⟨n, member', way⟩ := outlined.edge_way formed ⟨listed, goes⟩
  rcases way.goes with ⟨filled, -⟩ | ⟨head, -⟩
  · have earlier := filled _ member
    have later := least p (formed.orderly.linked c listed goes) left' n member'
    exact absurd earlier (Nat.not_lt.2 later)
  · exact head

/-- A block comes behind its predecessors, but for those that it dominates and, if it is late,
those from which control goes nowhere else. -/
theorem comes_or (outlined : f.Outlined outline) (formed : f.Formed) (sorted : f.layout.Pairwise (· < ·))
    {p b : Nat} (edge : f.Edge p b) : f.Comes p b ∨
      ((outline b).late = true ∧ f.targets p = [b]) ∨ f.DominatesBlock b p := by
  obtain ⟨before, behind, split, comes⟩ := order_split edge.1
  by_cases done : p ∈ before
  · exact .inl ((comes p).1 done)
  right
  rcases order_cases split with ready | ⟨stuck, first⟩
  · exact absurd (ready p edge.2) done
  have left : b ∉ before := fun member => Nat.lt_irrefl _ ((comes b).1 member)
  obtain ⟨c, listed, left', head, m, member, least⟩ :=
    outlined.head_of_stuck formed stuck edge.1 left
  obtain ⟨n, member', way⟩ := outlined.edge_way formed edge
  have later := least p (formed.orderly.linked b edge.1 edge.2) done n member'
  rcases way.goes with ⟨filled, rest⟩ | ⟨-, passes⟩
  · refine .inl (rest.resolve_right fun loops => ?_)
    have least' : b = c ∨ b < c := by
      obtain ⟨rest, whole⟩ := List.head?_eq_some_iff.1 first
      have inside : c ∈ f.layout.diff before := List.mem_diff_of_mem listed left'
      have sorted' := sorted.sublist (List.diff_sublist f.layout before)
      rw [whole] at inside sorted'
      exact (List.mem_cons.1 inside).imp Eq.symm (List.rel_of_pairwise_cons sorted')
    rcases least' with rfl | smaller
    · exact absurd (filled m member) (Nat.not_lt.2 later)
    · exact absurd (loops c head smaller m member) (Nat.not_lt.2 later)
  · exact .inr (outlined.dominates formed passes)

end Outlined

/-- The instructions of a block that comes before another one have smaller numbers. -/
theorem Orderly.indexOf_lt (orderly : f.Orderly) {b c : Nat} (comes : f.Comes b c)
    (listed : c ∈ f.layout) {n m : Nat} (first : n ∈ (f.block b).instrs)
    (second : m ∈ (f.block c).instrs) : f.number.indexOf n < f.number.indexOf m := by
  obtain ⟨before, behind, split, same⟩ := order_split listed
  obtain ⟨front, between, whole⟩ := List.append_of_mem ((same b).2 comes)
  obtain ⟨k, found⟩ := List.mem_iff_getElem?.1 first
  obtain ⟨l, found'⟩ := List.mem_iff_getElem?.1 second
  have split' : f.number.order = front ++ b :: (between ++ c :: behind) := by
    rw [split, whole, List.append_assoc, List.cons_append]
  have inside := (List.getElem?_eq_some_iff.1 found).1
  rw [orderly.indexOf_block split' found, orderly.indexOf_block split found', whole]
  simp only [List.flatMap_append, List.flatMap_cons, List.length_append]
  omega

end Func

end ImpCompiler
