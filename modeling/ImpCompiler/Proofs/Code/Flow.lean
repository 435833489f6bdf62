import ImpCompiler.Proofs.Code.Growth
import Mathlib.Data.List.Perm.Subperm

/-!
# Proofs.Code.Flow — what removing dead code leaves

`Func.buildFlow` is right for functions as they are made: all blocks are in the layout,
and every instruction of a block is in the arena with the block noted (`Func.Laid`).
`Func.Laid.trims` says what is left of such a function: the blocks that control reaches
from the entry, each up to its first terminator.
-/

namespace ImpCompiler

set_option autoImplicit false

/-- What an instruction does, without where it stands and where its value is kept. -/
def Instr.code (i : Instr) : Op × DataType × List Value := (i.op, i.type, i.args)

namespace Func

variable {f g : Func} {b n : Nat} {reached : List Nat} {h : Nat → Block → Block}

/-- All operands are instructions that compute values, and copies have one. -/
structure UsesValues (f : Func) : Prop where
  operand : ∀ (n : Nat) (i : Instr), f.arena[n]? = some i → ∀ v ∈ i.args,
    ∃ (m : Nat) (j : Instr), v = (m : Value) ∧ f.arena[m]? = some j ∧ j.hasValue = true
  source : ∀ (n : Nat) (i : Instr), f.arena[n]? = some i → i.op = .copy → i.args ≠ []

/-- A function as it is made: all its blocks are in the layout, and an instruction is in
one block at most, once, and says in which; branches go to blocks and operands are
values. -/
structure Laid (f : Func) : Prop where
  layout : f.layout = List.range f.blocks.size
  entry : 0 < f.blocks.size
  owner : ∀ b n, n ∈ (f.block b).instrs → ∃ i, f.arena[n]? = some i ∧ i.block = some b
  once : ∀ b, (f.block b).instrs.Nodup
  targets : ∀ (n : Nat) (i : Instr), f.arena[n]? = some i → ∀ t ∈ i.op.targets, t < f.blocks.size
  values : f.UsesValues

/-- The blocks that control passed on a way from the entry to a block. -/
inductive Route (f : Func) : List Nat → Nat → Prop
  | entry {b : Nat} (first : f.layout.head? = some b) : Route f [] b
  | step {passed : List Nat} {b c : Nat} (route : Route f passed b) (goes : c ∈ f.targets b) :
      Route f (passed ++ [b]) c

/-! ## Cutting blocks -/

/-- Cutting loses no instruction. -/
theorem cut_append (ns : List Nat) : (f.cut ns).1 ++ (f.cut ns).2 = ns := by
  induction ns with
  | nil => rfl
  | cons n ns ih =>
    rw [cut]
    split
    · rfl
    · simp [ih]

/-- A list is cut behind its first terminator; if there is none, nothing is cut. -/
theorem cut_cases (ns : List Nat) :
    (∀ n ∈ (f.cut ns).1, f.isTerminatorAt n = false) ∨
      ∃ body n, (f.cut ns).1 = body ++ [n] ∧ f.isTerminatorAt n = true ∧
        ∀ m ∈ body, f.isTerminatorAt m = false := by
  induction ns with
  | nil => simp [cut]
  | cons n ns ih =>
    rw [cut]
    split
    · rename_i ends
      exact .inr ⟨[], n, rfl, ends, by simp⟩
    · rename_i goesOn
      have plain : f.isTerminatorAt n = false := by simpa using goesOn
      rcases ih with none | ⟨body, m, cut, ends, others⟩
      · exact .inl (by simpa [plain] using none)
      · exact .inr ⟨n :: body, m, by simp [cut], ends, by simpa [plain] using others⟩

/-! ## Getters -/

theorem mapBlocks_block (inside : b < f.blocks.size) :
    (f.mapBlocks h).block b = h b (f.block b) := by
  rw [block_eq_getElem (by simpa [mapBlocks] using inside), block_eq_getElem inside]
  simp [mapBlocks]

@[simp] theorem mapBlocks_size (h : Nat → Block → Block) :
    (f.mapBlocks h).blocks.size = f.blocks.size := by
  simp [mapBlocks]

/-- A change of the instructions of blocks. -/
theorem mapBlocks_instrs {k : Nat → List Nat → List Nat}
    (changes : ∀ b x, (h b x).instrs = k b x.instrs) (none : ∀ b, k b [] = []) (b : Nat) :
    ((f.mapBlocks h).block b).instrs = k b (f.block b).instrs := by
  by_cases inside : b < f.blocks.size
  · rw [mapBlocks_block inside, changes]
  · rw [instrs_of_size_le (by simpa using inside), instrs_of_size_le (by simpa using inside), none]

theorem mapBlocks_label (same : ∀ b x, (h b x).label = x.label) (b : Nat) :
    (f.mapBlocks h).label b = f.label b := by
  unfold label
  by_cases inside : b < f.blocks.size
  · rw [mapBlocks_block inside, same]
  · rw [block_of_size_le (by simpa using inside), block_of_size_le (by simpa using inside)]

@[simp] theorem detach_block (ns : List Nat) (b : Nat) : (f.detach ns).block b = f.block b := rfl

theorem detach_arena (ns : List Nat) (n : Nat) :
    (f.detach ns).arena[n]? =
      f.arena[n]?.map fun i => if n ∈ ns then { i with block := none } else i := by
  simp [detach, mapArena]

theorem detach_arena_of_notMem {ns : List Nat} (stays : n ∉ ns) :
    (f.detach ns).arena[n]? = f.arena[n]? := by
  simp only [detach_arena, if_neg stays, Option.map_id']

theorem isTerminatorAt_eq (n : Nat) :
    f.isTerminatorAt n = ((f.arena[n]?.map Instr.code).any fun c => c.1.isTerminator) := by
  unfold isTerminatorAt
  cases f.arena[n]? <;> rfl

theorem isTerminatorAt_congr (same : g.arena[n]?.map Instr.code = f.arena[n]?.map Instr.code) :
    g.isTerminatorAt n = f.isTerminatorAt n := by
  rw [isTerminatorAt_eq, isTerminatorAt_eq, same]

theorem detach_code (ns : List Nat) (n : Nat) :
    (f.detach ns).arena[n]?.map Instr.code = f.arena[n]?.map Instr.code := by
  rw [detach_arena, Option.map_map]
  congr 1
  funext i
  simp only [Function.comp]
  split <;> rfl

/-- Whether operands are values depends on what instructions do. -/
theorem UsesValues.congr (values : f.UsesValues)
    (code : ∀ n : Nat, g.arena[n]?.map Instr.code = f.arena[n]?.map Instr.code) : g.UsesValues := by
  have before : ∀ {n : Nat} {i : Instr}, g.arena[n]? = some i →
      ∃ i', f.arena[n]? = some i' ∧ i'.code = i.code := by
    intro n i known
    have same := code n
    rw [known, Option.map_some, eq_comm, Option.map_eq_some_iff] at same
    exact same
  refine ⟨fun n i known v member => ?_, fun n i known copy => ?_⟩
  · obtain ⟨i', known', same⟩ := before known
    have args : i'.args = i.args := congrArg (fun c => c.2.2) same
    obtain ⟨m, j, rfl, computes, hasValue⟩ := values.operand n i' known' v (args ▸ member)
    have same' := code m
    rw [computes, Option.map_some, Option.map_eq_some_iff] at same'
    obtain ⟨j', computes', same'⟩ := same'
    refine ⟨m, j', rfl, computes', ?_⟩
    have op : j'.op = j.op := congrArg Prod.fst same'
    have type : j'.type = j.type := congrArg (fun c => c.2.1) same'
    simpa only [Instr.hasValue, op, type] using hasValue
  · obtain ⟨i', known', same⟩ := before known
    have op : i'.op = i.op := congrArg Prod.fst same
    have args : i'.args = i.args := congrArg (fun c => c.2.2) same
    exact args ▸ values.source n i' known' (op.trans copy)

@[simp] theorem strip_size (f : Func) : f.strip.blocks.size = f.blocks.size := mapBlocks_size _

theorem strip_code (n : Nat) : f.strip.arena[n]?.map Instr.code = f.arena[n]?.map Instr.code :=
  detach_code _ n

/-- The code of every block is cut behind its first terminator. -/
theorem strip_instrs (laid : f.Laid) (b : Nat) :
    (f.strip.block b).instrs = (f.cut (f.block b).instrs).1 := by
  by_cases inside : b < f.blocks.size
  · have listed : f.layout.contains b = true := by simpa [laid.layout] using inside
    have stripped := mapBlocks_block (f := f.detach (f.layout.flatMap fun b => (f.cut (f.block b).instrs).2))
      (h := fun b k => if f.layout.contains b then { k with instrs := (f.cut k.instrs).1 } else k) inside
    rw [strip, stripped, if_pos listed]
    rfl
  · rw [instrs_of_size_le (by simpa using inside), instrs_of_size_le (by simpa using inside)]
    rfl

/-! ## The blocks that control reaches -/

theorem targets_nodup (op : Op) : op.targets.Nodup := by
  unfold Op.targets
  split
  · simp
  · split <;> simp_all
  · simp

/-- Everything explored is reached from what was reached before. -/
theorem explore_sound {P : Nat → Prop} {reached work found : List Nat}
    (explored : f.explore n reached work = .ok found) (start : ∀ b ∈ reached, P b)
    (within : work ⊆ reached) (step : ∀ b, P b → ∀ c ∈ f.targets b, P c) :
    reached ⊆ found ∧ ∀ b ∈ found, P b := by
  induction n generalizing reached work with
  | zero =>
    cases explored
    exact ⟨List.Subset.refl _, start⟩
  | succ n ih =>
    cases work with
    | nil =>
      cases explored
      exact ⟨List.Subset.refl _, start⟩
    | cons b work =>
      rw [explore] at explored
      split at explored
      · cases explored
      · rename_i t ends
        have targets : f.targets b = t.op.targets := by simp [Func.targets, ends]
        have from_b : P b := start b (within (by simp))
        obtain ⟨kept, all⟩ := ih explored
          (fun c member => (List.mem_append.1 member).elim (start c) fun new =>
            step b from_b c (targets ▸ (List.mem_filter.1 new).1))
          (fun c member => (List.mem_append.1 member).elim
            (fun new => List.mem_append_right _ (by simpa using new))
            fun old => List.mem_append_left _ (within (by simp [old])))
        exact ⟨fun c member => kept (by simp [member]), all⟩

/-- A block whose terminator goes nowhere outside `found`. -/
def ClosedAt (f : Func) (found : List Nat) (b : Nat) : Prop :=
  ∃ t, f.terminator? b = some t ∧ ∀ c ∈ t.op.targets, c ∈ found

theorem length_le_of_lt {bs : List Nat} (once : bs.Nodup) (inside : ∀ b ∈ bs, b < n) :
    bs.length ≤ n := by
  have sub : bs ⊆ List.range n := fun b member => by simpa using inside b member
  simpa using (once.subperm sub).length_le

/-- With as many looks as there are blocks nothing that was reached is left out. The
blocks that were looked at are in `seen`. -/
theorem explore_closed (seen : List Nat) {reached work found : List Nat}
    (explored : f.explore n reached work = .ok found) (once : reached.Nodup)
    (inside : ∀ b ∈ reached, b < f.blocks.size) (split : (seen ++ work).Perm reached)
    (looks : f.blocks.size ≤ n + seen.length) (closed : ∀ b ∈ seen, f.ClosedAt reached b)
    (targets : ∀ b t, f.terminator? b = some t → ∀ c ∈ t.op.targets, c < f.blocks.size) :
    ∀ b ∈ found, f.ClosedAt found b := by
  have count := length_le_of_lt once inside
  have length := split.length_eq
  rw [List.length_append] at length
  induction n generalizing reached seen work with
  | zero =>
    cases explored
    have empty : work = [] := List.eq_nil_of_length_eq_zero (by omega)
    intro b member
    exact closed b (by simpa [empty] using split.mem_iff.2 member)
  | succ n ih =>
    cases work with
    | nil =>
      cases explored
      intro b member
      exact closed b (by simpa using split.mem_iff.2 member)
    | cons b work =>
      rw [explore] at explored
      split at explored
      · cases explored
      · rename_i t ends
        generalize new : (t.op.targets.filter fun c => !reached.contains c) = found' at explored
        have fresh : ∀ c ∈ found', c ∈ t.op.targets ∧ c ∉ reached := by
          intro c member
          simpa [← new] using member
        have once' : (reached ++ found').Nodup := by
          refine List.nodup_append.2 ⟨once, new ▸ (targets_nodup t.op).filter _, ?_⟩
          rintro c old _ member rfl
          exact (fresh c member).2 old
        have inside' : ∀ c ∈ reached ++ found', c < f.blocks.size := by
          intro c member
          rcases List.mem_append.1 member with old | member
          · exact inside c old
          · exact targets b t ends c (fresh c member).1
        have split' : (seen ++ [b] ++ (found'.reverse ++ work)).Perm (reached ++ found') := by
          have front : (found'.reverse ++ work).Perm (work ++ found') :=
            List.perm_append_comm.trans (.append_left _ found'.reverse_perm)
          calc (seen ++ [b] ++ (found'.reverse ++ work)).Perm (seen ++ [b] ++ (work ++ found')) :=
                front.append_left _
            _ = (seen ++ b :: work) ++ found' := by simp
            List.Perm _ (reached ++ found') := split.append_right _
        refine ih (seen ++ [b]) explored once' inside' split' (by simp; omega) ?_
          (length_le_of_lt once' inside') (by simpa [Nat.add_assoc, Nat.add_comm 1] using split'.length_eq)
        intro c member
        rcases List.mem_append.1 member with old | last
        · obtain ⟨u, ends', within⟩ := closed c old
          exact ⟨u, ends', fun d goes => List.mem_append_left _ (within d goes)⟩
        · cases List.mem_singleton.1 last
          refine ⟨t, ends, fun d goes => ?_⟩
          by_cases old : d ∈ reached
          · exact List.mem_append_left _ old
          · exact List.mem_append_right _ (by simpa [← new] using ⟨goes, old⟩)

/-! ## Instructions that stay -/

namespace Laid

variable (laid : f.Laid)

include laid

/-- Two blocks share no instruction. -/
theorem unique {b c n : Nat} (here : n ∈ (f.block b).instrs) (there : n ∈ (f.block c).instrs) :
    b = c := by
  obtain ⟨i, known, owner⟩ := laid.owner b n here
  obtain ⟨j, known', owner'⟩ := laid.owner c n there
  rw [known] at known'
  cases known'
  exact Option.some.inj (owner.symm.trans owner')

theorem mem_layout {b : Nat} : b ∈ f.layout ↔ b < f.blocks.size := by
  simp [laid.layout]

theorem head : ∃ rest, f.layout = 0 :: rest := by
  obtain ⟨n, size⟩ := Nat.exists_eq_succ_of_ne_zero (Nat.ne_of_gt laid.entry)
  exact ⟨_, by rw [laid.layout, size, List.range_succ_eq_map]⟩

/-- Instructions that stay are not changed. -/
theorem strip_arena {b n : Nat} (stays : n ∈ (f.strip.block b).instrs) :
    f.strip.arena[n]? = f.arena[n]? := by
  rw [strip_instrs laid] at stays
  have here : n ∈ (f.block b).instrs := by
    rw [← cut_append (f := f) (f.block b).instrs]
    exact List.mem_append_left _ stays
  have kept : n ∉ f.layout.flatMap fun c => (f.cut (f.block c).instrs).2 := by
    intro removed
    obtain ⟨c, -, there⟩ := List.mem_flatMap.1 removed
    have same : b = c := by
      refine laid.unique here ?_
      rw [← cut_append (f := f) (f.block c).instrs]
      exact List.mem_append_right _ there
    subst same
    have once := laid.once b
    rw [← cut_append (f := f) (f.block b).instrs] at once
    exact (List.nodup_append.1 once).2.2 n stays n there rfl
  exact detach_arena_of_notMem kept

theorem strip : f.strip.Laid where
  layout := by
    rw [strip_size]
    exact laid.layout
  entry := by
    rw [strip_size]
    exact laid.entry
  owner b n stays := by
    rw [laid.strip_arena stays]
    rw [strip_instrs laid] at stays
    refine laid.owner b n ?_
    rw [← cut_append (f := f) (f.block b).instrs]
    exact List.mem_append_left _ stays
  once b := by
    have once := laid.once b
    rw [← cut_append (f := f) (f.block b).instrs] at once
    rw [strip_instrs laid]
    exact (List.nodup_append.1 once).1
  targets n i known t goes := by
    have same := f.strip_code n
    rw [known, Option.map_some, eq_comm, Option.map_eq_some_iff] at same
    obtain ⟨j, known', same⟩ := same
    rw [strip_size]
    refine laid.targets n j known' t ?_
    rwa [show j.op = i.op from congrArg Prod.fst same]
  values := laid.values.congr strip_code

end Laid

@[simp] theorem keepReached_size (f : Func) (reached : List Nat) :
    (f.keepReached reached).blocks.size = f.blocks.size := mapBlocks_size _

theorem keepReached_code (reached : List Nat) (n : Nat) :
    (f.keepReached reached).arena[n]?.map Instr.code = f.arena[n]?.map Instr.code :=
  detach_code _ n

theorem keepReached_layout (f : Func) (reached : List Nat) :
    (f.keepReached reached).layout =
      f.layout.filter fun b => reached.contains b && !(f.block b).instrs.isEmpty := rfl

theorem mem_keepReached :
    b ∈ (f.keepReached reached).layout ↔ b ∈ f.layout ∧ b ∈ reached ∧ (f.block b).instrs ≠ [] := by
  simp [keepReached_layout]

/-- Blocks that are kept keep their instructions, the others lose them. -/
theorem keepReached_instrs (reached : List Nat) (b : Nat) :
    ((f.keepReached reached).block b).instrs =
      if (f.layout.filter fun b => !(reached.contains b && !(f.block b).instrs.isEmpty)).contains b
      then [] else (f.block b).instrs := by
  refine mapBlocks_instrs (f := f.detach _) (k := fun b ns => if (f.layout.filter fun b =>
    !(reached.contains b && !(f.block b).instrs.isEmpty)).contains b then [] else ns) ?_ ?_ b
  · intro b x
    dsimp only
    split <;> rfl
  · simp

theorem keepReached_stays (kept : b ∈ (f.keepReached reached).layout) :
    ((f.keepReached reached).block b).instrs = (f.block b).instrs := by
  obtain ⟨listed, found, some⟩ := mem_keepReached.1 kept
  simp [keepReached_instrs, found, some]

theorem keepReached_drops (listed : b ∈ f.layout) (dropped : b ∉ (f.keepReached reached).layout) :
    ((f.keepReached reached).block b).instrs = [] := by
  rw [mem_keepReached, not_and, not_and, not_not] at dropped
  rw [keepReached_instrs]
  by_cases found : b ∈ reached
  · simp [dropped listed found]
  · simp [listed, found]

/-- Dropping blocks does not change the instructions of the others. -/
theorem Laid.keepReached_arena (laid : f.Laid) {b n : Nat}
    (stays : n ∈ ((f.keepReached reached).block b).instrs) :
    (f.keepReached reached).arena[n]? = f.arena[n]? := by
  have here : n ∈ (f.block b).instrs ∧ b ∈ (f.keepReached reached).layout := by
    by_cases kept : b ∈ (f.keepReached reached).layout
    · exact ⟨keepReached_stays kept ▸ stays, kept⟩
    · by_cases listed : b ∈ f.layout
      · simp [keepReached_drops listed kept] at stays
      · have outside : f.blocks.size ≤ b := by simpa [laid.mem_layout] using listed
        rw [instrs_of_size_le (by simpa using outside)] at stays
        cases stays
  have kept : n ∉ (f.layout.filter fun b => !(reached.contains b &&
      !(f.block b).instrs.isEmpty)).flatMap fun b => (f.block b).instrs := by
    intro removed
    obtain ⟨c, dropped, there⟩ := List.mem_flatMap.1 removed
    cases laid.unique here.1 there
    have := (mem_keepReached.1 here.2).2
    simp_all
  exact detach_arena_of_notMem kept

/-! ## What is left -/

@[simp] theorem link_size (f : Func) : f.link.blocks.size = f.blocks.size := mapBlocks_size _

@[simp] theorem link_instrs (f : Func) (b : Nat) :
    (f.link.block b).instrs = (f.block b).instrs := by
  refine mapBlocks_instrs (k := fun _ ns => ns) (fun b x => ?_) (fun _ => rfl) b
  split <;> rfl

def lastCode? (f : Func) (b : Nat) : Option (Op × DataType × List Value) :=
  ((f.block b).instrs.getLast?.bind fun n => f.arena[n]?).map Instr.code

theorem lastCode?_congr (instrs : (g.block b).instrs = (f.block b).instrs)
    (code : ∀ n : Nat, g.arena[n]?.map Instr.code = f.arena[n]?.map Instr.code) :
    g.lastCode? b = f.lastCode? b := by
  simp only [lastCode?, instrs, Option.map_bind, Function.comp_def, code]

/-- The terminator of a block is its last instruction, if that is one. -/
theorem terminator?_code (b : Nat) :
    (f.terminator? b).map Instr.code = (f.lastCode? b).filter fun c => c.1.isTerminator := by
  simp only [terminator?, lastCode?]
  cases (f.block b).instrs.getLast?.bind fun n => f.arena[n]? with
  | none => rfl
  | some i =>
    simp only [Option.map_some, Option.filter]
    split <;> simp_all [Instr.isTerminator, Instr.code]

theorem targets_eq (b : Nat) :
    f.targets b = ((f.terminator? b).map Instr.code).elim [] fun c => c.1.targets := by
  unfold targets
  cases f.terminator? b <;> rfl

theorem targets_congr (same : g.lastCode? b = f.lastCode? b) : g.targets b = f.targets b := by
  rw [targets_eq, targets_eq, terminator?_code, terminator?_code, same]

/-- Where a block leads only depends on its last instruction. -/
theorem ClosedAt.congr {found : List Nat} (closed : f.ClosedAt found b)
    (same : g.lastCode? b = f.lastCode? b) : g.ClosedAt found b := by
  obtain ⟨t, ends, within⟩ := closed
  have code := g.terminator?_code b
  rw [same, ← terminator?_code, ends, Option.map_some, Option.map_eq_some_iff] at code
  obtain ⟨u, ends', same⟩ := code
  refine ⟨u, ends', ?_⟩
  rwa [show u.op = t.op from congrArg Prod.fst same]

theorem link_block (listed : b ∈ f.layout) (inside : b < f.blocks.size) :
    (f.link.block b).preds = f.incoming b ∧ (f.link.block b).succs = f.targets b := by
  have linked := mapBlocks_block (h := fun b k =>
    if f.layout.contains b then { k with preds := f.incoming b, succs := f.targets b }
    else { k with preds := k.preds ++ f.incoming b }) inside
  have same : f.link.block b = _ := linked
  simp [same, listed]

/-! ## What is left -/

/-- A function whose flow of control is in order: control starts at block 0 and reaches
every block of the layout, every block ends with a terminator and has no other one,
instructions know their blocks, and operands are values. -/
structure Formed (f : Func) : Prop where
  first : f.layout.head? = some 0
  distinct : f.layout.Nodup
  reached : ∀ b ∈ f.layout, ∃ passed, f.Route passed b
  ends : ∀ b ∈ f.layout, ∃ body n i, (f.block b).instrs = body ++ [n] ∧ f.arena[n]? = some i ∧
    i.op.isTerminator = true ∧ (∀ t ∈ i.op.targets, t ∈ f.layout) ∧
    ∀ m ∈ body, f.isTerminatorAt m = false
  owner : ∀ b n, n ∈ (f.block b).instrs → ∃ i, f.arena[n]? = some i ∧ i.block = some b
  once : ∀ b, (f.block b).instrs.Nodup
  values : f.UsesValues
  preds : ∀ b ∈ f.layout, (f.block b).preds = f.incoming b
  succs : ∀ b ∈ f.layout, (f.block b).succs = f.targets b

/-- What is left of the function `f` when dead code is removed. -/
structure Trims (f g : Func) : Prop where
  name : g.name = f.name
  ret : g.ret = f.ret
  params : g.params = f.params
  slots : g.slots = f.slots
  size : g.blocks.size = f.blocks.size
  label : ∀ b, g.label b = f.label b
  order : g.order = []
  /-- The blocks that are left, in the order they had. -/
  layout : g.layout.Sublist f.layout
  instrs : ∀ b ∈ g.layout, (g.block b).instrs = (f.cut (f.block b).instrs).1
  dropped : ∀ b, b ∉ g.layout → (g.block b).instrs = []
  code : ∀ n : Nat, g.arena[n]?.map Instr.code = f.arena[n]?.map Instr.code
  stays : ∀ b n, n ∈ (g.block b).instrs → g.arena[n]? = f.arena[n]?
  formed : g.Formed

/-- The instructions of a block that is left are the first ones it had. -/
theorem Trims.instrs_prefix (trims : f.Trims g) (left : b ∈ g.layout) :
    (g.block b).instrs <+: (f.block b).instrs := by
  rw [trims.instrs b left]
  exact ⟨_, f.cut_append _⟩

/-- A block that was cut and has a terminator at its end has no other one. -/
theorem ends_of_cut {found ns : List Nat} (closed : g.ClosedAt found b)
    (cut : (g.block b).instrs = (f.cut ns).1)
    (code : ∀ n : Nat, g.arena[n]?.map Instr.code = f.arena[n]?.map Instr.code) :
    ∃ body n i, (g.block b).instrs = body ++ [n] ∧ g.arena[n]? = some i ∧
      i.op.isTerminator = true ∧ (∀ t ∈ i.op.targets, t ∈ found) ∧
      ∀ m ∈ body, g.isTerminatorAt m = false := by
  obtain ⟨t, ends, within⟩ := closed
  unfold terminator? at ends
  split at ends
  · rename_i i known
    obtain ⟨n, last, known⟩ := Option.bind_eq_some_iff.1 known
    split at ends
    · rename_i isEnd
      cases ends
      have here : g.isTerminatorAt n = true := by simp [isTerminatorAt, known, isEnd]
      obtain ⟨body, whole⟩ := List.getLast?_eq_some_iff.1 last
      refine ⟨body, n, _, whole, known, isEnd, within, ?_⟩
      rw [cut] at whole
      rcases f.cut_cases ns with none | ⟨body', m, whole', -, others⟩
      · have plain := none n (by simp [whole])
        rw [← isTerminatorAt_congr (code n), here] at plain
        cases plain
      · rw [whole'] at whole
        obtain ⟨rfl, -⟩ := List.append_inj' whole rfl
        exact fun m member => (isTerminatorAt_congr (code m)).trans (others m member)
    · cases ends
  · cases ends

/-- A flow that was built is made of the blocks that the search found. -/
theorem buildFlow_ok (laid : f.Laid) (built : f.buildFlow = (g, none)) :
    ∃ reached, f.strip.explore f.blocks.size [0] [0] = .ok reached ∧
      g = (f.strip.keepReached reached).link := by
  have entry : f.strip.entry = .ok 0 := by
    obtain ⟨rest, layout⟩ := laid.strip.head
    simp [Func.entry, layout]
  simp only [buildFlow, entry, strip_size] at built
  split at built
  · simp at built
  · rename_i reached explored
    simp only [Prod.mk.injEq, and_true] at built
    exact ⟨reached, explored, built.symm⟩

theorem mem_arena_of_terminator? {t : Instr} (ends : f.terminator? b = some t) :
    ∃ n : Nat, f.arena[n]? = some t := by
  unfold terminator? at ends
  split at ends
  · rename_i i known
    obtain ⟨n, -, known⟩ := Option.bind_eq_some_iff.1 known
    split at ends
    · cases ends
      exact ⟨n, known⟩
    · cases ends
  · cases ends

theorem label_buildFlow (f : Func) (reached : List Nat) (b : Nat) :
    (f.strip.keepReached reached).link.label b = f.label b := by
  have linked : (f.strip.keepReached reached).link.label b = (f.strip.keepReached reached).label b :=
    mapBlocks_label (fun b x => by split <;> rfl) b
  have kept : (f.strip.keepReached reached).label b = f.strip.label b :=
    mapBlocks_label (f := f.strip.detach _) (fun b x => by dsimp only; split <;> rfl) b
  have stripped : f.strip.label b = f.label b :=
    mapBlocks_label (f := f.detach _) (fun b x => by split <;> rfl) b
  rw [linked, kept, stripped]

theorem header_buildFlow (f : Func) (reached : List Nat) :
    (f.strip.keepReached reached).link.name = f.name ∧
      (f.strip.keepReached reached).link.ret = f.ret ∧
      (f.strip.keepReached reached).link.params = f.params ∧
      (f.strip.keepReached reached).link.slots = f.slots := by
  simp only [link, keepReached, strip, mapBlocks, detach, mapArena, and_self]

theorem link_layout (f : Func) : f.link.layout = f.layout := rfl

theorem link_arena (f : Func) : f.link.arena = f.arena := rfl

theorem targets_link (f : Func) (b : Nat) : f.link.targets b = f.targets b :=
  targets_congr (lastCode?_congr (link_instrs f b) fun _ => rfl)

namespace Laid

section Explored

variable (laid : f.Laid) (explored : f.explore f.blocks.size [0] [0] = .ok reached)

include laid

theorem targets_terminator? {t : Instr} (ends : f.terminator? b = some t) :
    ∀ c ∈ t.op.targets, c < f.blocks.size := by
  obtain ⟨n, known⟩ := mem_arena_of_terminator? ends
  exact laid.targets n t known

include explored

/-- The search finds the entry, and no block that is not there. -/
theorem explored_inside : 0 ∈ reached ∧ ∀ b ∈ reached, b < f.blocks.size := by
  obtain ⟨start, inside⟩ := explore_sound (P := fun b => b < f.blocks.size) explored
    (by simpa using laid.entry) (List.Subset.refl _) fun b _ c goes => by
      unfold Func.targets at goes
      split at goes
      · exact laid.targets_terminator? ‹_› c goes
      · cases goes
  exact ⟨start (by simp), inside⟩

theorem explored_closed : ∀ b ∈ reached, f.ClosedAt reached b :=
  explore_closed [] explored (by simp) (by simpa using laid.entry) (.refl _) (by simp)
    (by simp) fun _ _ => laid.targets_terminator?

/-- A block that control reaches has a terminator, so it is kept. -/
theorem mem_kept : b ∈ (f.keepReached reached).link.layout ↔ b ∈ reached := by
  rw [link_layout, mem_keepReached, laid.mem_layout]
  refine ⟨fun member => member.2.1, fun member => ⟨?_, member, fun empty => ?_⟩⟩
  · exact (laid.explored_inside explored).2 b member
  · obtain ⟨t, ends, -⟩ := laid.explored_closed explored b member
    simp [terminator?, empty] at ends

theorem kept_instrs (member : b ∈ reached) :
    ((f.keepReached reached).link.block b).instrs = (f.block b).instrs := by
  rw [link_instrs, keepReached_stays ((laid.mem_kept explored).2 member)]

theorem kept_lastCode? (member : b ∈ reached) :
    (f.keepReached reached).link.lastCode? b = f.lastCode? b :=
  lastCode?_congr (laid.kept_instrs explored member) (keepReached_code reached)

theorem kept_head : (f.keepReached reached).link.layout.head? = some 0 := by
  obtain ⟨rest, layout⟩ := laid.head
  have entry := (laid.mem_kept explored).2 (laid.explored_inside explored).1
  rw [link_layout, mem_keepReached] at entry
  rw [link_layout, keepReached_layout, layout, List.filter_cons_of_pos (by simpa using entry.2)]
  rfl

/-- There is a way to each block that is kept. -/
theorem kept_route (member : b ∈ reached) :
    ∃ passed, (f.keepReached reached).link.Route passed b := by
  have start : ∀ b ∈ [0], b ∈ reached ∧ ∃ passed, (f.keepReached reached).link.Route passed b := by
    simpa using ⟨(laid.explored_inside explored).1, [], .entry (laid.kept_head explored)⟩
  have found := explore_sound explored start (List.Subset.refl _) ?_
  · exact (found.2 b member).2
  · rintro b ⟨member, passed, route⟩ c goes
    refine ⟨?_, _, route.step (targets_congr (laid.kept_lastCode? explored member) ▸ goes)⟩
    obtain ⟨t, ends, within⟩ := laid.explored_closed explored b member
    simp only [Func.targets, ends] at goes
    exact within c goes

end Explored

section Stripped

variable (laid : f.Laid) {reached : List Nat}
  (explored : f.strip.explore f.strip.blocks.size [0] [0] = .ok reached)

theorem left_code (f : Func) (reached : List Nat) (n : Nat) :
    (f.strip.keepReached reached).link.arena[n]?.map Instr.code = f.arena[n]?.map Instr.code :=
  (keepReached_code reached n).trans (strip_code n)

theorem left_sublist (f : Func) (reached : List Nat) :
    (f.strip.keepReached reached).link.layout.Sublist f.layout := by
  rw [link_layout, keepReached_layout]
  exact List.filter_sublist

include laid

theorem left_dropped {b : Nat} (dropped : b ∉ (f.strip.keepReached reached).link.layout) :
    ((f.strip.keepReached reached).link.block b).instrs = [] := by
  by_cases inside : b < f.blocks.size
  · rw [link_instrs]
    exact keepReached_drops (laid.strip.mem_layout.2 (by simpa using inside)) dropped
  · exact instrs_of_size_le (by simpa using inside)

/-- Instructions that are left are those of the function as it was made. -/
theorem left_stays {b n : Nat} (stays : n ∈ ((f.strip.keepReached reached).link.block b).instrs) :
    (f.strip.keepReached reached).link.arena[n]? = f.arena[n]? := by
  rw [link_instrs] at stays
  rw [link_arena, laid.strip.keepReached_arena stays]
  refine laid.strip_arena (b := b) ?_
  rw [keepReached_instrs] at stays
  split at stays
  · cases stays
  · exact stays

include explored

theorem left_instrs {b : Nat} (left : b ∈ (f.strip.keepReached reached).link.layout) :
    ((f.strip.keepReached reached).link.block b).instrs = (f.cut (f.block b).instrs).1 := by
  rw [laid.strip.kept_instrs explored ((laid.strip.mem_kept explored).1 left), strip_instrs laid]

theorem left_prefix (b : Nat) :
    ((f.strip.keepReached reached).link.block b).instrs <+: (f.block b).instrs := by
  by_cases left : b ∈ (f.strip.keepReached reached).link.layout
  · rw [laid.left_instrs explored left]
    exact ⟨_, f.cut_append _⟩
  · rw [laid.left_dropped left]
    exact List.nil_prefix

/-- What is left is in form: each block ends in its only terminator. -/
theorem left_formed : (f.strip.keepReached reached).link.Formed := by
  have mem := fun b => laid.strip.mem_kept explored (b := b)
  have inside : ∀ b ∈ (f.strip.keepReached reached).layout,
      b < (f.strip.keepReached reached).blocks.size := by
    intro b member
    rw [keepReached_size]
    exact laid.strip.mem_layout.1 (mem_keepReached.1 member).1
  refine ⟨laid.strip.kept_head explored, (left_sublist f reached).nodup ?_,
    fun b member => laid.strip.kept_route explored ((mem b).1 member), fun b member => ?_,
    fun b n member => ?_, fun b => (laid.left_prefix explored b).sublist.nodup (laid.once b),
    laid.values.congr (left_code f reached), fun b member => ?_, fun b member => ?_⟩
  · rw [laid.layout]
    exact List.nodup_range
  · have closed := (laid.strip.explored_closed explored b ((mem b).1 member)).congr
      (laid.strip.kept_lastCode? explored ((mem b).1 member))
    obtain ⟨body, n, i, whole, known, isEnd, within, others⟩ :=
      ends_of_cut closed (laid.left_instrs explored member) (left_code f reached)
    exact ⟨body, n, i, whole, known, isEnd, fun t goes => (mem t).2 (within t goes), others⟩
  · rw [laid.left_stays member]
    exact laid.owner b n ((laid.left_prefix explored b).subset member)
  · rw [link_layout] at member
    rw [(link_block member (inside b member)).1]
    simp only [incoming, link_layout, targets_link]
  · rw [link_layout] at member
    rw [(link_block member (inside b member)).2, targets_link]

end Stripped

/-- Removing dead code leaves the blocks that control reaches, each up to its first
terminator. -/
theorem trims (laid : f.Laid) (built : f.buildFlow = (g, none)) : f.Trims g := by
  obtain ⟨reached, explored, rfl⟩ := buildFlow_ok laid built
  rw [← strip_size f] at explored
  obtain ⟨name, ret, params, slots⟩ := header_buildFlow f reached
  exact ⟨name, ret, params, slots, by simp, label_buildFlow f reached, rfl, left_sublist f reached,
    fun _ => laid.left_instrs explored, fun _ => laid.left_dropped, left_code f reached,
    fun _ _ => laid.left_stays, laid.left_formed explored⟩

end Laid

/-! ## Points of a function -/

theorem isTerminator_of_target {op : Op} {t : Nat} (goes : t ∈ op.targets) :
    op.isTerminator = true := by
  unfold Op.targets at goes
  split at goes
  · rfl
  · rfl
  · cases goes

/-- A point before an instruction of a block of the layout. -/
def Inside (f : Func) (b k : Nat) : Prop := b ∈ f.layout ∧ k < (f.block b).instrs.length

namespace Formed

variable (formed : f.Formed)

include formed

theorem fetch {b k : Nat} (inside : f.Inside b k) :
    ∃ n i, (f.block b).instrs[k]? = some n ∧ f.arena[n]? = some i ∧ i.block = some b := by
  obtain ⟨i, known, owner⟩ := formed.owner b _ (List.getElem_mem inside.2)
  exact ⟨_, i, List.getElem?_eq_getElem inside.2, known, owner⟩

theorem start : f.Inside 0 0 := by
  have member : 0 ∈ f.layout := List.mem_of_mem_head? formed.first
  obtain ⟨body, n, i, whole, -⟩ := formed.ends 0 member
  exact ⟨member, by simp [whole]⟩

/-- The terminator of a block is its last instruction. -/
theorem isTerminator_iff {b k n : Nat} {i : Instr} (inside : f.Inside b k)
    (here : (f.block b).instrs[k]? = some n) (known : f.arena[n]? = some i) :
    i.op.isTerminator = true ↔ k + 1 = (f.block b).instrs.length := by
  obtain ⟨body, m, j, whole, last, isEnd, -, others⟩ := formed.ends b inside.1
  rw [whole] at here ⊢
  have bound := inside.2
  rw [whole, List.length_append, List.length_singleton] at bound
  rw [List.length_append, List.length_singleton]
  by_cases before : k < body.length
  · rw [List.getElem?_append_left before] at here
    have plain := others n (List.mem_of_getElem? here)
    simp only [isTerminatorAt, known, Option.any_some, Instr.isTerminator] at plain
    simp only [plain, Bool.false_eq_true, false_iff]
    omega
  · have atEnd : k = body.length := by omega
    subst atEnd
    simp only [List.getElem?_append_right (Nat.le_refl _), Nat.sub_self, List.getElem?_cons_zero,
      Option.some.injEq] at here
    subst here
    rw [last] at known
    cases known
    simp [isEnd]

theorem next {b k n : Nat} {i : Instr} (inside : f.Inside b k)
    (here : (f.block b).instrs[k]? = some n) (known : f.arena[n]? = some i)
    (plain : i.op.isTerminator = false) : f.Inside b (k + 1) := by
  refine ⟨inside.1, ?_⟩
  have bound := inside.2
  have notLast : k + 1 ≠ (f.block b).instrs.length := by
    rw [ne_eq, ← formed.isTerminator_iff inside here known]
    simp [plain]
  omega

theorem goes {b k n t : Nat} {i : Instr} (inside : f.Inside b k)
    (here : (f.block b).instrs[k]? = some n) (known : f.arena[n]? = some i)
    (target : t ∈ i.op.targets) : f.Inside t 0 := by
  obtain ⟨body, m, j, whole, last, -, within, -⟩ := formed.ends b inside.1
  have atEnd := (formed.isTerminator_iff inside here known).1 (isTerminator_of_target target)
  rw [whole, List.length_append, List.length_singleton] at atEnd
  rw [whole, show k = body.length by omega, List.getElem?_concat_length] at here
  cases here
  rw [last] at known
  cases known
  have left := within t target
  obtain ⟨body, m, j, whole, -⟩ := formed.ends t left
  exact ⟨left, by simp [whole]⟩

end Formed

end Func

end ImpCompiler
