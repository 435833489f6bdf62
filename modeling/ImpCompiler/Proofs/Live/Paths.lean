import ImpCompiler.Proofs.Live.Exact
import Mathlib.Data.List.Chain

/-!
# Proofs.Live.Paths — live values are those that a path leads to a use of

A value is live at the start of a block if there is a path of blocks from there to one that
uses the value before it computes it, and no block that the path leaves computes it
(`Func.LiveOnPath`). Rounds that pass values on to blocks lead to these sets, whatever the
order in which they go through the blocks and through the values of their successors: each of
them but the last puts a value somewhere (`run_ends`), and where one changes nothing the sets
are those of the paths (`Reached.mem_iff`).
-/

namespace ImpCompiler

set_option autoImplicit false

namespace Func

variable {f : Func} {v : Value} {b c : BlockId} {live : LiveSets}

/-! ## Paths -/

/-- An instruction of the block uses the value, and none before it computes the value. -/
def UsesFirst (f : Func) (b : BlockId) (v : Value) : Prop :=
  ∃ before n behind, (f.block b).instrs = before ++ n :: behind ∧ f.UsesValue n v ∧
    ∀ m ∈ before, ¬ f.Computes m v

def ComputedIn (f : Func) (b : BlockId) (v : Value) : Prop :=
  ∃ n ∈ (f.block b).instrs, f.Computes n v

/-- A path of blocks that leaves those of `passed` and ends in `last`, where the value is used;
it is not computed on the way. -/
structure UsePath (f : Func) (v : Value) (passed : List BlockId) (last : BlockId) : Prop where
  blocks : ∀ c ∈ passed ++ [last], c ∈ f.layout
  linked : (passed ++ [last]).IsChain fun c d => d ∈ (f.block c).succs
  used : f.UsesFirst last v
  leftAlone : ∀ c ∈ passed, ¬ f.ComputedIn c v

def LiveOnPath (f : Func) (b : BlockId) (v : Value) : Prop :=
  ∃ passed last, (passed ++ [last]).head? = some b ∧ f.UsePath v passed last

/-- A value is needed if a use comes before it is computed. -/
theorem needs_iff_split {ns : List Nat} : f.Needs (fun _ => False) ns v ↔
    ∃ before n behind, ns = before ++ n :: behind ∧ f.UsesValue n v ∧
      ∀ m ∈ before, ¬ f.Computes m v := by
  constructor
  · intro needed
    induction ns with
    | nil => exact needed.elim
    | cons n ns ih =>
      rcases needed with used | ⟨leftAlone, later⟩
      · exact ⟨[], n, ns, rfl, used, by simp⟩
      · obtain ⟨before, m, behind, rfl, used, none⟩ := ih later
        exact ⟨n :: before, m, behind, rfl, used, List.forall_mem_cons.2 ⟨leftAlone, none⟩⟩
  · rintro ⟨before, n, behind, rfl, used, none⟩
    induction before with
    | nil => exact .inl used
    | cons m before ih =>
      obtain ⟨here, others⟩ := List.forall_mem_cons.1 none
      exact .inr ⟨here, ih others⟩

/-- A use in the block itself is a path that leaves no block. -/
theorem LiveOnPath.use (listed : b ∈ f.layout) (used : f.UsesFirst b v) : f.LiveOnPath b v :=
  ⟨[], b, rfl, by simpa using listed, by simp, used, by simp⟩

/-- A path from a successor is one from the block, unless the block computes the value. -/
theorem LiveOnPath.step (listed : b ∈ f.layout) (goes : c ∈ (f.block b).succs)
    (leftAlone : ¬ f.ComputedIn b v) (later : f.LiveOnPath c v) : f.LiveOnPath b v := by
  obtain ⟨passed, last, first, path⟩ := later
  refine ⟨b :: passed, last, rfl, ?_, ?_, path.used, ?_⟩
  · exact List.forall_mem_cons.2 ⟨listed, path.blocks⟩
  · refine List.isChain_cons.2 ⟨fun d next => ?_, path.linked⟩
    have same : some c = some d := first.symm.trans next
    cases same
    exact goes
  · exact List.forall_mem_cons.2 ⟨leftAlone, path.leftAlone⟩

/-- A block with instructions or successors is one of the function's. -/
theorem lt_size_of_block (some : (f.block b).instrs ≠ [] ∨ (f.block b).succs ≠ []) :
    b < f.blocks.size := by
  by_contra outside
  have missing : f.block b = default := by
    simp [block, Array.getD_eq_getD_getElem?, Nat.not_lt.1 outside]
  rw [missing] at some
  rcases some with instrs | succs
  · exact instrs rfl
  · exact succs rfl

/-- Where rounds lead, values are on paths to uses. -/
theorem Reached.liveOnPath (reached : f.Reached live) (member : v ∈ live.getD b []) :
    f.LiveOnPath b v := by
  refine reached.least (P := f.LiveOnPath) (fun b listed v needed => ?_) member
  rcases needs_iff.1 needed with used | ⟨⟨c, goes, later⟩, leftAlone⟩
  · exact .use listed (needs_iff_split.1 used)
  · refine .step listed goes ?_ later
    rintro ⟨n, here, computes⟩
    exact leftAlone n here computes

/-- Where a further round changes nothing, a block has the values of its paths. -/
theorem UsePath.mem (reached : f.Reached live) (stable : f.Sweeps live live)
    {passed : List BlockId} {last : BlockId} (path : f.UsePath v passed last)
    (first : (passed ++ [last]).head? = some b) : v ∈ live.getD b [] := by
  induction passed generalizing b with
  | nil =>
    cases first
    obtain ⟨before, n, behind, whole, -⟩ := path.used
    have inside := lt_size_of_block (f := f) (b := last) (.inl (by simp [whole]))
    exact reached.closed stable inside (path.blocks last (by simp))
      (needs_iff.2 (.inl (needs_iff_split.2 path.used)))
  | cons c passed ih =>
    cases first
    obtain ⟨listed, blocks⟩ := List.forall_mem_cons.1 path.blocks
    obtain ⟨goes, linked⟩ := List.isChain_cons.1 path.linked
    obtain ⟨leftAlone, others⟩ := List.forall_mem_cons.1 path.leftAlone
    -- the block that comes next has the value
    obtain ⟨d, next⟩ : ∃ d, (passed ++ [last]).head? = some d := by
      cases passed with
      | nil => exact ⟨last, rfl⟩
      | cons d passed => exact ⟨d, rfl⟩
    have goes := goes d next
    have later := ih ⟨blocks, linked, path.used, others⟩ next
    have inside := lt_size_of_block (f := f) (b := c) (.inr (List.ne_nil_of_mem goes))
    refine reached.closed stable inside listed
      (needs_iff.2 (.inr ⟨mem_liveOut.2 ⟨d, goes, later⟩, fun n here computes => ?_⟩))
    exact leftAlone ⟨n, here, computes⟩

theorem Reached.mem_iff (reached : f.Reached live) (stable : f.Sweeps live live) :
    v ∈ live.getD b [] ↔ f.LiveOnPath b v := by
  refine ⟨reached.liveOnPath, ?_⟩
  rintro ⟨passed, last, first, path⟩
  exact path.mem reached stable first

/-! ## Runs -/

/-- No more rounds than this change something. -/
def roundBound (f : Func) : Nat := f.blocks.size * f.seedSets.toList.flatten.length

section Runs

variable {run : Nat → LiveSets} (start : run 0 = f.seedSets)
  (rounds : ∀ k, f.Sweeps (run k) (run (k + 1)))

include start rounds

theorem reached_run (k : Nat) : f.Reached (run k) := by
  induction k with
  | zero =>
    rw [start]
    exact .refl
  | succ k ih => exact ih.tail (rounds k)

/-- A run of rounds comes to one that changes nothing. -/
theorem run_ends : ∃ k ≤ f.roundBound, run (k + 1) = run k := by
  by_contra never
  have changed : ∀ k ≤ f.roundBound, run (k + 1) ≠ run k :=
    fun k early same => never ⟨k, early, same⟩
  -- every round makes the sets longer, but they are no longer than the bound
  have longer : ∀ k ≤ f.roundBound + 1, k ≤ (run k).toList.flatten.length := by
    intro k early
    induction k with
    | zero => exact Nat.zero_le _
    | succ k ih =>
      have before := ih (by omega)
      have grows := GoesOn.length_lt (rounds k) (changed k (by omega))
      omega
  have most := longer (f.roundBound + 1) (Nat.le_refl _)
  have bound := (reached_run start rounds (f.roundBound + 1)).within.total_le
  unfold roundBound at most bound
  omega

end Runs

/-- The repetition of rounds stops after some of them. -/
theorem iterateLive_eq (n : Nat) (live : LiveSets) :
    ∃ k ≤ n, f.iterateLive n live = Nat.iterate f.updateBlocks k live := by
  induction n generalizing live with
  | zero => exact ⟨0, Nat.le_refl 0, rfl⟩
  | succ n ih =>
    rw [iterateLive]
    split
    · exact ⟨0, Nat.zero_le _, rfl⟩
    · obtain ⟨k, early, whole⟩ := ih (f.updateBlocks live)
      exact ⟨k + 1, by omega, whole⟩

end Func

/-- The live values of blocks are those of paths. The rounds of `liveIn` come to an end, where a
further one changes nothing, and a value is then in the set of a block just if a path leads from
the block to a use of it. The same holds of every run of rounds through all blocks from the
seeds, in any order of the blocks and of the values of their successors: it comes to a round that
changes nothing, and wherever one changes nothing the sets are those of the paths. -/
theorem live_values_are_those_of_paths (f : Func) :
    ((∃ k ≤ f.roundBound + 1, f.liveIn = Nat.iterate f.updateBlocks k f.seedSets) ∧
      f.updateBlocks f.liveIn = f.liveIn) ∧
    (∀ b v, v ∈ f.liveIn.getD b [] ↔ f.LiveOnPath b v) ∧
    ∀ run : Nat → LiveSets, run 0 = f.seedSets → (∀ k, f.Sweeps (run k) (run (k + 1))) →
      (∃ k ≤ f.roundBound, run (k + 1) = run k) ∧
      ∀ k, run (k + 1) = run k → ∀ b v, v ∈ (run k).getD b [] ↔ f.LiveOnPath b v := by
  refine ⟨⟨f.iterateLive_eq _ _, f.updateBlocks_liveIn⟩, fun b v => ?_,
    fun run start rounds => ⟨?_, ?_⟩⟩
  · exact f.reached_liveIn.mem_iff f.sweeps_liveIn
  · exact Func.run_ends start rounds
  · intro k same b v
    have stable := rounds k
    rw [same] at stable
    exact (Func.reached_run start rounds k).mem_iff stable

/-- The array and the length of a loop over an array are live in all blocks of the loop, also in
one that uses neither. -/
example : ((sums.check.1.lower 1 "sums").toOption.bind (·.functions[0]?)).map
    (fun g => (g.seeds 6, g.liveIn.getD 6 [])) = some ([], [5, 4]) := by decide +kernel

end ImpCompiler
