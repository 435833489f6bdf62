import ImpCompiler.Jobs
import Mathlib.Tactic.Common

/-!
# Proofs.Jobs — sharing work does not change its results

However many workers there are, their shares put together are the jobs in their order.
So the results do not depend on the number of threads, as long as no job stops (`run_eq`).
-/

namespace ImpCompiler.Jobs

set_option autoImplicit false

variable {α β ε : Type}

def total (ks : List Nat) : Nat := ks.foldr (· + ·) 0

theorem total_append (ks ls : List Nat) : total (ks ++ ls) = total ks + total ls := by
  induction ks with
  | nil => simp [total]
  | cons k ks ih =>
    simp only [total, List.cons_append, List.foldr_cons] at ih ⊢
    omega

theorem split_flatten {ks : List Nat} {xs : List α} (all : total ks = xs.length) :
    (split ks xs).flatten = xs := by
  induction ks generalizing xs with
  | nil => simpa [split, total, eq_comm] using all
  | cons k ks ih =>
    simp only [total, List.foldr_cons] at all ih
    rw [split, List.flatten_cons, ih (by simp; omega), List.take_append_drop]

/-- Shares that differ by one add up to all jobs. -/
theorem total_range (q r w : Nat) :
    total ((List.range w).map fun i => q + if i < r then 1 else 0) = w * q + min r w := by
  induction w with
  | zero => simp [total]
  | succ w ih =>
    rw [List.range_succ, List.map_append, total_append, ih, Nat.succ_mul]
    simp only [total, List.map_cons, List.map_nil, List.foldr_cons, List.foldr_nil]
    split <;> omega

theorem total_loads {w n : Nat} (some : 0 < w ∨ n = 0) : total (loads w n) = n := by
  rw [loads, total_range]
  rcases some with positive | rfl
  · rw [Nat.min_eq_left (Nat.le_of_lt (Nat.mod_lt n positive)), Nat.div_add_mod]
  · simp

/-- The shares put together are the jobs. -/
theorem shares_flatten (threads : Int) (xs : List α) : (shares threads xs).flatten = xs := by
  refine split_flatten (total_loads ?_)
  unfold workers
  split <;> omega

theorem map_eq (threads : Int) (job : α → β) (xs : List α) : map threads job xs = xs.map job := by
  rw [map, List.flatMap_def, ← List.map_flatten, shares_flatten]

/-- A share without failures is run to its end. -/
theorem runShare_eq {job : α → α × Option ε} {xs : List α} (fine : ∀ x ∈ xs, (job x).2 = none) :
    runShare job xs = (xs.map fun x => (job x).1, none) := by
  induction xs with
  | nil => rfl
  | cons x xs ih =>
    have here : job x = ((job x).1, none) := by rw [← fine x (by simp)]
    rw [runShare, here, ih fun y member => fine y (by simp [member])]
    rfl

/-- Jobs that do not stop are all done. -/
theorem run_eq (threads : Int) {job : α → α × Option ε} {xs : List α}
    (fine : ∀ x ∈ xs, (job x).2 = none) :
    run threads job xs = (xs.map fun x => (job x).1, none) := by
  have each : (shares threads xs).map (runShare job) =
      (shares threads xs).map fun share => (share.map fun x => (job x).1, none) := by
    refine List.map_congr_left fun share member => runShare_eq fun x inside => fine x ?_
    rw [← shares_flatten threads xs]
    exact List.mem_flatten_of_mem member inside
  rw [run, each]
  congr 1
  · rw [List.flatMap_map, List.flatMap_def, ← List.map_flatten, shares_flatten]
  · simp [List.findSome?_map, Function.comp_def]

end ImpCompiler.Jobs
