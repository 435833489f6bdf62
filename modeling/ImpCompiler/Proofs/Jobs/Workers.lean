import ImpCompiler.ErrorLog
import ImpCompiler.Proofs.Jobs
import Mathlib.Data.List.Nodup
import Mathlib.Data.List.Perm.Basic
import Mathlib.Logic.Relation

/-!
# Proofs.Jobs.Workers — workers that share a memory

Every worker has a range of jobs. It starts on them one after the other and writes the
result of each into a cell of its own; what the workers do may happen in any order
(`Pool.Step`). The ranges are consecutive and cover all jobs (`ranges_consecutive`), so in
the end every cell was written once, and the memory does not depend on the order
(`Leaves.cells`).
-/

namespace ImpCompiler.Jobs

set_option autoImplicit false

variable {α ε : Type}

/-! ## Ranges -/

/-- The ranges of workers with the given loads, from `start` on. A range has its start and
not its end. -/
def bounds : Nat → List Nat → List (Nat × Nat)
  | _, [] => []
  | start, k :: ks => (start, start + k) :: bounds (start + k) ks

/-- The ranges of the workers that `threads` threads are for `n` jobs. -/
def ranges (threads : Int) (n : Nat) : List (Nat × Nat) := bounds 0 (loads (workers threads n) n)

def jobsOf (r : Nat × Nat) : List Nat := List.range' r.1 (r.2 - r.1)

/-- Ranges that follow each other, do not overlap, and have every job below `n` in one. -/
structure Consecutive (rs : List (Nat × Nat)) (n : Nat) : Prop where
  follow : ∀ w r s, rs[w]? = some r → rs[w + 1]? = some s → r.2 = s.1
  apart : rs.Pairwise fun r s => r.2 ≤ s.1
  cover : ∀ i < n, ∃! w : Nat, ∃ r : Nat × Nat, rs[w]? = some r ∧ r.1 ≤ i ∧ i < r.2
  inside : ∀ r ∈ rs, r.1 ≤ r.2 ∧ r.2 ≤ n

theorem total_workers_loads (threads : Int) (n : Nat) : total (loads (workers threads n) n) = n := by
  refine total_loads ?_
  unfold workers
  split <;> omega

/-- Every share lies within the cells. -/
theorem mem_bounds {start : Nat} {ks : List Nat} {r : Nat × Nat} (member : r ∈ bounds start ks) :
    start ≤ r.1 ∧ r.1 ≤ r.2 ∧ r.2 ≤ start + total ks := by
  induction ks generalizing start with
  | nil => cases member
  | cons k ks ih =>
    simp only [total, List.foldr_cons] at ih ⊢
    rcases List.mem_cons.1 member with rfl | later
    · exact ⟨Nat.le_refl _, Nat.le_add_right .., by show start + k ≤ _; omega⟩
    · have known := ih later
      omega

theorem bounds_apart (start : Nat) (ks : List Nat) :
    (bounds start ks).Pairwise fun r s => r.2 ≤ s.1 := by
  induction ks generalizing start with
  | nil => exact .nil
  | cons k ks ih => exact .cons (fun s member => (mem_bounds member).1) (ih _)

/-- A share starts where the one before it ends. -/
theorem bounds_follow {start : Nat} {ks : List Nat} {w : Nat} {r s : Nat × Nat}
    (here : (bounds start ks)[w]? = some r) (next : (bounds start ks)[w + 1]? = some s) :
    r.2 = s.1 := by
  induction ks generalizing start w with
  | nil => cases here
  | cons k ks ih =>
    rw [bounds, List.getElem?_cons_succ] at next
    cases w with
    | succ w => exact ih here next
    | zero =>
      cases here
      cases ks with
      | nil => cases next
      | cons l ks =>
        cases next
        rfl

/-- Every cell is in a share. -/
theorem bounds_cover {start i : Nat} {ks : List Nat} (low : start ≤ i) (high : i < start + total ks) :
    ∃ (w : Nat) (r : Nat × Nat), (bounds start ks)[w]? = some r ∧ r.1 ≤ i ∧ i < r.2 := by
  induction ks generalizing start with
  | nil =>
    simp only [total, List.foldr_nil] at high
    omega
  | cons k ks ih =>
    by_cases mine : i < start + k
    · exact ⟨0, _, rfl, low, mine⟩
    · simp only [total, List.foldr_cons] at high ih
      obtain ⟨w, r, known, here⟩ := @ih (start + k) (by omega) (by omega)
      exact ⟨w + 1, r, known, here⟩

/-- The ranges of the workers are consecutive and cover all jobs. -/
theorem ranges_consecutive (threads : Int) (n : Nat) : Consecutive (ranges threads n) n := by
  have all := total_workers_loads threads n
  refine ⟨fun w r s => bounds_follow, bounds_apart 0 _, fun i below => ?_, fun r member => ?_⟩
  · obtain ⟨w, r, known, here⟩ := bounds_cover (Nat.zero_le i)
      (show i < 0 + total (loads (workers threads n) n) by omega)
    refine ⟨w, ⟨r, known, here⟩, ?_⟩
    rintro v ⟨s, known', here'⟩
    have apart : (ranges threads n).Pairwise fun r s => r.2 ≤ s.1 := bounds_apart 0 _
    rw [List.pairwise_iff_getElem] at apart
    obtain ⟨inside, rfl⟩ : ∃ h, (ranges threads n)[w] = r := List.getElem?_eq_some_iff.1 known
    obtain ⟨inside', rfl⟩ := List.getElem?_eq_some_iff.1 known'
    -- Two ranges that have `i` cannot be one before the other.
    rcases Nat.lt_trichotomy v w with less | same | more
    · have order := apart v w inside' inside less
      omega
    · exact same
    · have order := apart w v inside inside' more
      omega
  · have known := mem_bounds member
    omega

theorem bounds_jobs (start : Nat) (ks : List Nat) :
    (bounds start ks).flatMap jobsOf = List.range' start (total ks) := by
  induction ks generalizing start with
  | nil => rfl
  | cons k ks ih =>
    rw [bounds, List.flatMap_cons, ih, jobsOf, Nat.add_sub_cancel_left, List.range'_append_1]
    rfl

theorem ranges_jobs (threads : Int) (n : Nat) :
    (ranges threads n).flatMap jobsOf = List.range n := by
  rw [ranges, bounds_jobs, total_workers_loads, List.range_eq_range']

theorem split_drop (start : Nat) (ks : List Nat) (xs : List α) :
    split ks (xs.drop start) = (bounds start ks).map fun r => (xs.drop r.1).take (r.2 - r.1) := by
  induction ks generalizing start with
  | nil => rfl
  | cons k ks ih => rw [split, List.drop_drop, ih, bounds, List.map_cons, Nat.add_sub_cancel_left]

/-- The share of a worker is what its range has of the jobs. -/
theorem shares_eq_ranges (threads : Int) (xs : List α) :
    shares threads xs =
      (ranges threads xs.length).map fun r => (xs.drop r.1).take (r.2 - r.1) :=
  split_drop 0 _ xs

/-! ## Steps of the workers -/

inductive Event where
  | start (i : Nat)
  | finish (i : Nat)
  deriving DecidableEq

/-- What the workers share: a cell for each job, the jobs in the order they were started
in, and the reasons to stop in the order they came up. -/
structure Memory (α ε : Type) where
  cells : List α
  started : List Nat
  log : ErrorLog ε

/-- The memory behind an event. Job `i` goes by its cell only. -/
def Memory.perform (job : Nat → α → α × Option ε) (mem : Memory α ε) : Event → Memory α ε
  | .start i => { mem with started := mem.started ++ [i] }
  | .finish i =>
    match mem.cells[i]? with
    | none => mem
    | some x =>
      { mem with cells := mem.cells.set i (job i x).1, log := mem.log.append (job i x).2 }

namespace Memory

variable (job : Nat → α → α × Option ε) (mem : Memory α ε)

/-- A job that ends writes its own cell only. -/
theorem perform_finish_cells (i j : Nat) :
    (mem.perform job (.finish j)).cells[i]? =
      if i = j then mem.cells[j]?.map fun x => (job j x).1 else mem.cells[i]? := by
  simp only [perform]
  split
  · rename_i unknown
    by_cases same : i = j <;> simp [same, unknown]
  · rename_i x known
    have inside : j < mem.cells.length := (List.getElem?_eq_some_iff.1 known).1
    by_cases same : i = j
    · simp only [same, List.getElem?_set_self inside, known, if_pos, Option.map_some]
    · simp only [List.getElem?_set_ne (Ne.symm same), if_neg same]

theorem perform_finish_started (j : Nat) :
    (mem.perform job (.finish j)).started = mem.started := by
  unfold perform
  dsimp only
  split <;> rfl

theorem perform_finish_log {j : Nat} (fine : ∀ x, mem.cells[j]? = some x → (job j x).2 = none) :
    (mem.perform job (.finish j)).log = mem.log := by
  unfold perform
  dsimp only
  split
  · rfl
  · rename_i x known
    show mem.log.append (job j x).2 = mem.log
    rw [fine x known]
    rfl

end Memory

/-- What each worker still has to do, and the memory. -/
structure Pool (α ε : Type) where
  todo : List (List Event)
  memory : Memory α ε

namespace Pool

def start (threads : Int) (cells : List α) : Pool α ε :=
  ⟨(ranges threads cells.length).map fun r => (jobsOf r).flatMap fun i => [.start i, .finish i],
    ⟨cells, [], ErrorLog.empty⟩⟩

/-- One of the workers does what comes next for it. -/
inductive Step (job : Nat → α → α × Option ε) : Pool α ε → Pool α ε → Prop
  | act {pool : Pool α ε} {w : Nat} {e : Event} {rest : List Event} :
      pool.todo[w]? = some (e :: rest) →
      Step job pool ⟨pool.todo.set w rest, pool.memory.perform job e⟩

/-- Everything that is left to do, worker by worker. -/
def left (pool : Pool α ε) : List Event := pool.todo.flatten

end Pool

/-- The memory that workers may leave behind, in some order of their steps. -/
def Leaves (threads : Int) (job : Nat → α → α × Option ε) (cells : List α) (mem : Memory α ε) :
    Prop :=
  ∃ pool, Relation.ReflTransGen (Pool.Step job) (Pool.start threads cells) pool ∧
    pool.left = [] ∧ pool.memory = mem

/-- An event that is performed is the only one that is no longer to be done. -/
theorem flatten_set_perm {todo : List (List Event)} {w : Nat} {e : Event} {rest : List Event}
    (next : todo[w]? = some (e :: rest)) : todo.flatten.Perm (e :: (todo.set w rest).flatten) := by
  induction todo generalizing w with
  | nil => cases next
  | cons l todo ih =>
    cases w with
    | zero =>
      cases next
      exact .refl _
    | succ w =>
      rw [List.flatten_cons, List.set_cons_succ, List.flatten_cons]
      exact ((ih next).append_left l).trans List.perm_middle

def Event.started? : Event → Option Nat
  | .start i => some i
  | .finish _ => none

namespace Pool

variable {job : Nat → α → α × Option ε} {cells : List α} {pool pool' : Pool α ε}

/-- Every event is still to come or was performed once: a cell has its old content as long
as its job is not finished, and then the result. -/
structure Inv (job : Nat → α → α × Option ε) (cells : List α) (pool : Pool α ε) : Prop where
  once : pool.left.Nodup
  content : ∀ i, pool.memory.cells[i]? =
    cells[i]?.map fun x => if .finish i ∈ pool.left then x else (job i x).1
  log : pool.memory.log = ErrorLog.empty
  started : (pool.memory.started ++ pool.left.filterMap Event.started?).Perm (List.range cells.length)

theorem start_left (threads : Int) (cells : List α) :
    (start threads cells : Pool α ε).left =
      (List.range cells.length).flatMap fun i => [.start i, .finish i] := by
  rw [left, start, ← List.flatMap_def, ← List.flatMap_assoc, ranges_jobs]

/-- Nothing is done at the start, and everything is to be done. -/
theorem Inv.start (threads : Int) (job : Nat → α → α × Option ε) (cells : List α) :
    Inv job cells (start threads cells) := by
  refine ⟨?_, fun i => ?_, rfl, ?_⟩
  · rw [start_left, List.nodup_flatMap]
    refine ⟨fun i _ => by simp, List.nodup_range.imp fun {i j} other => ?_⟩
    simp [List.Disjoint, other, other.symm]
  · show cells[i]? = _
    cases known : cells[i]? with
    | none => rfl
    | some x =>
      have inside : i < cells.length := (List.getElem?_eq_some_iff.1 known).1
      have member : Event.finish i ∈ (Pool.start threads cells : Pool α ε).left := by
        rw [start_left]
        simpa using inside
      simp [member]
  · rw [start_left]
    show List.Perm ([] ++ _) _
    rw [List.nil_append, List.filterMap_flatMap, List.flatMap_congr fun i _ =>
      show [Event.start i, .finish i].filterMap Event.started? = [i] from rfl,
      List.flatMap_singleton']

/-- A step keeps the invariant, if no job stops. -/
theorem Inv.step (inv : Inv job cells pool) (fine : ∀ i x, cells[i]? = some x → (job i x).2 = none)
    (step : Step job pool pool') : Inv job cells pool' := by
  obtain @⟨w, e, rest, next⟩ := step
  have perm : pool.left.Perm (e :: (pool.todo.set w rest).flatten) := flatten_set_perm next
  obtain ⟨gone, once⟩ := List.nodup_cons.1 (perm.nodup_iff.1 inv.once)
  have member : ∀ a, a ∈ pool.left ↔ a = e ∨ a ∈ (pool.todo.set w rest).flatten := fun a => by
    rw [perm.mem_iff, List.mem_cons]
  have started := ((perm.filterMap Event.started?).append_left _).symm.trans inv.started
  cases e with
  | start j =>
    refine ⟨once, fun i => ?_, inv.log, ?_⟩
    · show pool.memory.cells[i]? = _
      rw [inv.content]
      simp only [member, reduceCtorEq, false_or]
      rfl
    · show ((pool.memory.started ++ [j]) ++ _).Perm _
      rw [List.append_assoc]
      exact started
  | finish j =>
    have before : pool.memory.cells[j]? = cells[j]? := by
      rw [inv.content]
      simp only [member, true_or, if_true, Option.map_id']
    refine ⟨once, fun i => ?_, ?_, ?_⟩
    · rw [Memory.perform_finish_cells]
      by_cases same : i = j
      · subst same
        simp only [if_true, before, left, gone, if_false]
      · simp only [inv.content, member, Event.finish.injEq, same, false_or, if_false]
        rfl
    · rw [Memory.perform_finish_log job _ fun x known => fine j x (before ▸ known), inv.log]
    · rw [Memory.perform_finish_started]
      exact started

/-- Every order of steps keeps the invariant, if no job stops. -/
theorem Inv.reaches (fine : ∀ i x, cells[i]? = some x → (job i x).2 = none)
    (ran : Relation.ReflTransGen (Step job) pool pool') (inv : Inv job cells pool) :
    Inv job cells pool' := by
  induction ran with
  | refl => exact inv
  | tail _ step ih => exact ih.step fine step

/-- Something is next for some worker as long as anything is left to do. -/
theorem exists_step (job : Nat → α → α × Option ε) (more : pool.left ≠ []) :
    ∃ pool', Step job pool pool' ∧ pool'.left.length < pool.left.length := by
  rw [left, Ne, List.flatten_eq_nil_iff] at more
  push Not at more
  obtain ⟨l, member, some⟩ := more
  obtain ⟨w, known⟩ := List.mem_iff_getElem?.1 member
  obtain ⟨e, rest, rfl⟩ := List.exists_cons_of_ne_nil some
  exact ⟨_, .act known, by simp [left, (flatten_set_perm known).length_eq]⟩

/-- Workers that go on step by step get to the end of their work. -/
theorem exists_end (job : Nat → α → α × Option ε) (pool : Pool α ε) :
    ∃ pool', Relation.ReflTransGen (Step job) pool pool' ∧ pool'.left = [] := by
  by_cases more : pool.left = []
  · exact ⟨pool, .refl, more⟩
  · obtain ⟨next, step, less⟩ := exists_step job more
    obtain ⟨last, ran, done⟩ := exists_end job next
    exact ⟨last, .head step ran, done⟩
termination_by pool.left.length

end Pool

/-! ## What the workers leave -/

variable {threads : Int} {job : Nat → α → α × Option ε} {cells : List α} {mem : Memory α ε}

theorem exists_leaves (threads : Int) (job : Nat → α → α × Option ε) (cells : List α) :
    ∃ mem, Leaves threads job cells mem := by
  obtain ⟨last, ran, done⟩ := Pool.exists_end job (Pool.start threads cells)
  exact ⟨last.memory, last, ran, done, rfl⟩

/-- Whatever the order of the steps, jobs that do not stop leave every result in its place,
report nothing and are started once each. -/
theorem Leaves.results (leaves : Leaves threads job cells mem)
    (fine : ∀ i x, cells[i]? = some x → (job i x).2 = none) :
    (mem.cells = cells.mapIdx fun i x => (job i x).1) ∧ mem.log = ErrorLog.empty ∧
      mem.started.Perm (List.range cells.length) := by
  obtain ⟨last, ran, done, rfl⟩ := leaves
  have inv := (Pool.Inv.start threads job cells).reaches fine ran
  refine ⟨List.ext_getElem? fun i => ?_, inv.log, ?_⟩
  · rw [inv.content, List.getElem?_mapIdx]
    simp only [done, List.not_mem_nil, if_false]
  · have started := inv.started
    rwa [done, List.filterMap_nil, List.append_nil] at started

end ImpCompiler.Jobs
