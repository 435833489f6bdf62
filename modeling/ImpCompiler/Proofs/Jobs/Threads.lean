import ImpCompiler.Proofs.Jobs.Workers
import ImpCompiler.Proofs.Machine.Allocation
import ImpCompiler.Proofs.Tree.Fold

/-!
# Proofs.Jobs.Threads — the number of threads and the order of steps change nothing

The functions of a program are folded, lowered and allocated by workers, each one a job. The
workers change the functions in place (`Fold.job`), or put what they made of function `i`
into cell `i` (`Lower.job`, `Module.allocateJob`). Whatever the number of threads and the
order of the workers' steps, the outcome is that of one thread
(`threads_change_nothing`).
-/

namespace ImpCompiler

set_option autoImplicit false

open Typing

namespace Jobs

variable {α ε : Type}

theorem mapIdx_of_const {β : Type} (f : α → β) (xs : List α) :
    xs.mapIdx (fun _ x => f x) = xs.map f :=
  List.ext_getElem? fun i => by rw [List.getElem?_mapIdx, List.getElem?_map]

/-- Workers get to the end of their work, and in every order of their steps the memory they
leave is as told. -/
def Ends (threads : Int) (job : Nat → α → α × Option ε) (cells : List α)
    (told : Memory α ε → Prop) : Prop :=
  (∃ mem, Leaves threads job cells mem) ∧ ∀ mem, Leaves threads job cells mem → told mem

theorem ends {threads : Int} {job : Nat → α → α × Option ε} {cells : List α}
    {told : Memory α ε → Prop} (fine : ∀ i x, cells[i]? = some x → (job i x).2 = none)
    (holds : ∀ started : List Nat, started.Perm (List.range cells.length) →
      told ⟨cells.mapIdx fun i x => (job i x).1, started, ErrorLog.empty⟩) :
    Ends threads job cells told := by
  refine ⟨exists_leaves threads job cells, fun mem leaves => ?_⟩
  obtain ⟨results, log, started⟩ := leaves.results fine
  obtain ⟨cells', started', log'⟩ := mem
  cases results
  cases log
  exact holds started' started

end Jobs

/-! ## What the workers do in each phase -/

/-- A worker folds a function in its place. -/
def Fold.job (_ : Nat) (f : FuncDef) : FuncDef × Option Expr :=
  ((Fold.function f).tree, (Fold.function f).stop)

/-- A worker puts function `i` lowered into its cell, unless it cannot be. -/
def Lower.job (p : Program) (i : Nat) (cell : Option Func) : Option Func × Option LowerStop :=
  match p.functions[i]?.map Lower.function with
  | some (.ok g) => (some g, none)
  | some (.error stop) => (cell, some stop)
  | none => (cell, none)

/-- The module of the cells, if no worker reported anything. -/
def Lower.outcome (path : Text) (mem : Jobs.Memory (Option Func) LowerStop) :
    Except LowerStop Module :=
  match mem.log.first? with
  | some stop => .error stop
  | none => .ok { Module.empty path.baseName with functions := mem.cells.filterMap id }

/-- The module with its functions in the cells, and what was done to them if no worker
reported anything. -/
def Module.outcome (m : Module) (mem : Jobs.Memory (Func × Option AllocStats) AllocError) :
    Module × Except AllocError (List AllocStats) :=
  ({ m with functions := mem.cells.map Prod.fst },
    match mem.log.first? with
    | some e => .error e
    | none => .ok (mem.cells.filterMap Prod.snd))

/-! ## The outcome of each phase -/

theorem Program.folds {σ : Signatures} {p : Program} (fits : ∀ f ∈ p.functions, FitsFunction σ f)
    (threads : Int) :
    Jobs.Ends threads Fold.job p.functions fun mem =>
      mem.log = ErrorLog.empty ∧ ⟨mem.cells⟩ = (p.fold 1).tree := by
  refine Jobs.ends (fun i f known => ?_) fun started _ => ⟨rfl, ?_⟩
  · exact (Fold.function_sound (fits f (List.mem_of_getElem? known))).1
  · rw [fold_eq fits]
    exact congrArg Program.mk (Jobs.mapIdx_of_const (fun f => (Fold.function f).tree) p.functions)

theorem Lower.lowered_map {fs : List FuncDef} {gs : List Func}
    (all : List.Forall₂ (fun f g => Lower.function f = .ok g) fs gs) :
    stops (fs.map fun f => (f.name, Lower.function f)) = [] ∧
      lowered (fs.map fun f => (f.name, Lower.function f)) = gs := by
  induction all with
  | nil => exact ⟨rfl, rfl⟩
  | cons ran _ ih =>
    rw [List.map_cons, ran, stops, lowered, ih.1, ih.2]
    exact ⟨rfl, rfl⟩

section Lowering

variable {p : Program} {gs : List Func}
  (all : List.Forall₂ (fun f g => Lower.function f = .ok g) p.functions gs)

include all

theorem Program.lower_eq (threads : Int) (path : Text) :
    p.lower threads path = .ok { Module.empty path.baseName with functions := gs } := by
  obtain ⟨none, some⟩ := Lower.lowered_map all
  simp only [Program.lower, Jobs.map_eq, none, some]

/-- A job fills its own cell, whatever was in it. -/
theorem Lower.job_eq {i : Nat} {g : Func} (known : gs[i]? = some g) (cell : Option Func) :
    Lower.job p i cell = (some g, none) := by
  obtain ⟨same, each⟩ := List.forall₂_iff_get.1 all
  obtain ⟨inside, rfl⟩ := List.getElem?_eq_some_iff.1 known
  have ran := each i (same ▸ inside) inside
  simp only [List.get_eq_getElem] at ran
  simp only [Lower.job, List.getElem?_eq_getElem (same ▸ inside : i < p.functions.length),
    Option.map_some, ran]

theorem Lower.cells_eq :
    ((List.replicate p.functions.length none).mapIdx fun i cell => (Lower.job p i cell).1) =
      gs.map some := by
  refine List.ext_getElem? fun i => ?_
  rw [List.getElem?_mapIdx, List.getElem?_map, all.length_eq, List.getElem?_replicate]
  cases known : gs[i]? with
  | none => simp [List.getElem?_eq_none_iff.1 known]
  | some g =>
    have inside : i < gs.length := (List.getElem?_eq_some_iff.1 known).1
    simp [inside, Lower.job_eq all known]

/-- However the workers take turns, the module is the same. -/
theorem Program.lowers (threads : Int) (path : Text) :
    Jobs.Ends threads (Lower.job p) (List.replicate p.functions.length none) fun mem =>
      mem.started.Perm (List.range p.functions.length) ∧
      Lower.outcome path mem = .ok { Module.empty path.baseName with functions := gs } := by
  refine Jobs.ends (fun i cell known => ?_) fun started order => ⟨?_, ?_⟩
  · have inside : i < gs.length := by
      rw [← all.length_eq]
      simpa using (List.getElem?_eq_some_iff.1 known).1
    rw [Lower.job_eq all (List.getElem?_eq_getElem inside)]
  · simpa using order
  · rw [Lower.cells_eq all]
    show Except.ok { Module.empty path.baseName with functions := (gs.map some).filterMap id } = _
    rw [List.filterMap_map]
    simp

end Lowering

section Allocation

variable {m : Module} {arch : Arch}
  (fine : ∀ f ∈ m.functions, ∃ g stats, f.allocate arch.registers = (g, .ok stats))

include fine

theorem Module.allocateJob_ok {x : Func × Option AllocStats}
    (member : x ∈ m.functions.map fun f => (f, none)) : (allocateJob arch x).2 = none := by
  obtain ⟨f, inside, rfl⟩ := List.mem_map.1 member
  obtain ⟨g, stats, ran⟩ := fine f inside
  simp only [allocateJob, ran]

theorem Module.allocate_eq (threads : Int) :
    m.allocate threads arch = m.outcome ⟨(m.functions.map fun f => (f, none)).map fun x =>
      (allocateJob arch x).1, [], ErrorLog.empty⟩ := by
  rw [Module.allocate, Jobs.run_eq threads fun x => allocateJob_ok fine]
  rfl

theorem Module.allocates (threads : Int) :
    Jobs.Ends threads (fun _ => allocateJob arch) (m.functions.map fun f => (f, none)) fun mem =>
      m.outcome mem = m.allocate 1 arch := by
  refine Jobs.ends (fun i x known => allocateJob_ok fine (List.mem_of_getElem? known)) ?_
  intro started _
  rw [allocate_eq fine, Jobs.mapIdx_of_const fun x => (allocateJob arch x).1]
  rfl

end Allocation

/-- The number of threads and the order of the workers' steps change nothing. The shares of
workers are ranges of jobs that follow each other, do not overlap and have every job in one.
Workers always get to the end, and in every order of their steps a checked program is folded
to the same tree, a program whose functions can be lowered is lowered to the same module
with its functions in the order of the program, and a module whose functions can be allocated
has its values in the same places, with the same figures, as with one thread. -/
theorem threads_change_nothing (threads : Int) :
    (∀ (α : Type) (jobs : List α), Jobs.Consecutive (Jobs.ranges threads jobs.length) jobs.length ∧
      Jobs.shares threads jobs =
        (Jobs.ranges threads jobs.length).map fun r => (jobs.drop r.1).take (r.2 - r.1)) ∧
    (∀ p q : Program, p.check = (q, none) → q.fold threads = q.fold 1 ∧
      Jobs.Ends threads Fold.job q.functions fun mem =>
        mem.log = ErrorLog.empty ∧ ⟨mem.cells⟩ = (q.fold 1).tree) ∧
    (∀ (p : Program) (path : Text), (∀ f ∈ p.functions, ∃ g, Lower.function f = .ok g) →
      ∃ m, p.lower 1 path = .ok m ∧ p.lower threads path = .ok m ∧
        List.Forall₂ (fun f g => Lower.function f = .ok g) p.functions m.functions ∧
        Jobs.Ends threads (Lower.job p) (List.replicate p.functions.length none) fun mem =>
          mem.started.Perm (List.range p.functions.length) ∧ Lower.outcome path mem = .ok m) ∧
    ∀ (m : Module) (arch : Arch),
      (∀ f ∈ m.functions, ∃ g stats, f.allocate arch.registers = (g, .ok stats)) →
      ∃ m' stats, m.allocate 1 arch = (m', .ok stats) ∧ m.allocate threads arch = (m', .ok stats) ∧
        Jobs.Ends threads (fun _ => Module.allocateJob arch) (m.functions.map fun f => (f, none))
          fun mem => m.outcome mem = (m', .ok stats) := by
  refine ⟨fun α jobs => ⟨Jobs.ranges_consecutive threads _, Jobs.shares_eq_ranges threads jobs⟩,
    fun p q checked => ?_, fun p path fine => ?_, fun m arch fine => ?_⟩
  · have admits := Program.check_admits (show p.check.2 = none by rw [checked])
    rw [checked] at admits
    have fits : ∀ f ∈ q.functions, FitsFunction p.signatures f :=
      fun f member => (admits.functions f member).fits
    exact ⟨by rw [Program.fold_eq fits, Program.fold_eq fits], Program.folds fits threads⟩
  · obtain ⟨m, lowered⟩ := Program.exists_lower fine 1 path
    have all := Program.lower_ok lowered
    exact ⟨_, Program.lower_eq all 1 path, Program.lower_eq all threads path, all,
      Program.lowers all threads path⟩
  · have ends := Module.allocates fine threads
    rw [Module.allocate_eq fine] at ends
    exact ⟨_, _, Module.allocate_eq fine 1, Module.allocate_eq fine threads, ends⟩

/-- The two functions of `sums` with three threads: both are folded, lowered and allocated as
with one thread, and in every order of the steps they are lowered to one module. -/
theorem sums_with_three_threads : Jobs.ranges 3 2 = [(0, 1), (1, 2)] ∧ ∃ q m m' stats,
    sums.check = (q, none) ∧ q.functions.length = 2 ∧ q.fold 3 = q.fold 1 ∧
    q.lower 3 "sums" = .ok m ∧ q.lower 1 "sums" = .ok m ∧
    (Jobs.Ends 3 (Lower.job q) [none, none] fun mem => Lower.outcome "sums" mem = .ok m) ∧
    m.allocate 3 .riscv64 = (m', .ok stats) ∧ m.allocate 1 .riscv64 = (m', .ok stats) := by
  have checked : sums.check.2 = none := Option.isNone_iff_eq_none.1 (by decide +kernel)
  have full : ∀ t ∈ sums.types, ¬ t.IsVoidArray := by decide +kernel
  have two : sums.check.1.functions.length = 2 := by decide +kernel
  have same : sums.check = (sums.check.1, none) := Prod.ext rfl checked
  obtain ⟨m₁, lowered₁⟩ :=
    Program.lower_total checked (Program.parse_plain sums_parsed full) 1 "sums"
  obtain ⟨-, folds, lowers, allocates⟩ := threads_change_nothing 3
  obtain ⟨m, lowered, lowered', -, ends⟩ := lowers sums.check.1 "sums" fun f member =>
    (exists_of_forall₂ (Program.lower_ok lowered₁) member).imp fun _ known => known.2
  obtain ⟨m', stats, allocated, allocated', -⟩ := allocates m .riscv64 fun g member => by
    obtain ⟨source, -, ran⟩ := Program.lower_mem lowered member
    obtain ⟨F, A, trims, -, guarded⟩ := Lower.function_guarded ran
    obtain ⟨g', stats, allocated, -⟩ := guarded.allocate trims.formed (Arch.registers_classed .riscv64)
    exact ⟨g', stats, allocated⟩
  rw [two] at ends
  exact ⟨by decide, _, m, m', stats, same, two, (folds _ _ same).1, lowered', lowered,
    ⟨ends.1, fun mem leaves => (ends.2 mem leaves).2⟩, allocated', allocated⟩

end ImpCompiler
