import ImpCompiler.Proofs.Live.Ranges
import ImpCompiler.Proofs.Lower.Programs
import ImpCompiler.Proofs.Lower.Slots
import ImpCompiler.Proofs.Machine.LinearScan

/-!
# Proofs.Machine.Allocation — every value gets a place

Allocation succeeds on functions in which values are computed before they are used
(`Func.Guarded.allocate`). What it changes are the numbers and places of instructions. Every
value has a place then, and what an instruction writes is not the place of another value
that is needed behind it (`Func.Placed`). The functions of modules are such, so a program that
passes the check is compiled for both machines, unless it has arrays of void.
-/

namespace ImpCompiler

set_option autoImplicit false

namespace Func

variable {f g : Func} {A : Nat → Fact → Prop} {iv : Intervals} {S : Value → Int → Prop}

def placeOf (g : Func) (n : Nat) : Option Cell := g.arena[n]?.bind fun i => i.loc.cell?

/-- The values of `f` have places in `g`: none is written to while another value in it is
needed. -/
structure Placed (f g : Func) : Prop where
  annotates : f.Annotates g
  place : ∀ {n i}, n ∈ f.instrs → f.arena[n]? = some i → i.hasValue = true →
    ∃ k, g.placeOf n = some k
  apart : ∀ {b n m i before rest}, b ∈ f.layout → (f.block b).instrs = before ++ n :: rest →
    f.arena[n]? = some i → i.hasValue = true →
    f.Needs (· ∈ f.liveOut f.liveIn b) rest ((m : Nat) : Value) → g.placeOf m = g.placeOf n → m = n

/-! ## Joining copies -/

/-- What joining two classes keeps is kept when copies are joined with their sources. -/
theorem coalesce_keeps {P : Intervals → Prop}
    {code : List (Nat × Instr)} {k : Nat} {iv' : Intervals}
    (join : ∀ {iv n i a more}, (n, i) ∈ code → i.args = a :: more → P iv →
      P (iv.join a n fun a b => f.classOf a == f.classOf b).2)
    (ran : f.coalesce iv code = .ok (k, iv')) (holds : P iv) : P iv' := by
  induction code generalizing iv k with
  | nil =>
    cases ran
    exact holds
  | cons p rest ih =>
    obtain ⟨n, i⟩ := p
    have later : ∀ {iv k}, f.coalesce iv rest = .ok (k, iv') → P iv → P iv' := fun ran =>
      ih (fun member => join (List.mem_cons_of_mem _ member)) ran
    rw [coalesce] at ran
    split at ran
    · split at ran
      · cases ran
      · rename_i source more args
        cases next : f.coalesce (iv.join source n fun a b => f.classOf a == f.classOf b).2 rest with
        | error e =>
          simp [bind, Except.bind, next] at ran
        | ok p =>
          simp only [bind, Except.bind, next] at ran
          cases ran
          exact later next (join (List.mem_cons_self ..) args holds)
    · exact later ran holds

/-- Copies are joined with their sources, if they have one. -/
theorem coalesce_ok (f : Func) (iv : Intervals) (code : List (Nat × Instr))
    (sources : ∀ p ∈ code, p.2.op = .copy → p.2.args ≠ []) :
    ∃ k iv', f.coalesce iv code = .ok (k, iv') := by
  induction code generalizing iv with
  | nil => exact ⟨0, iv, rfl⟩
  | cons p rest ih =>
    obtain ⟨n, i⟩ := p
    have others := fun q member => sources q (List.mem_cons_of_mem _ member)
    rw [coalesce]
    split
    · rename_i copy
      cases args : i.args with
      | nil => exact absurd args (sources (n, i) (by simp) copy)
      | cons source more =>
        obtain ⟨k, iv', ran⟩ := ih (iv.join source n fun a b => f.classOf a == f.classOf b).2 others
        dsimp only
        rw [ran]
        exact ⟨_, iv', rfl⟩
    · exact ih iv others

/-! ## Writing places into instructions -/

theorem setPlaces_arena (iv : Intervals) (s : Scan) (n : Nat) :
    (f.setPlaces iv s).arena[n]? = f.arena[n]?.map fun i =>
      if i.hasValue && f.instrs.contains n then
        match place? iv s n with
        | some loc => { i with loc }
        | none => i
      else i :=
  Array.getElem?_mapIdx

theorem annotates_setPlaces (f : Func) (iv : Intervals) (s : Scan) : f.Annotates (f.setPlaces iv s) where
  name := rfl
  blocks := rfl
  layout := rfl
  arena n := by
    rw [setPlaces_arena]
    refine Instr.rel_map_like (fun i => ?_) _
    split
    · split <;> exact ⟨rfl, rfl⟩
    · exact ⟨rfl, rfl⟩

/-- An instruction has the place of its value. -/
theorem placeOf_setPlaces {s : Scan} {n : Nat} {i : Instr} (member : n ∈ f.instrs)
    (known : f.arena[n]? = some i) (value : i.hasValue = true) {k : Cell}
    (placed : cell? iv s n = some k) : (f.setPlaces iv s).placeOf n = some k := by
  obtain ⟨loc, look, cell⟩ := Option.bind_eq_some_iff.1 placed
  have found : place? iv s n = some loc := look
  have inside : f.instrs.contains n = true := by simpa using member
  rw [placeOf, setPlaces_arena, known, Option.map_some, value, inside, found]
  exact cell

/-! ## Functions -/

/-- A function is allocated if its copies can be joined and its values have places then. -/
theorem allocateWith_ok (file : RegisterFile) {k : Nat} {iv' : Intervals}
    (joined : f.coalesce iv f.code = .ok (k, iv'))
    (placed : ∀ {n : Nat} {i : Instr}, n ∈ f.instrs → f.arena[n]? = some i → i.hasValue = true →
      ∃ c, cell? iv' (f.scan file iv') n = some c) :
    ∃ stats, f.allocateWith file iv = .ok (f.setPlaces iv' (f.scan file iv'), stats) := by
  have all : ((f.code.filter fun p => p.2.hasValue).find? fun p =>
      (place? iv' (f.scan file iv') p.1).isNone) = none := by
    rw [List.find?_eq_none]
    rintro ⟨n, i⟩ member
    obtain ⟨inside, value⟩ := List.mem_filter.1 member
    obtain ⟨inside, known⟩ := mem_code.1 inside
    obtain ⟨c, cell⟩ := placed inside known value
    obtain ⟨loc, look, -⟩ := Option.bind_eq_some_iff.1 cell
    simp [place?, look]
  simp only [allocateWith, joined, bind, Except.bind, all]
  exact ⟨_, rfl⟩

section Dominated

variable (dominated : f.Dominated) (formed : f.Formed) (numbered : f.Numbered)

include dominated formed numbered

/-- The places of a scan suffice. -/
theorem Dominated.placed {file : RegisterFile} (classed : file.Classed) (sound : iv.Sound f.LiveAt) :
    f.Placed (f.setPlaces iv (f.scan file iv)) := by
  have place : ∀ {n : Nat} {i : Instr}, n ∈ f.instrs → f.arena[n]? = some i → i.hasValue = true →
      ∃ k, cell? iv (f.scan file iv) n = some k ∧
        (f.setPlaces iv (f.scan file iv)).placeOf n = some k := by
    intro n i member known value
    obtain ⟨k, placed⟩ := f.scan_placed classed sound
      (dominated.liveAt_own formed numbered member known value)
    exact ⟨k, placed, placeOf_setPlaces member known value placed⟩
  refine ⟨f.annotates_setPlaces _ _, fun member known value => ?_,
    fun {b n m i before rest} listed whole known value needed same => ?_⟩
  · obtain ⟨k, -, placed⟩ := place member known value
    exact ⟨k, placed⟩
  · have member : n ∈ f.instrs := List.mem_flatMap.2 ⟨b, listed, by simp [whole]⟩
    -- a value that is needed is one of the function
    obtain ⟨j, known', value', member'⟩ :
        ∃ j, f.arena[m]? = some j ∧ j.hasValue = true ∧ m ∈ f.instrs := by
      obtain ⟨m', computes, there⟩ := dominated.needed formed listed
        (show _ = (before ++ [n]) ++ rest by simp [whole]) (dominated.liveOut formed listed) needed
      obtain rfl : m = m' := Int.ofNat.inj computes.1
      obtain ⟨j, known', value'⟩ := (Option.any_eq_true _ _).1 computes.2
      refine ⟨j, known', value', ?_⟩
      rcases there with outside | inside
      · exact outside.mem_instrs formed listed
      · refine List.mem_flatMap.2 ⟨b, listed, ?_⟩
        rw [whole, List.append_cons]
        exact List.mem_append_left _ inside
    obtain ⟨k, cell, placed⟩ := place member known value
    obtain ⟨k', cell', placed'⟩ := place member' known' value'
    rw [placed, placed'] at same
    have equal : ((m : Nat) : Value) = ((n : Nat) : Value) :=
      f.scan_apart classed sound (dominated.liveAt_needed formed numbered listed whole needed)
        (dominated.liveAt_own formed numbered member known value) (by rw [cell, cell', same])
    exact Int.ofNat.inj equal

/-- Every value of the function has a place. -/
theorem Dominated.allocateWith {file : RegisterFile} (classed : file.Classed) (sound : iv.Sound f.LiveAt) :
    ∃ g stats, f.allocateWith file iv = .ok (g, stats) ∧ f.Placed g := by
  obtain ⟨k, iv', joined⟩ := f.coalesce_ok iv f.code fun p member =>
    formed.values.source p.1 p.2 (mem_code.1 member).2
  have sound' := coalesce_keeps (P := fun iv => iv.Sound f.LiveAt)
    (fun _ _ sound => sound.join _ _ _) joined sound
  obtain ⟨stats, ran⟩ := allocateWith_ok file joined fun inside known value =>
    f.scan_placed classed sound' (dominated.liveAt_own formed numbered inside known value)
  exact ⟨_, stats, ran, dominated.placed formed numbered classed sound'⟩

end Dominated

/-- Allocation succeeds where values are computed before they are used. -/
theorem Guarded.allocate (guarded : f.Guarded A) (formed : f.Formed) {file : RegisterFile}
    (classed : file.Classed) :
    ∃ g stats, f.allocate file = (g, .ok stats) ∧ f.number.Placed g := by
  have numbers := f.annotates_number
  have formed' := numbers.formed formed
  have dominated := (numbers.guarded guarded).dominated formed'
  have ranges := dominated.liveRanges_ok formed'
  have sound := (liveRanges_sound ranges).1
  obtain ⟨g, stats, ran, placed⟩ := dominated.allocateWith formed' formed.numbered classed sound
  refine ⟨g, stats, ?_, placed⟩
  simp only [Func.allocate, intervals, ranges, ran]

end Func

/-! ## Modules -/

/-- All functions of a module are allocated, by any number of threads, if each one can be. -/
theorem Module.allocate_ok {m : Module} {arch : Arch} {P : Func → Func → Prop}
    (fine : ∀ f ∈ m.functions, ∃ g stats, f.allocate arch.registers = (g, .ok stats) ∧ P f g)
    (threads : Int) :
    ∃ m' stats, m.allocate threads arch = (m', .ok stats) ∧
      List.Forall₂ P m.functions m'.functions := by
  have job : ∀ f ∈ m.functions, ∃ g stats, allocateJob arch (f, none) = ((g, some stats), none) ∧ P f g := by
    intro f member
    obtain ⟨g, stats, ran, holds⟩ := fine f member
    exact ⟨g, stats, by simp only [allocateJob, ran], holds⟩
  have results : Jobs.run threads (allocateJob arch) (m.functions.map fun f => (f, none)) =
      ((m.functions.map fun f => (f, none)).map fun p => (allocateJob arch p).1, none) := by
    refine Jobs.run_eq threads fun p member => ?_
    obtain ⟨f, inside, rfl⟩ := List.mem_map.1 member
    obtain ⟨g, stats, ran, -⟩ := job f inside
    rw [ran]
  rw [Module.allocate, results]
  refine ⟨_, _, rfl, ?_⟩
  simp only [List.map_map, List.forall₂_map_right_iff, List.forall₂_same]
  intro f member
  obtain ⟨g, stats, ran, holds⟩ := job f member
  simpa [ran] using holds

/-- The functions of a module are allocated, with any register file. -/
theorem Program.lower_allocate {p : Program} {threads : Int} {path : Text} {m : Module}
    (lowered : p.lower threads path = .ok m) (threads' : Int) (arch : Arch) :
    ∃ m' stats, m.allocate threads' arch = (m', .ok stats) ∧
      List.Forall₂ (fun f g => f.Formed ∧ (∃ A, f.Guarded A) ∧ f.number.Placed g)
        m.functions m'.functions := by
  refine Module.allocate_ok (fun f member => ?_) threads'
  obtain ⟨source, -, ran⟩ := Program.lower_mem lowered member
  obtain ⟨F, A, trims, -, guarded⟩ := Lower.function_guarded ran
  obtain ⟨g, stats, allocated, placed⟩ := guarded.allocate trims.formed arch.registers_classed
  exact ⟨g, stats, allocated, trims.formed, ⟨A, guarded⟩, placed⟩

/-! ## What passes the check is compiled -/

/-- A program that was read and is not refused is lowered and allocated for both machines, if
no type in it is an array of void. -/
theorem checked_programs_compile {src : Text} {p : Program} (parsed : Program.parse src = .ok p)
    (checked : p.check.2 = none) (full : ∀ t ∈ p.types, ¬ t.IsVoidArray) (threads : Int)
    (path : Text) :
    ∃ m, p.check.1.lower threads path = .ok m ∧
      ∀ threads' arch, ∃ m' stats, m.allocate threads' arch = (m', .ok stats) := by
  obtain ⟨m, lowered⟩ := Program.lower_total checked (Program.parse_plain parsed full) threads path
  refine ⟨m, lowered, fun threads' arch => ?_⟩
  obtain ⟨m', stats, allocated, -⟩ := Program.lower_allocate lowered threads' arch
  exact ⟨m', stats, allocated⟩

/-- `sums` is compiled, with its calls, loops and arrays. -/
theorem sums_compiles : Program.parse sumsText = .ok sums ∧ sums.check.2 = none ∧
    (∀ t ∈ sums.types, ¬ t.IsVoidArray) ∧ ∃ m, sums.check.1.lower 3 "sums" = .ok m ∧
      ∀ threads' arch, ∃ m' stats, m.allocate threads' arch = (m', .ok stats) := by
  have checked : sums.check.2 = none := Option.isNone_iff_eq_none.1 (by decide +kernel)
  have full : ∀ t ∈ sums.types, ¬ t.IsVoidArray := by decide +kernel
  exact ⟨sums_parsed, checked, full, checked_programs_compile sums_parsed checked full 3 "sums"⟩

/-- A loop over an array of void, with a variable that no slot can hold. -/
def voidLoopText : Text :=
  "void f(void[] a) \x7b for (void x : a) \x7b \x7d \x7d int main() \x7b return 0; \x7d"

def LowerStop.defect? : LowerStop → Option Defect
  | .error _ => none
  | .defect d => some d

/-- The loop passes the check, but whatever the number of threads it is not lowered. -/
theorem void_loop_is_not_lowered : ∃ p, Program.parse voidLoopText = .ok p ∧ p.check.2 = none ∧
    ∀ threads path, ∃ d, p.check.1.lower threads path = .error (.defect d) ∧
      d.message = "function f: cannot allocate void slot x" := by
  have facts : (Program.parse voidLoopText).toOption.map (fun p => (p.check.2.isNone,
      ((Lower.stops (p.check.1.functions.map fun f => (f.name, Lower.function f))).head?.bind
        fun stop => stop.2.defect?).map Defect.message)) =
      some (true, some ("function f: cannot allocate void slot x" : Text)) := by
    decide +kernel
  obtain ⟨p, parsed, same⟩ := Option.map_eq_some_iff.1 facts
  obtain ⟨checked, stops⟩ := Prod.mk.inj same
  obtain ⟨d, stops, message⟩ := Option.map_eq_some_iff.1 stops
  obtain ⟨⟨name, stop⟩, first, defect⟩ := Option.bind_eq_some_iff.1 stops
  obtain ⟨rest, found⟩ := List.head?_eq_some_iff.1 first
  refine ⟨p, Except.toOption_eq_some.1 parsed, Option.isNone_iff_eq_none.1 checked,
    fun threads path => ⟨d, ?_, message⟩⟩
  cases stop with
  | error e => cases defect
  | defect d' =>
    cases defect
    simp only [Program.lower, Jobs.map_eq, found]

end ImpCompiler
