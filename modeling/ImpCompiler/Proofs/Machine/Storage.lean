import ImpCompiler.Proofs.Machine.Allocation
import ImpCompiler.Proofs.Semantics.Lockstep

/-!
# Proofs.Machine.Storage — places hold what virtual registers hold

Code does the same on the machine that has nothing but the places of values as on the
one with a register for each instruction: at every point of a run, the place of a value
that is needed from there on holds what the register of its instruction holds (`Held`).
An instruction keeps this, as what it writes is not the place of another value that is
needed behind it.
-/

namespace ImpCompiler

set_option autoImplicit false

open Machine

theorem Instr.hasValue_of_isTerminator {i : Instr} (ends : i.op.isTerminator = true) :
    i.hasValue = false := by
  cases op : i.op <;> simp_all [Instr.hasValue, Op.computes]

/-- The values of `f` that are needed from a point on. -/
def Func.NeededAt (f : Func) (b k : Nat) (m : Nat) : Prop :=
  f.Needs (· ∈ f.liveOut f.liveIn b) ((f.block b).instrs.drop k) (m : Value)

namespace Func

variable {f : Func} {b n m : Nat} {before rest : List Nat}

theorem neededAt_next (whole : (f.block b).instrs = before ++ n :: rest) :
    f.NeededAt b (before.length + 1) m ↔ f.Needs (· ∈ f.liveOut f.liveIn b) rest (m : Value) := by
  have next : (f.block b).instrs.drop (before.length + 1) = rest := by
    rw [whole, List.append_cons, List.drop_left' (by simp)]
  rw [NeededAt, next]

theorem neededAt_iff (whole : (f.block b).instrs = before ++ n :: rest) :
    f.NeededAt b before.length m ↔
      (∃ i, f.arena[n]? = some i ∧ (m : Value) ∈ i.args) ∨
        (¬ f.Computes n m ∧ f.NeededAt b (before.length + 1) m) := by
  have here : (f.block b).instrs.drop before.length = n :: rest := by rw [whole, List.drop_left]
  rw [NeededAt, here, Needs, neededAt_next whole]

/-- What is needed at the start of a block is live there. -/
theorem Formed.neededAt_start (formed : f.Formed) (listed : b ∈ f.layout) (needed : f.NeededAt b 0 m) :
    (m : Value) ∈ f.liveIn.getD b [] :=
  liveIn_closed (fun _ => formed.layout_lt) listed needed

end Func

/-- Activations of a function before and after allocation, at the same point, where the
places of values that are needed hold them. The function `f` in between has the numbers
that its places were found with. -/
structure Held (f : Func) (fr : Frame Nat) (fr' : Frame Cell) : Prop where
  formed : f.Formed
  numbers : fr.func.Annotates f
  placed : f.Placed fr'.func
  block : fr.block = fr'.block
  offset : fr.offset = fr'.offset
  args : fr.args = fr'.args
  slots : fr.slots = fr'.slots
  inside : f.Inside fr'.block fr'.offset
  values : ∀ m, f.NeededAt fr'.block fr'.offset m → (fr'.func.placeOf m).bind fr'.values = fr.values m

namespace Held

/-- Instruction `n` of `f` is next: `i` before numbers were given, `i'` with its number and
`i''` with its place. -/
structure Next (f : Func) (fr : Frame Nat) (fr' : Frame Cell) (n : Nat) (i i' i'' : Instr)
    (before rest : List Nat) : Prop where
  whole : (f.block fr'.block).instrs = before ++ n :: rest
  length : before.length = fr'.offset
  known : f.arena[n]? = some i'
  first : fr.fetch = some (n, i)
  last : fr'.fetch = some (n, i'')
  like : i.Like i'
  like' : i'.Like i''

variable {f : Func} {fr : Frame Nat} {fr' : Frame Cell} {fns fns' : Text → Option Func}
  {oracle : Oracle} {fresh : Cell → Option Val} {n : Nat} {i i' i'' : Instr} {before rest : List Nat}

theorem Next.here (next : Next f fr fr' n i i' i'' before rest) :
    (f.block fr'.block).instrs[fr'.offset]? = some n := by
  simp [next.whole, ← next.length]

/-- What is needed at the instruction: its operands, and what is needed behind it and not computed
by it. -/
theorem Next.neededAt_iff (next : Next f fr fr' n i i' i'' before rest) {m : Nat} :
    f.NeededAt fr'.block fr'.offset m ↔
      (m : Value) ∈ i.args ∨
        ¬ (i.hasValue = true ∧ m = n) ∧ f.NeededAt fr'.block (fr'.offset + 1) m := by
  have same : (m : Value) = (n : Value) ↔ m = n := Int.ofNat_inj
  rw [← next.length, Func.neededAt_iff next.whole]
  simp [next.known, Func.Computes, next.like.args, next.like.hasValue, same, and_comm]

/-- Both activations have an instruction next, and it is the same one. -/
theorem fetch (held : Held f fr fr') : ∃ n i i' i'' before rest, Next f fr fr' n i i' i'' before rest := by
  obtain ⟨n, i', here, known, -⟩ := held.formed.fetch held.inside
  obtain ⟨i, known₁, like₁⟩ := held.numbers.symm.instr known
  obtain ⟨i'', known₂, like₂⟩ := held.placed.annotates.instr known
  refine ⟨n, i, i', i'', (f.block fr'.block).instrs.take fr'.offset,
    (f.block fr'.block).instrs.drop (fr'.offset + 1), ?_, ?_, known, ?_, ?_, like₁.symm, like₂⟩
  · obtain ⟨inside, same⟩ := List.getElem?_eq_some_iff.1 here
    rw [← same, List.getElem_cons_drop, List.take_append_drop]
  · exact List.length_take_of_le (Nat.le_of_lt held.inside.2)
  · rw [Frame.fetch, held.block, held.offset, ← held.numbers.block, here]
    simp [known₁]
  · rw [Frame.fetch, held.placed.annotates.block, here]
    simp [known₂]

theorem next (held : Held f fr fr') {n : Nat} {i : Instr} (fetched : fr.fetch = some (n, i)) :
    ∃ i' i'' before rest, Next f fr fr' n i i' i'' before rest := by
  obtain ⟨n', j, i', i'', before, rest, next⟩ := held.fetch
  cases fetched.symm.trans next.first
  exact ⟨i', i'', before, rest, next⟩

theorem operands (held : Held f fr fr') (next : Next f fr fr' n i i' i'' before rest) :
    (virtual fns oracle).operands fr i = (located fns' oracle fresh).operands fr' i'' := by
  simp only [Machine.operands, next.like'.args, next.like.args]
  refine mapM_congr fun v used => ?_
  obtain ⟨m, rfl, -⟩ := held.formed.operand next.known (next.like.args.symm ▸ used)
  exact (held.values m (next.neededAt_iff.2 (.inl used))).symm

/-- Control goes on in the same block. -/
theorem goesOn (held : Held f fr fr') (next : Next f fr fr' n i i' i'' before rest)
    {values : Nat → Option Val} {values' : Cell → Option Val} {slots slots' : Nat → Option Val}
    (plain : i.op.isTerminator = false) (sameSlots : slots = slots')
    (keeps : ∀ m, f.NeededAt fr'.block (fr'.offset + 1) m →
      (fr'.func.placeOf m).bind values' = values m) :
    Held f { fr with offset := fr.offset + 1, values := values, slots := slots }
      { fr' with offset := fr'.offset + 1, values := values', slots := slots' } :=
  ⟨held.formed, held.numbers, held.placed, held.block, congrArg (· + 1) held.offset, held.args,
    sameSlots, held.formed.next held.inside next.here next.known (by rw [next.like.op]; exact plain),
    keeps⟩

/-- A value that is needed behind an instruction which does not compute it stays where it is. -/
theorem stays (held : Held f fr fr') (next : Next f fr fr' n i i' i'' before rest) {m : Nat}
    (other : ¬ (i.hasValue = true ∧ m = n)) (needed : f.NeededAt fr'.block (fr'.offset + 1) m) :
    (fr'.func.placeOf m).bind fr'.values = fr.values m :=
  held.values m (next.neededAt_iff.2 (.inr ⟨other, needed⟩))

/-- The instruction writes the place of its value, which is not that of another value that
is needed behind it. -/
theorem write (held : Held f fr fr') (next : Next f fr fr' n i i' i'' before rest) (v : Val) (m : Nat)
    (needed : f.NeededAt fr'.block (fr'.offset + 1) m) :
    (fr'.func.placeOf m).bind ((located fns' oracle fresh).write fr' n i'' v) =
      (virtual fns oracle).write fr n i v m := by
  have same : i''.hasValue = i.hasValue := next.like'.hasValue.trans next.like.hasValue
  cases value : i.hasValue with
  | false =>
    simp only [Machine.write, same, value, Bool.false_eq_true, if_false]
    exact held.stays next (by simp [value]) needed
  | true =>
    have listed := held.inside.1
    have member : n ∈ f.instrs := List.mem_flatMap.2 ⟨_, listed, by simp [next.whole]⟩
    have computes : i'.hasValue = true := next.like.hasValue.trans value
    obtain ⟨k, place⟩ := held.placed.place member next.known computes
    have placed : (located fns' oracle fresh).place fr'.func n = some k := place
    simp only [Machine.write, same, value, if_true, placed]
    change _ = Function.update fr.values n (some v) m
    by_cases own : m = n
    · subst own
      simp [place]
    · rw [Function.update_of_ne own, ← held.stays next (fun both => own both.2) needed]
      cases place' : fr'.func.placeOf m with
      | none => rfl
      | some k' =>
        have other : k' ≠ k := by
          rintro rfl
          refine own (held.placed.apart listed next.whole next.known computes ?_
            (place'.trans place.symm))
          rwa [← Func.neededAt_next next.whole, next.length]
        simp [Function.update_of_ne other]

/-- A branch is the last instruction of its block. -/
theorem last (held : Held f fr fr') (next : Next f fr fr' n i i' i'' before rest)
    (ends : i'.op.isTerminator = true) : rest = [] := by
  have atEnd := (held.formed.isTerminator_iff held.inside next.here next.known).1 ends
  rw [next.whole, ← next.length, List.length_append, List.length_cons] at atEnd
  exact List.eq_nil_of_length_eq_zero (by omega)

/-- Control goes to another block. -/
theorem jump (held : Held f fr fr') (next : Next f fr fr' n i i' i'' before rest) {c : Nat}
    (target : c ∈ i'.op.targets) : Held f (fr.jump c) (fr'.jump c) := by
  have inside := held.formed.goes held.inside next.here next.known target
  have ends := Func.isTerminator_of_target target
  cases held.last next ends
  refine ⟨held.formed, held.numbers, held.placed, rfl, rfl, held.args, held.slots, inside,
    fun m needed => held.stays next ?_ ?_⟩
  · rintro ⟨value, -⟩
    rw [← next.like.hasValue, Instr.hasValue_of_isTerminator ends] at value
    cases value
  · -- nothing is behind the branch, so what the block it goes to needs is live out of this one
    rw [← next.length, Func.neededAt_next next.whole]
    refine Func.mem_liveOut.2 ⟨c, ?_, held.formed.neededAt_start inside.1 needed⟩
    rw [held.formed.succs _ held.inside.1]
    simpa [Func.targets, Func.terminator?, next.whole, next.known, Instr.isTerminator, ends] using target

/-- Nothing is needed at the start of a function. -/
theorem enter {A : Nat → Fact → Prop} {f g : Func} (guarded : f.Guarded A) (formed : f.Formed)
    (placed : f.number.Placed g) (args : List Val) :
    Held f.number ((virtual fns oracle).enter f args) ((located fns' oracle fresh).enter g args) := by
  have numbers := f.annotates_number
  have formed' := numbers.formed formed
  have first : ∀ {h : Func}, h.layout = f.layout → h.layout.headD 0 = 0 := by
    intro h same
    rw [same, List.headD_eq_head?_getD, formed.first]
    rfl
  have start : g.layout.headD 0 = 0 := first (placed.annotates.layout.trans numbers.layout)
  refine ⟨formed', numbers, placed, (first rfl).trans start.symm, rfl, rfl, rfl, ?_, fun m needed => ?_⟩
  · change f.number.Inside (g.layout.headD 0) 0
    rw [start]
    exact formed'.start
  · change f.number.NeededAt (g.layout.headD 0) 0 m at needed
    rw [start] at needed
    have live := formed'.neededAt_start formed'.start.1 needed
    obtain ⟨m', -, there⟩ := ((numbers.guarded guarded).dominated formed').liveIn formed' live
    exact absurd there (Func.Passed.not_entry formed')

end Held

/-- Functions and what allocation makes of them go step by step together. -/
theorem Func.Placed.lockstep {fns fns' : Text → Option Func} (oracle : Oracle)
    (fresh : Cell → Option Val)
    (placed : ∀ name, Option.Rel (fun f g => f.Formed ∧ (∃ A, f.Guarded A) ∧ f.number.Placed g)
      (fns name) (fns' name)) :
    Lockstep (virtual fns oracle) (located fns' oracle fresh) (fun fr fr' => ∃ f, Held f fr fr') where
  oracle := rfl
  agree {fr fr'} := by
    rintro ⟨f, held⟩
    obtain ⟨n, i, i', i'', before, rest, next⟩ := held.fetch
    refine ⟨held.numbers.name.symm.trans held.placed.annotates.name.symm, held.block, held.offset,
      held.args, held.slots, ?_⟩
    have same : (virtual fns oracle).operands fr i = (located fns' oracle fresh).operands fr' i'' :=
      held.operands next
    simp only [reading, next.first, next.last, Option.map_some, same, next.like'.op, next.like.op]
  enter name := by
    have related := placed name
    simp only [virtual, located] at related ⊢
    cases known : fns name <;> cases known' : fns' name <;> rw [known, known'] at related <;>
      cases related
    case none.none => exact .none
    case some.some f g both =>
      obtain ⟨formed, ⟨A, guarded⟩, placed⟩ := both
      exact .some fun args => ⟨f.number, Held.enter guarded formed placed args⟩
  resume {fr fr' n i} v := by
    rintro ⟨f, held⟩ fetched plain
    obtain ⟨i', i'', before, rest, next⟩ := held.next fetched
    simp only [Machine.resume, next.first, next.last]
    exact ⟨f, held.goesOn next plain held.slots (held.write next v)⟩
  stored {fr fr' n i s} v := by
    rintro ⟨f, held⟩ fetched same
    obtain ⟨i', i'', before, rest, next⟩ := held.next fetched
    have none : i.hasValue = false := by simp [Instr.hasValue, same, Op.computes]
    refine ⟨f, held.goesOn next (by rw [same]; rfl) (by rw [held.slots]) fun m => ?_⟩
    exact held.stays next (by simp [none])
  jump {fr fr' n i b} := by
    rintro ⟨f, held⟩ fetched target
    obtain ⟨i', i'', before, rest, next⟩ := held.next fetched
    exact ⟨f, held.jump next (next.like.op.symm ▸ target)⟩

/-- Allocation preserves meaning: the functions of a module are allocated for every machine, by
any number of threads, and run on the places of their values as on virtual registers. At every
step the machines are at the same instruction, with the same values of its operands, the same
slots and arrays and the same callers, and they end in the same outcome, whatever an activation
finds in its places. -/
theorem allocation_preserves_runs {p : Program} {threads : Int} {path : Text} {m : Module}
    (lowered : p.lower threads path = .ok m) (threads' : Int) (arch : Arch) :
    ∃ m' stats, m.allocate threads' arch = (m', .ok stats) ∧
      ∀ (oracle : Oracle) (fresh : Cell → Option Val) (name : Text),
        Option.Rel (fun f f' => ∀ (args : List Val) (heap : Heap) (n : Nat),
          (virtual m.function? oracle).AgreeOn (located m'.function? oracle fresh)
            ((virtual m.function? oracle).run n ((virtual m.function? oracle).start f args heap))
            ((located m'.function? oracle fresh).run n
              ((located m'.function? oracle fresh).start f' args heap)))
          (m.function? name) (m'.function? name) := by
  obtain ⟨m', stats, allocated, all⟩ := Program.lower_allocate lowered threads' arch
  refine ⟨m', stats, allocated, fun oracle fresh name => ?_⟩
  have related : ∀ name, Option.Rel (fun f g => f.Formed ∧ (∃ A, f.Guarded A) ∧ f.number.Placed g)
      (m.function? name) (m'.function? name) := by
    refine fun name => find?_related (fun {f g} both => ?_) all
    rw [both.2.2.annotates.name, f.annotates_number.name]
  have lockstep := Func.Placed.lockstep oracle fresh related
  have here := related name
  cases known : m.function? name <;> cases known' : m'.function? name <;> rw [known, known'] at here <;>
    cases here
  case none.none => exact .none
  case some.some => exact .some (lockstep.agreeOn_run known known')

/-- A sum that needs more values at once than a machine has registers. -/
def deepText : Text :=
  "int main() \x7b int a = readInt(); return "
    ++ Text.concatMap (List.range 18) (fun _ => "a + (")
    ++ "a" ++ Text.concatMap (List.range 18) (fun _ => ")") ++ "; \x7d"

def deep : Program :=
  match Program.parse deepText with
  | .ok p => p
  | .error _ => ⟨[]⟩

/-- The sum runs in registers and spill slots as it does in virtual registers. -/
theorem deep_runs_in_places : ∃ m, deep.check.1.lower 2 "deep" = .ok m ∧
    ∃ m' stats, m.allocate 2 .riscv64 = (m', .ok stats) ∧ (∃ s ∈ stats, 0 < s.spilled) ∧
      ∀ (oracle : Oracle) (fresh : Cell → Option Val) (name : Text),
        Option.Rel (fun f f' => ∀ (args : List Val) (heap : Heap) (n : Nat),
          (virtual m.function? oracle).AgreeOn (located m'.function? oracle fresh)
            ((virtual m.function? oracle).run n ((virtual m.function? oracle).start f args heap))
            ((located m'.function? oracle fresh).run n
              ((located m'.function? oracle fresh).start f' args heap)))
          (m.function? name) (m'.function? name) := by
  have spills : ((deep.check.1.lower 2 "deep").toOption.bind fun m =>
      (m.allocate 2 .riscv64).2.toOption).any (fun stats => stats.any fun s => decide (0 < s.spilled)) =
        true := by
    decide +kernel
  cases lowered : deep.check.1.lower 2 "deep" with
  | error e => simp [lowered, Except.toOption] at spills
  | ok m =>
    obtain ⟨m', stats, allocated, agree⟩ := allocation_preserves_runs lowered 2 .riscv64
    refine ⟨m, rfl, m', stats, allocated, ?_, agree⟩
    simpa [lowered, allocated, Except.toOption] using spills

end ImpCompiler
