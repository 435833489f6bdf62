import ImpCompiler.Proofs.Code.Available

/-!
# Proofs.Code.Exits — where control leaves the blocks of a function

While a function is made, code may be put behind a terminator, so the last instruction
of a block does not say where control goes; its first terminator does (`Func.exit?`).
That one stays as the function grows, and with it everything that control reaches
(`Func.Reaches`). Removing dead code leaves exactly the blocks that control reaches
(`Func.Trims.mem_layout`), and it fails just if one of these has no terminator
(`Func.Laid.buildFlow_fails_iff`).
-/

namespace ImpCompiler

set_option autoImplicit false

namespace Func

variable {f g : Func} {b n t : Nat}

/-- The first terminator of a block. -/
def exit? (f : Func) (b : Nat) : Option Nat := (f.block b).instrs.find? f.isTerminatorAt

def exits (f : Func) (b : Nat) : List Nat :=
  ((f.exit? b).bind fun n => f.arena[n]?).elim [] fun i => i.op.targets

/-- The blocks that control reaches from the first one. -/
inductive Reaches (f : Func) : Nat → Prop
  | entry : Reaches f 0
  | step {b t : Nat} (reaches : Reaches f b) (goes : t ∈ f.exits b) : Reaches f t

theorem exit?_eq_some : f.exit? b = some n ↔ f.isTerminatorAt n = true ∧
    ∃ before behind, (f.block b).instrs = before ++ n :: behind ∧
      ∀ m ∈ before, f.isTerminatorAt m = false := by
  simp only [exit?, List.find?_eq_some_iff_append, Bool.not_eq_true']

theorem exit?_eq_none : f.exit? b = none ↔ ∀ n ∈ (f.block b).instrs, f.isTerminatorAt n = false := by
  simp [exit?]

theorem exit?_mem (known : f.exit? b = some n) : n ∈ (f.block b).instrs := List.mem_of_find?_eq_some known

theorem mem_exits : t ∈ f.exits b ↔
    ∃ n i, f.exit? b = some n ∧ f.arena[n]? = some i ∧ t ∈ i.op.targets := by
  unfold exits
  cases f.exit? b with
  | none => simp
  | some n => cases known : f.arena[n]? <;> simp [known]

/-- A block that ends in a terminator is left. -/
theorem exit?_isSome_of_terminator? (ends : (f.terminator? b).isSome = true) :
    (f.exit? b).isSome = true := by
  unfold terminator? at ends
  split at ends
  · rename_i i known
    obtain ⟨n, last, known⟩ := Option.bind_eq_some_iff.1 known
    split at ends
    · rename_i isEnd
      rw [exit?, List.find?_isSome]
      exact ⟨n, List.mem_of_getLast? last, by simp [isTerminatorAt, known, isEnd]⟩
    · cases ends
  · cases ends

/-- What control reaches is in every set that it does not leave. -/
theorem Reaches.within {R : Nat → Prop} (reaches : f.Reaches b) (start : R 0)
    (closed : ∀ b, R b → ∀ t ∈ f.exits b, R t) : R b := by
  induction reaches with
  | entry => exact start
  | step _ goes ih => exact closed _ ih _ goes

theorem Reaches.mono (reaches : f.Reaches b) (more : ∀ b t, t ∈ f.exits b → t ∈ g.exits b) :
    g.Reaches b := by
  induction reaches with
  | entry => exact .entry
  | step _ goes ih => exact ih.step (more _ _ goes)

/-! ## Growth -/

theorem Laid.known (laid : f.Laid) (member : n ∈ (f.block b).instrs) : ∃ i, f.arena[n]? = some i := by
  obtain ⟨i, known, -⟩ := laid.owner b n member
  exact ⟨i, known⟩

theorem Laid.isTerminatorAt_grows (laid : f.Laid) (grows : f.Grows g)
    (member : n ∈ (f.block b).instrs) : g.isTerminatorAt n = f.isTerminatorAt n := by
  obtain ⟨i, known⟩ := laid.known member
  simp only [isTerminatorAt, known, grows.instr known]

theorem Laid.exit?_grows (laid : f.Laid) (grows : f.Grows g) (known : f.exit? b = some n) :
    g.exit? b = some n := by
  obtain ⟨isEnd, before, behind, whole, plain⟩ := exit?_eq_some.1 known
  obtain ⟨more, goesOn⟩ := grows.instrs b
  refine exit?_eq_some.2 ⟨?_, before, behind ++ more, by simp [← goesOn, whole], fun m member => ?_⟩
  · rw [laid.isTerminatorAt_grows grows (exit?_mem known), isEnd]
  · rw [laid.isTerminatorAt_grows grows (b := b) (by simp [whole, member]), plain m member]

theorem Laid.exits_grows (laid : f.Laid) (grows : f.Grows g) (goes : t ∈ f.exits b) :
    t ∈ g.exits b := by
  obtain ⟨n, i, exit, known, target⟩ := mem_exits.1 goes
  exact mem_exits.2 ⟨n, i, laid.exit?_grows grows exit, grows.instr known, target⟩

theorem Reaches.grows (reaches : f.Reaches b) (laid : f.Laid) (grows : f.Grows g) : g.Reaches b :=
  reaches.mono fun _ _ => laid.exits_grows grows

section Append

variable (laid : f.Laid) (inside : b < f.blocks.size) (op : Op) (t : DataType) (args : List Value)

include laid

/-- An instruction in one block does not change how another is left. -/
theorem Laid.exit?_append_ne {c : Nat} (other : c ≠ b) :
    (f.append b op t args).exit? c = f.exit? c := by
  cases exit : f.exit? c with
  | some n => exact laid.exit?_grows (.of_append f b op t args) exit
  | none =>
    rw [exit?_eq_none] at exit ⊢
    rw [append_block_ne f op t args other]
    intro n member
    rw [laid.isTerminatorAt_grows (.of_append f b op t args) member, exit n member]

include inside

/-- A terminator is where control leaves a block if there was none before. -/
theorem Laid.exit?_append :
    (f.append b op t args).exit? b =
      (f.exit? b).or (if op.isTerminator then some f.arena.size else none) := by
  have grows := Grows.of_append f b op t args
  cases exit : f.exit? b with
  | some n => exact laid.exit?_grows grows exit
  | none =>
    rw [exit?_eq_none] at exit
    have plain : ∀ n ∈ (f.block b).instrs, (f.append b op t args).isTerminatorAt n = false := by
      intro n member
      rw [laid.isTerminatorAt_grows grows member, exit n member]
    have last : (f.append b op t args).isTerminatorAt f.arena.size = op.isTerminator := by
      simp [isTerminatorAt, Instr.isTerminator]
    have none_before : (f.block b).instrs.find? (f.append b op t args).isTerminatorAt = none := by
      simpa using plain
    rw [exit?, append_block f op t args inside, List.find?_append, none_before]
    cases ends : op.isTerminator <;> simp [last, ends]

/-- Only the first terminator of a block adds to where it leads. -/
theorem Laid.exits_append {c : Nat} : c ∈ (f.append b op t args).exits b ↔
    c ∈ f.exits b ∨ f.exit? b = none ∧ c ∈ op.targets := by
  have grows := Grows.of_append f b op t args
  have new : (f.append b op t args).arena[f.arena.size]? =
      some ⟨op, t, args, some b, none, .unassigned⟩ := by simp
  rw [mem_exits, laid.exit?_append inside]
  cases exit : f.exit? b with
  | some n =>
    obtain ⟨i, known⟩ := laid.known (exit?_mem exit)
    simp only [mem_exits, exit, Option.some_or, Option.some.injEq, exists_and_left,
      exists_eq_left', grows.instr known, known, reduceCtorEq, false_and, or_false]
  | none =>
    have nowhere : c ∉ f.exits b := fun goes => by
      obtain ⟨n, i, exit', -⟩ := mem_exits.1 goes
      rw [exit] at exit'
      cases exit'
    cases ends : op.isTerminator with
    | true =>
      simp only [Option.none_or, if_true, nowhere, false_or, true_and, Option.some.injEq,
        exists_and_left, exists_eq_left', new]
    | false =>
      have noTarget : c ∉ op.targets := fun target => by
        rw [isTerminator_of_target target] at ends
        cases ends
      simp [nowhere, noTarget]

end Append

/-! ## Removing dead code -/

/-- An instruction is kept exactly if no terminator stands before it. -/
theorem mem_cut {before behind : List Nat} (once : n ∉ before) :
    n ∈ (f.cut (before ++ n :: behind)).1 ↔ ∀ m ∈ before, f.isTerminatorAt m = false := by
  induction before with
  | nil =>
    rw [List.nil_append, cut]
    split <;> simp
  | cons m before ih =>
    obtain ⟨other, once⟩ := not_or.1 (List.mem_cons.not.1 once)
    rw [List.cons_append, cut]
    split
    · rename_i isEnd
      simp [other, isEnd]
    · rename_i plain
      simp [other, ih once, plain]

/-- A list is cut behind its first terminator. -/
theorem cut_at {before behind : List Nat} (isEnd : f.isTerminatorAt n = true)
    (plain : ∀ m ∈ before, f.isTerminatorAt m = false) :
    f.cut (before ++ n :: behind) = (before ++ [n], behind) := by
  induction before with
  | nil => rw [List.nil_append, Func.cut, if_pos isEnd, List.nil_append]
  | cons m before ih =>
    obtain ⟨here, others⟩ := List.forall_mem_cons.1 plain
    rw [List.cons_append, Func.cut, here, if_neg (by simp), ih others, List.cons_append]

theorem cut_getLast? (exit : f.exit? b = some n) :
    (f.cut (f.block b).instrs).1.getLast? = some n := by
  obtain ⟨isEnd, before, behind, whole, plain⟩ := exit?_eq_some.1 exit
  rw [whole, cut_at isEnd plain, List.getLast?_concat]

namespace Trims

variable (trims : f.Trims g)

include trims

/-- The instruction that ends a block is where control left it. -/
theorem exit? (left : b ∈ g.layout) :
    ∃ body n, (g.block b).instrs = body ++ [n] ∧ f.exit? b = some n := by
  obtain ⟨body, n, i, whole, known, isEnd, -, plain⟩ := trims.formed.ends b left
  refine ⟨body, n, whole, exit?_eq_some.2 ⟨?_, body, (f.cut (f.block b).instrs).2, ?_, fun m member => ?_⟩⟩
  · rw [← isTerminatorAt_congr (trims.code n)]
    simp [isTerminatorAt, known, Instr.isTerminator, isEnd]
  · have cut := f.cut_append (f.block b).instrs
    rw [← trims.instrs b left, whole, List.append_assoc] at cut
    exact cut.symm
  · rw [← isTerminatorAt_congr (trims.code m)]
    exact plain m member

/-- A block that is kept goes where its first terminator goes. -/
theorem targets_eq_exits (left : b ∈ g.layout) : g.targets b = f.exits b := by
  obtain ⟨body, n, whole, exit⟩ := trims.exit? left
  obtain ⟨body', n', i, whole', known, targets, -⟩ := trims.formed.last left
  rw [whole] at whole'
  obtain ⟨rfl, same⟩ := List.append_inj' whole' rfl
  cases same
  rw [targets, exits, exit, Option.bind_some, ← trims.stays b n (by simp [whole]), known]
  rfl

/-- The blocks that are left are those that control reaches. -/
theorem mem_layout : b ∈ g.layout ↔ f.Reaches b := by
  constructor
  · intro left
    obtain ⟨passed, route⟩ := trims.formed.reached b left
    induction route with
    | entry first =>
      rw [trims.formed.first] at first
      cases first
      exact .entry
    | step route goes ih =>
      have listed := route.listed trims.formed
      exact (ih listed).step (trims.targets_eq_exits listed ▸ goes)
  · intro reaches
    induction reaches with
    | entry => exact List.mem_of_mem_head? trims.formed.first
    | step _ goes ih =>
      obtain ⟨_, _, _, -, -, -, within⟩ := trims.formed.last ih
      exact within _ (trims.targets_eq_exits ih ▸ goes)

/-- An instruction is left if control reaches it: its block is reached, and no terminator
stands before it. -/
theorem mem_instrs (laid : f.Laid) {before behind : List Nat}
    (whole : (f.block b).instrs = before ++ n :: behind) :
    (∃ c, n ∈ (g.block c).instrs) ↔ f.Reaches b ∧ ∀ m ∈ before, f.isTerminatorAt m = false := by
  have once : n ∉ before := fun earlier => by
    have once := laid.once b
    rw [whole] at once
    exact (List.nodup_append.1 once).2.2 n earlier n (by simp) rfl
  rw [← mem_cut once, ← whole]
  constructor
  · rintro ⟨c, member⟩
    have left : c ∈ g.layout := by
      by_contra gone
      simp [trims.dropped c gone] at member
    have same : c = b :=
      laid.unique ((trims.instrs_prefix left).subset member) (by simp [whole])
    subst same
    exact ⟨trims.mem_layout.1 left, trims.instrs c left ▸ member⟩
  · rintro ⟨reaches, member⟩
    exact ⟨b, trims.instrs b (trims.mem_layout.2 reaches) ▸ member⟩

end Trims

/-! ## When removing dead code fails -/

/-- A block that was cut ends where control leaves it. -/
theorem Laid.strip_terminator? (laid : f.Laid) (exit : f.exit? b = some n) :
    ∃ i, f.arena[n]? = some i ∧ f.strip.terminator? b = some i := by
  have last := cut_getLast? exit
  have stays : n ∈ (f.strip.block b).instrs := by
    rw [strip_instrs laid]
    exact List.mem_of_getLast? last
  obtain ⟨i, known⟩ := laid.known (exit?_mem exit)
  have isEnd : i.isTerminator = true := by simpa [isTerminatorAt, known] using (exit?_eq_some.1 exit).1
  exact ⟨i, known, by simp [terminator?, strip_instrs laid, last, laid.strip_arena stays, known, isEnd]⟩

/-- Cutting gives no terminator to a block that had none. -/
theorem Laid.strip_terminator?_none (laid : f.Laid) (unended : f.exit? b = none) :
    f.strip.terminator? b = none := by
  rw [exit?_eq_none] at unended
  unfold terminator?
  split
  · rename_i i known
    obtain ⟨n, last, known⟩ := Option.bind_eq_some_iff.1 known
    have here : n ∈ (f.block b).instrs := by
      rw [← f.cut_append (f.block b).instrs, ← strip_instrs laid]
      exact List.mem_append_left _ (List.mem_of_getLast? last)
    have plain := unended n here
    rw [← isTerminatorAt_congr (strip_code n)] at plain
    simp only [isTerminatorAt, known, Option.any_some] at plain
    simp [plain]
  · rfl

theorem Laid.strip_targets (laid : f.Laid) (b : Nat) : f.strip.targets b = f.exits b := by
  cases exit : f.exit? b with
  | none => simp [Func.targets, laid.strip_terminator?_none exit, exits, exit]
  | some n =>
    obtain ⟨i, known, last⟩ := laid.strip_terminator? exit
    simp [Func.targets, last, exits, exit, known]

/-- A block at which exploring fails is reached and has no terminator. -/
theorem explore_error {P : Nat → Prop} {n c : Nat} {reached work : List Nat}
    (failed : f.explore n reached work = .error c) (start : ∀ b ∈ work, P b)
    (step : ∀ b, P b → ∀ c ∈ f.targets b, P c) : P c ∧ f.terminator? c = none := by
  induction n generalizing reached work with
  | zero => cases failed
  | succ n ih =>
    cases work with
    | nil => cases failed
    | cons b work =>
      obtain ⟨here, others⟩ := List.forall_mem_cons.1 start
      rw [explore] at failed
      split at failed
      · rename_i none
        cases failed
        exact ⟨here, none⟩
      · rename_i i known
        have targets : f.targets b = i.op.targets := by simp [Func.targets, known]
        refine ih failed fun c member => ?_
        rcases List.mem_append.1 member with new | old
        · exact step b here c (targets ▸ (List.mem_filter.1 (List.mem_reverse.1 new)).1)
        · exact others c old

namespace Laid

variable (laid : f.Laid)

include laid

/-- The only failure is a block that control reaches and nothing leaves. -/
theorem buildFlow_error {e : FlowError} (failed : f.buildFlow.2 = some e) :
    ∃ b, f.Reaches b ∧ f.exit? b = none ∧ e = .notTerminated f.name (f.label b) := by
  have entry : f.strip.entry = .ok 0 := by
    obtain ⟨rest, layout⟩ := laid.strip.head
    simp [Func.entry, layout]
  have label : ∀ b, f.strip.label b = f.label b :=
    mapBlocks_label (f := f.detach _) fun b x => by split <;> rfl
  simp only [buildFlow, entry] at failed
  split at failed
  · rename_i c explored
    obtain ⟨reaches, none⟩ := explore_error explored (P := f.Reaches) (by simpa using .entry)
      fun b before c goes => before.step (laid.strip_targets b ▸ goes)
    refine ⟨c, reaches, ?_, by rw [← label c]; exact (Option.some.inj failed).symm⟩
    cases exit : f.exit? c with
    | none => rfl
    | some n =>
      obtain ⟨i, -, last⟩ := laid.strip_terminator? exit
      rw [none] at last
      cases last
  · cases failed

/-- Removing dead code fails where control reaches a block without a terminator. -/
theorem buildFlow_fails_iff : f.buildFlow.2 ≠ none ↔ ∃ b, f.Reaches b ∧ f.exit? b = none := by
  constructor
  · intro fails
    obtain ⟨e, failed⟩ := Option.ne_none_iff_exists'.1 fails
    obtain ⟨b, reaches, unended, -⟩ := laid.buildFlow_error failed
    exact ⟨b, reaches, unended⟩
  · rintro ⟨b, reaches, unended⟩ ended
    have trims := laid.trims (Prod.ext rfl ended : f.buildFlow = (f.buildFlow.1, none))
    obtain ⟨_, n, -, exit⟩ := trims.exit? (trims.mem_layout.2 reaches)
    rw [unended] at exit
    cases exit

/-- The flow can be built if every block is left. -/
theorem buildFlow_total (ends : ∀ b < f.blocks.size, (f.exit? b).isSome = true) :
    ∃ g, f.buildFlow = (g, none) := by
  refine ⟨f.buildFlow.1, Prod.ext rfl ?_⟩
  by_contra fails
  obtain ⟨b, reaches, unended⟩ := laid.buildFlow_fails_iff.1 fails
  have inside : b < f.blocks.size := reaches.within laid.entry fun b _ t goes => by
    obtain ⟨n, i, -, known, target⟩ := mem_exits.1 goes
    exact laid.targets n i known t target
  have exit := ends b inside
  rw [unended] at exit
  cases exit

end Laid

end Func

end ImpCompiler
