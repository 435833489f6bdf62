import ImpCompiler.Proofs.Live.Exact

/-!
# Proofs.Live.Copies — values that are copied and not used otherwise

In the code of a call its arguments are copied. `Func.Copied` says how: a value that is copied is
no copy itself and has no other use, a copy is used in its own block, and only branches from
between the value and the copy lead to the blocks that got code in between. One more instruction
keeps that if it uses what is not copied and branches to blocks that are not in between
(`Copied.oneMore`), and code that copies only values of its own leaves all others as they are
(`Func.Later`).
-/

namespace ImpCompiler

set_option autoImplicit false

namespace Func

variable {f g h : Func} {b c k m n t : Nat} {i : Instr}

/-! ## Copies -/

def IsCopy (f : Func) (n : Nat) : Prop := ∃ i, f.arena[n]? = some i ∧ i.op = .copy

def CopyOf (f : Func) (n m : Nat) : Prop :=
  ∃ i, f.arena[n]? = some i ∧ i.op = .copy ∧ (m : Value) ∈ i.args

def BranchesTo (f : Func) (t b : Nat) : Prop := ∃ i, f.arena[t]? = some i ∧ b ∈ i.op.targets

/-- Block `b` has code from between the value of instruction `m` and instruction `n`, and does
not compute the value. -/
def Between (f : Func) (m n b : Nat) : Prop :=
  m ∉ (f.block b).instrs ∧ ∃ k ∈ (f.block b).instrs, m < k ∧ k ≤ n

/-- What a function copies has no other use, and copies are used near. -/
structure Copied (f : Func) : Prop where
  plain : ∀ {n m}, f.CopyOf n m → ¬ f.IsCopy m
  once : ∀ {n m k}, f.CopyOf n m → f.UsesValue k m → k = n
  behind : ∀ {n k}, f.IsCopy n → f.UsesValue k n →
    ∃ b, n ∈ (f.block b).instrs ∧ k ∈ (f.block b).instrs
  near : ∀ {n m b t}, f.CopyOf n m → f.Between m n b → f.BranchesTo t b → m < t ∧ t < n

/-- A value that can be used: it is no copy, and it is not copied. -/
def Spare (f : Func) (m : Nat) : Prop :=
  m < f.arena.size ∧ ¬ f.IsCopy m ∧ ∀ n, ¬ f.CopyOf n m

/-- No value is copied in another place than it was computed in with code of the block in
between. -/
def Idle (f : Func) (b : Nat) : Prop := ∀ {n m}, f.CopyOf n m → ¬ f.Between m n b

theorem CopyOf.isCopy (copy : f.CopyOf n m) : f.IsCopy n := by
  obtain ⟨i, known, op, -⟩ := copy
  exact ⟨i, known, op⟩

theorem CopyOf.uses (copy : f.CopyOf n m) : f.UsesValue n m := by
  obtain ⟨i, known, -, used⟩ := copy
  exact ⟨i, known, used⟩

theorem UsesValue.lt_size (used : f.UsesValue k m) : k < f.arena.size := by
  obtain ⟨i, known, -⟩ := used
  exact (Array.getElem?_eq_some_iff.1 known).1

theorem Rule.earlier {op : Op} {u : DataType} {args : List Value} (rule : f.Rule n op u args)
    (used : (m : Value) ∈ args) : m < n := by
  obtain ⟨_, k, same, smaller, -⟩ := rule.operand _ used
  cases Int.ofNat.inj same
  exact smaller

theorem WellTyped.earlier (typed : f.WellTyped) (used : f.UsesValue k m) : m < k := by
  obtain ⟨i, known, used⟩ := used
  exact (typed.rules k i known).earlier used

theorem WellTyped.lt_size (typed : f.WellTyped) (member : n ∈ (f.block b).instrs) :
    n < f.arena.size := by
  obtain ⟨i, known, -⟩ := typed.listed b n member
  exact (Array.getElem?_eq_some_iff.1 known).1

theorem idle_of_empty (empty : (f.block b).instrs = []) : f.Idle b := by
  rintro n m - ⟨-, k, member, -⟩
  simp [empty] at member

/-! ## One more instruction -/

section OneMore

variable (more : f.OneMore b i g)

include more

theorem OneMore.isCopy_cases (copy : g.IsCopy n) : f.IsCopy n ∨ n = f.arena.size ∧ i.op = .copy := by
  obtain ⟨j, known, op⟩ := copy
  rcases more.instr_cases known with old | ⟨last, rfl⟩
  · exact .inl ⟨j, old, op⟩
  · exact .inr ⟨last, op⟩

theorem OneMore.uses_cases (used : g.UsesValue k m) :
    f.UsesValue k m ∨ k = f.arena.size ∧ (m : Value) ∈ i.args := by
  obtain ⟨j, known, used⟩ := used
  rcases more.instr_cases known with old | ⟨last, rfl⟩
  · exact .inl ⟨j, old, used⟩
  · exact .inr ⟨last, used⟩

theorem OneMore.copyOf_cases (copy : g.CopyOf n m) :
    f.CopyOf n m ∨ n = f.arena.size ∧ i.op = .copy ∧ (m : Value) ∈ i.args := by
  obtain ⟨j, known, op, used⟩ := copy
  rcases more.instr_cases known with old | ⟨last, rfl⟩
  · exact .inl ⟨j, old, op, used⟩
  · exact .inr ⟨last, op, used⟩

theorem OneMore.branches_cases (goes : g.BranchesTo t c) :
    f.BranchesTo t c ∨ t = f.arena.size ∧ c ∈ i.op.targets := by
  obtain ⟨j, known, goes⟩ := goes
  rcases more.instr_cases known with old | ⟨last, rfl⟩
  · exact .inl ⟨j, old, goes⟩
  · exact .inr ⟨last, goes⟩

/-- Nothing uses the value of the new instruction. -/
theorem OneMore.unused (typed : g.WellTyped) : ¬ g.UsesValue k f.arena.size := by
  intro used
  have later := typed.earlier used
  have inside := used.lt_size
  rw [more.arena, Array.size_push] at inside
  omega

/-- The new instruction is behind all that was there. -/
theorem OneMore.between_old (old : n < f.arena.size) (between : g.Between m n c) : f.Between m n c := by
  obtain ⟨outside, k, member, low, high⟩ := between
  refine ⟨fun here => outside ((more.grows.instrs c).subset here), k, ?_, low, high⟩
  rcases more.listed_cases member with known | ⟨-, rfl⟩
  · exact known
  · omega

/-- The blocks in between are those that got code since, with the one of the new instruction. -/
theorem OneMore.between_new (between : g.Between m f.arena.size c) :
    m ∉ (f.block c).instrs ∧ (c = b ∨ ∃ k ∈ (f.block c).instrs, m < k) := by
  obtain ⟨outside, k, member, low, -⟩ := between
  refine ⟨fun here => outside ((more.grows.instrs c).subset here), ?_⟩
  rcases more.listed_cases member with old | ⟨here, -⟩
  · exact .inr ⟨k, old, low⟩
  · exact .inl here

/-- An instruction may use what is not copied, and copies of its own block; it may branch to
idle blocks, and copy what nothing uses if branches from before the value do not lead to the
blocks in between. -/
theorem Copied.oneMore (copied : f.Copied) (typed : f.WellTyped)
    (rule : f.Rule f.arena.size i.op i.type i.args)
    (operands : ∀ m : Nat, (m : Value) ∈ i.args →
      (∀ n, ¬ f.CopyOf n m) ∧ (f.IsCopy m → m ∈ (f.block b).instrs))
    (idle : ∀ c ∈ i.op.targets, f.Idle c)
    (source : i.op = .copy → ∀ m : Nat, (m : Value) ∈ i.args →
      ¬ f.IsCopy m ∧ (∀ k, ¬ f.UsesValue k m) ∧
        ∀ {c t}, g.Between m f.arena.size c → f.BranchesTo t c → m < t) : g.Copied := by
  have below : ∀ {n m}, f.CopyOf n m → m < n ∧ n < f.arena.size := fun copy =>
    ⟨typed.earlier copy.uses, copy.uses.lt_size⟩
  have listed : ∀ {c n}, n ∈ (f.block c).instrs → n ∈ (g.block c).instrs := fun {c _} here =>
    (more.grows.instrs c).subset here
  constructor
  · intro n m copy isCopy
    rcases more.copyOf_cases copy with old | ⟨-, op, used⟩
    · rcases more.isCopy_cases isCopy with known | ⟨rfl, -⟩
      · exact copied.plain old known
      · have := below old
        omega
    · rcases more.isCopy_cases isCopy with known | ⟨rfl, -⟩
      · exact (source op m used).1 known
      · exact Nat.lt_irrefl _ (rule.earlier used)
  · intro n m k copy used
    rcases more.copyOf_cases copy with old | ⟨last, op, used'⟩
    · rcases more.uses_cases used with known | ⟨-, used⟩
      · exact copied.once old known
      · exact absurd old ((operands m used).1 n)
    · rcases more.uses_cases used with known | ⟨last', -⟩
      · exact absurd known ((source op m used').2.1 k)
      · rw [last, last']
  · intro n k isCopy used
    rcases more.uses_cases used with known | ⟨rfl, operand⟩
    · have := typed.earlier known
      have := known.lt_size
      have old := (more.isCopy_cases isCopy).resolve_right (by omega)
      obtain ⟨c, here, there⟩ := copied.behind old known
      exact ⟨c, listed here, listed there⟩
    · have := rule.earlier operand
      have old := (more.isCopy_cases isCopy).resolve_right (by omega)
      exact ⟨b, listed ((operands n operand).2 old), by simp [more.block]⟩
  · intro n m c t copy between goes
    rcases more.copyOf_cases copy with old | ⟨rfl, op, used⟩
    · have between := more.between_old (below old).2 between
      rcases more.branches_cases goes with known | ⟨-, goes⟩
      · exact copied.near old between known
      · exact absurd between (idle c goes old)
    · rcases more.branches_cases goes with known | ⟨-, goes⟩
      · refine ⟨(source op m used).2.2 between known, ?_⟩
        obtain ⟨j, known, -⟩ := known
        exact (Array.getElem?_eq_some_iff.1 known).1
      · simp [op, Op.targets] at goes

end OneMore

/-- Only instructions and the blocks that have them matter. -/
theorem Copied.congr (copied : f.Copied) (arena : g.arena = f.arena)
    (instrs : ∀ b, (g.block b).instrs = (f.block b).instrs) : g.Copied := by
  have copyOf : ∀ {n m}, g.CopyOf n m → f.CopyOf n m := fun copy => by rwa [CopyOf, arena] at copy
  have uses : ∀ {n m : Nat}, g.UsesValue n m → f.UsesValue n m := fun used => by
    rwa [UsesValue, arena] at used
  have isCopy : ∀ {n}, g.IsCopy n → f.IsCopy n := fun copy => by rwa [IsCopy, arena] at copy
  constructor
  · exact fun copy copy' => copied.plain (copyOf copy) (isCopy copy')
  · exact fun copy used => copied.once (copyOf copy) (uses used)
  · intro n k copy used
    simp only [instrs]
    exact copied.behind (isCopy copy) (uses used)
  · intro n m b t copy between goes
    rw [Between, instrs] at between
    rw [BranchesTo, arena] at goes
    exact copied.near (copyOf copy) between goes

/-! ## What later code leaves alone -/

/-- More code, which copies only what it computes, with only blocks of its own in between. -/
structure Later (f g : Func) : Prop where
  grows : f.Grows g
  listed : ∀ {b k}, k < f.arena.size → k ∈ (g.block b).instrs → k ∈ (f.block b).instrs
  copies : ∀ {n m}, f.arena.size ≤ n → g.CopyOf n m →
    f.arena.size ≤ m ∧ ∀ b, g.Between m n b → f.blocks.size ≤ b

theorem Grows.arena_eq (grows : f.Grows g) (old : k < f.arena.size) : g.arena[k]? = f.arena[k]? := by
  have known := Array.getElem?_eq_getElem old
  rw [known, grows.instr known]

theorem Grows.arena_le (grows : f.Grows g) : f.arena.size ≤ g.arena.size := by
  simpa using grows.arena.length_le

namespace Later

theorem refl (f : Func) : f.Later f := by
  refine ⟨.refl f, fun _ => id, fun outside copy => ?_⟩
  exact absurd copy.uses.lt_size (Nat.not_lt.2 outside)

/-- New blocks and slots. -/
theorem silent (grows : f.Grows g) (arena : g.arena = f.arena)
    (instrs : ∀ b, (g.block b).instrs = (f.block b).instrs) : f.Later g := by
  refine ⟨grows, fun {b k} _ member => instrs b ▸ member, fun outside copy => ?_⟩
  have := copy.uses.lt_size
  rw [arena] at this
  omega

variable (later : f.Later g)

include later

theorem copyOf_old (old : n < f.arena.size) (copy : g.CopyOf n m) : f.CopyOf n m := by
  rwa [CopyOf, later.grows.arena_eq old] at copy

theorem between_old (old : n < f.arena.size) (between : g.Between m n b) : f.Between m n b := by
  obtain ⟨outside, k, member, low, high⟩ := between
  exact ⟨fun here => outside ((later.grows.instrs b).subset here), k,
    later.listed (Nat.lt_of_le_of_lt high old) member, low, high⟩

theorem trans (next : g.Later h) : f.Later h where
  grows := later.grows.trans next.grows
  listed old member :=
    later.listed old (next.listed (Nat.lt_of_lt_of_le old later.grows.arena_le) member)
  copies {n m} new copy := by
    by_cases early : n < g.arena.size
    · obtain ⟨value, blocks⟩ := later.copies new (next.copyOf_old early copy)
      exact ⟨value, fun b between => blocks b (next.between_old early between)⟩
    · obtain ⟨value, blocks⟩ := next.copies (Nat.not_lt.1 early) copy
      exact ⟨Nat.le_trans later.grows.arena_le value, fun b between =>
        Nat.le_trans later.grows.size (blocks b between)⟩

theorem spare (spare : f.Spare m) : g.Spare m := by
  obtain ⟨inside, plain, free⟩ := spare
  refine ⟨Nat.lt_of_lt_of_le inside later.grows.arena_le, ?_, fun n copy => ?_⟩
  · rwa [IsCopy, later.grows.arena_eq inside]
  · by_cases old : n < f.arena.size
    · exact free n (later.copyOf_old old copy)
    · exact absurd inside (Nat.not_lt.2 (later.copies (Nat.not_lt.1 old) copy).1)

theorem idle (inside : b < f.blocks.size) (idle : f.Idle b) : g.Idle b := by
  intro n m copy between
  by_cases old : n < f.arena.size
  · exact idle (later.copyOf_old old copy) (later.between_old old between)
  · exact absurd inside (Nat.not_lt.2 ((later.copies (Nat.not_lt.1 old) copy).2 b between))

theorem oneMore (more : g.OneMore b i h)
    (copies : i.op = .copy → ∀ m : Nat, (m : Value) ∈ i.args → f.arena.size ≤ m ∧
      ∀ c, h.Between m g.arena.size c → f.blocks.size ≤ c) : f.Later h where
  grows := later.grows.trans more.grows
  listed {c k} old member := by
    rcases more.listed_cases member with known | ⟨-, rfl⟩
    · exact later.listed old known
    · exact absurd later.grows.arena_le (Nat.not_le.2 old)
  copies {n m} new copy := by
    rcases more.copyOf_cases copy with known | ⟨rfl, op, used⟩
    · obtain ⟨value, blocks⟩ := later.copies new known
      exact ⟨value, fun c between => blocks c (more.between_old known.uses.lt_size between)⟩
    · exact copies op m used

end Later

end Func

end ImpCompiler
