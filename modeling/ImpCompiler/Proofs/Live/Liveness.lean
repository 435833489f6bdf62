import ImpCompiler.Live.Analysis
import ImpCompiler.Proofs.Basics
import Mathlib.Data.List.Perm.Subperm
import Mathlib.Logic.Relation

/-!
# Proofs.Live.Liveness — the live values of blocks

A sequence of instructions needs a value if it uses the value before it computes it, or
leaves the value alone and is followed by code that needs it. The values that are live at
the start of blocks are the least solution of this: a block has the values that it needs
when the values of its successors are needed behind it (`liveIn_closed`), and it has no
others (`liveIn_least`). Both hold wherever rounds lead that pass values on to all blocks, in
any order (`Func.Sweeps`), once a round changes nothing. The rounds of `iterateLive` suffice
for that, because every round but the last makes a set longer and a set has no value twice.
-/

namespace ImpCompiler

set_option autoImplicit false

namespace Func

variable {f : Func} {v : Value} {live : LiveSets} {b : Nat} {vs : List Value}

def Computes (f : Func) (n : Nat) (v : Value) : Prop :=
  v = (n : Value) ∧ (f.arena[n]?).any Instr.hasValue = true

/-- Instructions need a value, where the values of `out` are needed behind them. -/
def Needs (f : Func) (out : Value → Prop) : List Nat → Value → Prop
  | [], v => out v
  | n :: rest, v =>
    (∃ i, f.arena[n]? = some i ∧ v ∈ i.args) ∨ (¬ f.Computes n v ∧ f.Needs out rest v)

section Needs

variable {out : Value → Prop} {ns : List Nat}

/-- What is needed is used here or needed behind and left alone. -/
theorem needs_iff : f.Needs out ns v ↔
    f.Needs (fun _ => False) ns v ∨ (out v ∧ ∀ n ∈ ns, ¬ f.Computes n v) := by
  induction ns with
  | nil => simp [Needs]
  | cons n ns ih =>
    rw [Needs, Needs, ih, List.forall_mem_cons, and_or_left, or_assoc, and_left_comm]

/-- What is needed before some code is needed behind it or used in it. -/
theorem Needs.cases (needed : f.Needs out ns v) :
    out v ∨ ∃ n ∈ ns, ∃ i, f.arena[n]? = some i ∧ v ∈ i.args := by
  induction ns with
  | nil => exact .inl needed
  | cons n ns ih =>
    rcases needed with used | ⟨-, later⟩
    · exact .inr ⟨n, by simp, used⟩
    · refine (ih later).imp id fun ⟨m, member, used⟩ => ⟨m, ?_, used⟩
      exact List.mem_cons_of_mem n member

end Needs

/-- The operands that code needs from before it. -/
theorem mem_exposed {defs : List Value} {ns : List Nat} :
    v ∈ f.exposed defs ns ↔ v ∉ defs ∧ f.Needs (fun _ => False) ns v := by
  induction ns generalizing defs with
  | nil => simp [exposed, Needs]
  | cons n ns ih =>
    cases known : f.arena[n]? with
    | none => simp [exposed, Needs, Computes, known, ih]
    | some i =>
      have rest : v ∈ f.exposed (if i.hasValue then (n : Value) :: defs else defs) ns ↔
          v ∉ defs ∧ ¬ f.Computes n v ∧ f.Needs (fun _ => False) ns v := by
        rw [ih]
        cases value : i.hasValue <;> simp [Computes, known, value]
        tauto
      simp only [exposed, known, List.mem_append, List.mem_filter, rest, Needs,
        Option.some.injEq, exists_eq_left', Bool.not_eq_true', List.contains_eq_mem,
        decide_eq_false_iff_not]
      tauto

theorem mem_seeds : v ∈ f.seeds b ↔ f.Needs (fun _ => False) (f.block b).instrs v := by
  rw [seeds, (sorted_perm _).mem_iff, List.mem_eraseDups, mem_exposed]
  simp

theorem mem_defs : v ∈ f.defs b ↔ ∃ n ∈ (f.block b).instrs, f.Computes n v := by
  simp only [defs, Computes, List.mem_map, List.mem_filter, Int.ofNat_eq_natCast]
  constructor
  · rintro ⟨n, ⟨member, value⟩, rfl⟩
    exact ⟨n, member, rfl, value⟩
  · rintro ⟨n, member, rfl, value⟩
    exact ⟨n, ⟨member, value⟩, rfl⟩

/-! ## Sets of values as lists -/

section InsertAll

variable {s vs : List Value}

theorem mem_insertAll : v ∈ insertAll s vs ↔ v ∈ s ∨ v ∈ vs := by
  unfold insertAll
  induction vs generalizing s with
  | nil => simp
  | cons w vs ih =>
    rw [List.foldl_cons, ih]
    split
    · rename_i member
      have : w ∈ s := by simpa using member
      simp only [List.mem_cons]
      constructor
      · tauto
      · rintro (old | rfl | new)
        · exact .inl old
        · exact .inl this
        · exact .inr new
    · simp only [List.mem_append, List.mem_cons, List.not_mem_nil, or_false, or_assoc]

theorem prefix_insertAll : s <+: insertAll s vs := by
  unfold insertAll
  induction vs generalizing s with
  | nil => exact List.prefix_refl s
  | cons w vs ih =>
    rw [List.foldl_cons]
    split
    · exact ih
    · exact (List.prefix_append s [w]).trans ih

theorem nodup_insertAll (once : s.Nodup) : (insertAll s vs).Nodup := by
  unfold insertAll
  induction vs generalizing s with
  | nil => exact once
  | cons w vs ih =>
    rw [List.foldl_cons]
    split
    · exact ih once
    · rename_i new
      refine ih (List.nodup_append.2 ⟨once, by simp, ?_⟩)
      rintro a old _ same rfl
      cases List.mem_singleton.1 same
      simp [old] at new

theorem mem_liveOut {live : LiveSets} {b : Nat} :
    v ∈ f.liveOut live b ↔ ∃ c ∈ (f.block b).succs, v ∈ live.getD c [] := by
  simp [liveOut, mem_insertAll, List.mem_flatMap]

end InsertAll

/-! ## Rounds -/

/-- Values are passed on to a block, except those that it defines. -/
def passTo (f : Func) (live : LiveSets) (b : BlockId) (vs : List Value) : LiveSets :=
  live.modify b fun s => insertAll s (vs.filter fun v => !(f.defs b).contains v)

/-- A round goes through blocks; to each of them the values of its successors are passed on,
in any order. -/
inductive Round (f : Func) : List BlockId → LiveSets → LiveSets → Prop
  | done {live : LiveSets} : Round f [] live live
  | visit {b : BlockId} {bs : List BlockId} {vs : List Value} {live last : LiveSets}
      (values : ∀ v, v ∈ vs ↔ ∃ c ∈ (f.block b).succs, v ∈ live.getD c [])
      (rest : Round f bs (f.passTo live b vs) last) : Round f (b :: bs) live last

/-- A round goes through all blocks of the function, in any order. -/
def Sweeps (f : Func) (live next : LiveSets) : Prop :=
  ∃ order : List BlockId, order.Perm f.layout ∧ f.Round order live next

theorem sweeps_updateBlocks (live : LiveSets) : f.Sweeps live (f.updateBlocks live) := by
  have all : ∀ (bs : List BlockId) (live : LiveSets),
      f.Round bs live (bs.foldl f.updateBlock live) := by
    intro bs
    induction bs with
    | nil => exact fun _ => .done
    | cons b bs ih => exact fun live => .visit (fun v => mem_liveOut) (ih (f.updateBlock live b))
  exact ⟨_, f.layout.reverse_perm, all _ live⟩

/-- The sets of a block and what is passed on to it. -/
theorem passTo_getD {b c : Nat} : (f.passTo live b vs).getD c [] =
    if b = c ∧ c < live.size then
      insertAll (live.getD c []) (vs.filter fun v => !(f.defs b).contains v)
    else live.getD c [] := by
  simp only [passTo, Array.getD_eq_getD_getElem?, Array.getElem?_modify]
  by_cases same : b = c
  · by_cases inside : c < live.size
    · simp [same, inside]
    · simp [same, inside]
  · simp [same]

theorem mem_passTo {b c : Nat} (member : v ∈ (f.passTo live b vs).getD c []) :
    v ∈ live.getD c [] ∨ (c = b ∧ v ∈ vs ∧ v ∉ f.defs b) := by
  rw [passTo_getD] at member
  split at member
  · rename_i here
    rcases mem_insertAll.1 member with old | new
    · exact .inl old
    · exact .inr ⟨here.1.symm, by simpa using List.mem_filter.1 new⟩
  · exact .inl member

theorem mem_passTo_of_mem {b c : Nat}
    (member : v ∈ live.getD c []) : v ∈ (f.passTo live b vs).getD c [] := by
  rw [passTo_getD]
  split
  · exact mem_insertAll.2 (.inl member)
  · exact member

/-- The lists of `ys` go on from those of `xs`. -/
def GoesOn (xs ys : List (List Value)) : Prop := List.Forall₂ (· <+: ·) xs ys

namespace GoesOn

variable {xs ys zs : List (List Value)} {live next : LiveSets}

theorem refl (xs : List (List Value)) : GoesOn xs xs :=
  List.forall₂_same.2 fun s _ => List.prefix_refl s

theorem trans (first : GoesOn xs ys) (second : GoesOn ys zs) : GoesOn xs zs := by
  induction first generalizing zs with
  | nil => exact second
  | cons here _ ih =>
    cases second with
    | cons here' rest => exact .cons (here.trans here') (ih rest)

theorem length_le (goesOn : GoesOn xs ys) : xs.flatten.length ≤ ys.flatten.length := by
  induction goesOn with
  | nil => exact Nat.le_refl 0
  | cons here _ ih =>
    have := here.length_le
    simp only [List.flatten_cons, List.length_append]
    omega

/-- Lists that go on with nothing more are the same. -/
theorem eq_of_length_le (goesOn : GoesOn xs ys) (short : ys.flatten.length ≤ xs.flatten.length) :
    xs = ys := by
  induction goesOn with
  | nil => rfl
  | cons here rest ih =>
    have first := here.length_le
    have others := length_le rest
    simp only [List.flatten_cons, List.length_append] at short
    rw [here.eq_of_length_le (by omega), ih (by omega)]

theorem passTo (f : Func) (live : LiveSets) (b : Nat) (vs : List Value) :
    GoesOn live.toList (f.passTo live b vs).toList := by
  unfold GoesOn Func.passTo
  rw [Array.toList_modify]
  generalize live.toList = xs, vs.filter _ = vs
  induction xs generalizing b with
  | nil => simp
  | cons s xs ih =>
    cases b with
    | zero => exact .cons prefix_insertAll (refl xs)
    | succ b => simpa using ih b

theorem round {bs : List Nat} (round : f.Round bs live next) : GoesOn live.toList next.toList := by
  induction round with
  | done => exact refl _
  | visit _ _ ih => exact (passTo f _ _ _).trans ih

/-- A round that changes something makes the sets longer. -/
theorem length_lt (sweeps : f.Sweeps live next) (changed : next ≠ live) :
    live.toList.flatten.length < next.toList.flatten.length := by
  obtain ⟨order, -, round⟩ := sweeps
  by_contra short
  exact changed (Array.toList_inj.1 ((GoesOn.round round).eq_of_length_le (Nat.not_lt.1 short))).symm

end GoesOn

/-- If a round changes nothing, none of its steps does. -/
theorem Round.unchanged {bs : List Nat} {live last : LiveSets} (round : f.Round bs live last)
    (same : last = live) (visited : b ∈ bs) :
    ∃ vs, (∀ v, v ∈ vs ↔ ∃ c ∈ (f.block b).succs, v ∈ live.getD c []) ∧
      f.passTo live b vs = live := by
  induction round with
  | done => cases visited
  | @visit c bs vs live last values rest ih =>
    subst same
    have first : f.passTo last c vs = last :=
      Array.toList_inj.1 ((GoesOn.round rest).eq_of_length_le (GoesOn.passTo f last c vs).length_le)
    rcases List.mem_cons.1 visited with rfl | later
    · exact ⟨vs, values, first⟩
    · obtain ⟨us, values', same⟩ := ih first.symm later
      rw [first] at values' same
      exact ⟨us, values', same⟩

/-- If a round changes nothing, blocks have what their successors have. -/
theorem Sweeps.closed (stable : f.Sweeps live live) (listed : b ∈ f.layout)
    (inside : b < live.size) (out : v ∈ f.liveOut live b) (other : v ∉ f.defs b) :
    v ∈ live.getD b [] := by
  obtain ⟨order, all, round⟩ := stable
  obtain ⟨vs, values, same⟩ := round.unchanged rfl (all.mem_iff.2 listed)
  rw [← same, passTo_getD, if_pos ⟨rfl, inside⟩]
  refine mem_insertAll.2 (.inr (List.mem_filter.2 ⟨?_, by simpa using other⟩))
  exact (values v).2 (mem_liveOut.1 out)

/-- The sets that rounds lead to from the seeds. -/
def Reached (f : Func) (live : LiveSets) : Prop := Relation.ReflTransGen f.Sweeps f.seedSets live

/-- What passing values on preserves holds wherever rounds lead. -/
theorem Reached.preserves {P : LiveSets → Prop} (reached : f.Reached live) (start : P f.seedSets)
    (step : ∀ live, ∀ b ∈ f.layout, ∀ vs, (∀ v ∈ vs, v ∈ f.liveOut live b) → P live →
      P (f.passTo live b vs)) : P live := by
  have rounds : ∀ {bs : List Nat} {live next : LiveSets}, f.Round bs live next →
      (∀ b ∈ bs, b ∈ f.layout) → P live → P next := by
    intro bs live next round
    induction round with
    | done => exact fun _ => id
    | @visit b bs vs live last values _ ih =>
      intro listed holds
      obtain ⟨here, others⟩ := List.forall_mem_cons.1 listed
      exact ih others (step live b here vs (fun v member => mem_liveOut.2 ((values v).1 member)) holds)
  induction reached with
  | refl => exact start
  | tail _ sweeps ih =>
    obtain ⟨order, all, round⟩ := sweeps
    exact rounds round (fun b => all.mem_iff.1) ih

/-! ## Enough rounds -/

/-- Sets without repetitions, with values of `vs` only. -/
structure Within (f : Func) (vs : List Value) (live : LiveSets) : Prop where
  size : live.size = f.blocks.size
  once : ∀ s ∈ live.toList, s.Nodup
  values : ∀ s ∈ live.toList, s ⊆ vs

namespace Within

variable {vs : List Value} {live : LiveSets}

theorem getD (within : f.Within vs live) (b : Nat) : live.getD b [] ⊆ vs := by
  rw [Array.getD_eq_getD_getElem?]
  cases known : live[b]? with
  | none => simp
  | some s => exact within.values s (Array.mem_toList_iff.2 (Array.mem_of_getElem? known))

theorem passTo (within : f.Within vs live) (b : Nat) {us : List Value}
    (out : ∀ v ∈ us, v ∈ f.liveOut live b) : f.Within vs (f.passTo live b us) := by
  have cases : ∀ s ∈ (f.passTo live b us).toList, s ∈ live.toList ∨ ∃ old ∈ live.toList,
      s = insertAll old (us.filter fun v => !(f.defs b).contains v) := by
    intro s member
    obtain ⟨c, known⟩ := List.mem_iff_getElem?.1 member
    rw [Func.passTo, Array.toList_modify, List.getElem?_modify] at known
    obtain ⟨old, before, rfl⟩ := Option.map_eq_some_iff.1 known
    have old' := List.mem_of_getElem? before
    split
    · exact .inr ⟨old, old', rfl⟩
    · exact .inl old'
  refine ⟨by simpa [Func.passTo] using within.size, fun s member => ?_, fun s member => ?_⟩
  · rcases cases s member with old | ⟨old, known, rfl⟩
    · exact within.once s old
    · exact nodup_insertAll (within.once old known)
  · rcases cases s member with old | ⟨old, known, rfl⟩
    · exact within.values s old
    · intro v inserted
      rcases mem_insertAll.1 inserted with before | new
      · exact within.values old known before
      · obtain ⟨c, -, passed⟩ := mem_liveOut.1 (out v (List.mem_of_mem_filter new))
        exact within.getD c passed

theorem total_le (within : f.Within vs live) :
    live.toList.flatten.length ≤ f.blocks.size * vs.length := by
  have each : ∀ s ∈ live.toList, s.length ≤ vs.length := fun s member =>
    (List.subperm_of_subset (within.once s member) (within.values s member)).length_le
  rw [← within.size, ← Array.length_toList]
  generalize live.toList = xs at each
  induction xs with
  | nil => simp
  | cons s xs ih =>
    obtain ⟨first, others⟩ := List.forall_mem_cons.1 each
    have rest := ih others
    rw [List.flatten_cons, List.length_append, List.length_cons, Nat.succ_mul]
    omega

end Within

theorem seedSets_getD (inside : b < f.blocks.size) (listed : b ∈ f.layout) :
    f.seedSets.getD b [] = f.seeds b := by
  simp [seedSets, Array.getD_eq_getD_getElem?, inside, listed]

theorem seedSets_within : f.Within f.seedSets.toList.flatten f.seedSets := by
  refine ⟨by simp [seedSets], fun s member => ?_, fun s member v known => ?_⟩
  · obtain ⟨b, known⟩ := List.mem_iff_getElem?.1 member
    rw [Array.getElem?_toList, seedSets, Array.getElem?_mapIdx] at known
    obtain ⟨x, -, rfl⟩ := Option.map_eq_some_iff.1 known
    split
    · exact (sorted_perm _).nodup_iff.2 (nodup_eraseDups _)
    · exact .nil
  · exact List.mem_flatten.2 ⟨s, member, known⟩

theorem Reached.within (reached : f.Reached live) : f.Within f.seedSets.toList.flatten live :=
  reached.preserves seedSets_within fun _ b _ _ out within => within.passTo b out

/-- Repeated rounds are rounds. -/
theorem Reached.iterateLive (n : Nat) (reached : f.Reached live) :
    f.Reached (f.iterateLive n live) := by
  induction n generalizing live with
  | zero => exact reached
  | succ n ih =>
    rw [Func.iterateLive]
    split
    · exact reached
    · exact ih (reached.tail (sweeps_updateBlocks live))

/-- Enough rounds lead to sets that a further round does not change. -/
theorem iterateLive_stable (n : Nat) (reached : f.Reached live)
    (enough : f.blocks.size * f.seedSets.toList.flatten.length < live.toList.flatten.length + n) :
    f.updateBlocks (f.iterateLive n live) = f.iterateLive n live := by
  induction n generalizing live with
  | zero =>
    have := reached.within.total_le
    omega
  | succ n ih =>
    rw [iterateLive]
    split
    · assumption
    · rename_i changed
      have grows := GoesOn.length_lt (sweeps_updateBlocks live) changed
      exact ih (reached.tail (sweeps_updateBlocks live)) (by omega)

/-! ## The live values -/

/-- Where rounds lead, a block has no values but those that it needs. -/
theorem Reached.least (reached : f.Reached live) {P : Nat → Value → Prop}
    (closed : ∀ b ∈ f.layout, ∀ v,
      f.Needs (fun v => ∃ c ∈ (f.block b).succs, P c v) (f.block b).instrs v → P b v)
    (member : v ∈ live.getD b []) : P b v := by
  refine reached.preserves (P := fun live => ∀ b v, v ∈ live.getD b [] → P b v) ?_ ?_ b v member
  · intro b v member
    by_cases inside : b < f.blocks.size ∧ b ∈ f.layout
    · rw [seedSets_getD inside.1 inside.2] at member
      exact closed b inside.2 v (needs_iff.2 (.inl (mem_seeds.1 member)))
    · simp only [seedSets, Array.getD_eq_getD_getElem?, Array.getElem?_mapIdx] at member
      by_cases known : b < f.blocks.size
      · have dropped : b ∉ f.layout := fun listed => inside ⟨known, listed⟩
        simp [known, dropped] at member
      · simp [known] at member
  · intro live b listed vs out holds c v member
    rcases mem_passTo member with old | ⟨rfl, new, leftAlone⟩
    · exact holds c v old
    · obtain ⟨d, goes, passed⟩ := mem_liveOut.1 (out v new)
      refine closed c listed v (needs_iff.2 (.inr ⟨⟨d, goes, holds d v passed⟩, ?_⟩))
      exact fun n member computes => leftAlone (mem_defs.2 ⟨n, member, computes⟩)

/-- Where a further round changes nothing, a block has the values that it needs. -/
theorem Reached.closed (reached : f.Reached live) (stable : f.Sweeps live live)
    (inside : b < f.blocks.size) (listed : b ∈ f.layout)
    (needed : f.Needs (· ∈ f.liveOut live b) (f.block b).instrs v) : v ∈ live.getD b [] := by
  rcases needs_iff.1 needed with used | ⟨out, leftAlone⟩
  · -- what a block uses is there from the start
    refine reached.preserves (P := fun live => v ∈ live.getD b []) ?_
      fun live c _ vs _ => mem_passTo_of_mem
    rw [seedSets_getD inside listed]
    exact mem_seeds.2 used
  · -- what its successors need was passed on
    refine stable.closed listed (reached.within.size ▸ inside) out fun computed => ?_
    obtain ⟨n, member, computes⟩ := mem_defs.1 computed
    exact leftAlone n member computes

theorem reached_liveIn (f : Func) : f.Reached f.liveIn := Reached.iterateLive _ .refl

theorem updateBlocks_liveIn (f : Func) : f.updateBlocks f.liveIn = f.liveIn :=
  iterateLive_stable _ .refl (by omega)

theorem sweeps_liveIn (f : Func) : f.Sweeps f.liveIn f.liveIn := by
  have sweeps := sweeps_updateBlocks (f := f) f.liveIn
  rwa [updateBlocks_liveIn] at sweeps

/-- A block has the values that it needs. -/
theorem liveIn_closed (inside : ∀ b ∈ f.layout, b < f.blocks.size) (listed : b ∈ f.layout)
    (needed : f.Needs (· ∈ f.liveOut f.liveIn b) (f.block b).instrs v) : v ∈ f.liveIn.getD b [] :=
  (reached_liveIn f).closed (sweeps_liveIn f) (inside b listed) listed needed

/-- A block has no values but those that it needs. -/
theorem liveIn_least {P : Nat → Value → Prop} (closed : ∀ b ∈ f.layout, ∀ v,
      f.Needs (fun v => ∃ c ∈ (f.block b).succs, P c v) (f.block b).instrs v → P b v)
    (live : v ∈ f.liveIn.getD b []) : P b v :=
  (reached_liveIn f).least closed live

end Func

end ImpCompiler
