import ImpCompiler.Live.Analysis
import ImpCompiler.Proofs.Code.Made
import Mathlib.Data.Set.Finite.Basic
import Mathlib.Order.WellFounded

/-!
# Proofs.Code.Ordering — the order that numbering gives

A block comes when its predecessors have come, or when control cannot have come to any
block that is left but from another one of them (`Func.Stuck`); then the first one in the
layout comes (`Func.order_cases`). Without a circle in the flow of control nothing gets
stuck (`Func.Orderly.not_stuck`), so predecessors come first. Whatever the flow is, all blocks
come once and their instructions get the numbers from 0 on, without a gap.
-/

namespace ImpCompiler

set_option autoImplicit false

namespace Func

variable {f : Func} {b : Nat}

def Comes (f : Func) (b c : BlockId) : Prop := f.number.order.idxOf b < f.number.order.idxOf c

instance (f : Func) (b c : BlockId) : Decidable (f.Comes b c) := inferInstanceAs (Decidable (_ < _))

/-- Control goes from the first block to the other one, which is in the layout. -/
def Edge (f : Func) (b c : BlockId) : Prop := c ∈ f.layout ∧ b ∈ (f.block c).preds

instance (f : Func) (b c : BlockId) : Decidable (f.Edge b c) := inferInstanceAs (Decidable (_ ∧ _))

/-- Every block that is left has a predecessor that is left. -/
def Stuck (f : Func) (done : List BlockId) : Prop :=
  ∀ c ∈ f.layout, c ∉ done → ∃ b ∈ (f.block c).preds, b ∉ done

/-! ## Which block comes next -/

/-- What comes behind the blocks in `before` is chosen when they are done. -/
theorem arrange_split {n b : Nat} {done rest before behind : List Nat}
    (split : f.arrange n done rest = before ++ b :: behind) :
    f.nextBlock? (before.reverse ++ done) (rest.diff before) = some b := by
  induction before generalizing n done rest with
  | nil =>
    cases n with
    | zero => cases split
    | succ n =>
      rw [arrange] at split
      cases next : f.nextBlock? done rest <;> rw [next] at split <;> cases split
      exact next
  | cons c before ih =>
    cases n with
    | zero => cases split
    | succ n =>
      rw [arrange] at split
      cases next : f.nextBlock? done rest with
      | none =>
        rw [next] at split
        cases split
      | some d =>
        rw [next] at split
        obtain ⟨rfl, split'⟩ := List.cons_eq_cons.1 split
        rw [List.reverse_cons, List.append_assoc, List.diff_cons]
        exact ih split'

/-- Once all blocks have come, more rounds change nothing. -/
theorem arrange_rounds {n : Nat} {done rest : List Nat} (enough : rest.length ≤ n) :
    f.arrange n done rest = f.arrange rest.length done rest := by
  induction n generalizing done rest with
  | zero => rw [Nat.le_zero.1 enough]
  | succ n ih =>
    cases rest with
    | nil => rfl
    | cons c rest =>
      rw [List.length_cons, arrange, arrange]
      cases next : f.nextBlock? done (c :: rest) with
      | none => rfl
      | some b =>
        have shorter : ((c :: rest).erase b).length = rest.length := by
          rw [List.length_erase_of_mem (nextBlock?_mem next)]
          rfl
        rw [List.length_cons] at enough
        have fewer := @ih (b :: done) ((c :: rest).erase b) (by omega)
        rw [shorter] at fewer
        exact congrArg (b :: ·) fewer

theorem order_perm (f : Func) : f.number.order.Perm f.layout :=
  f.arrange_perm f.layout.length [] f.layout rfl

theorem mem_order : b ∈ f.number.order ↔ b ∈ f.layout := f.order_perm.mem_iff

/-- When a block comes, its predecessors have come, or nothing is ready and it is the first
of those left. -/
theorem order_cases {before behind : List Nat} (split : f.number.order = before ++ b :: behind) :
    (∀ p ∈ (f.block b).preds, p ∈ before) ∨
      f.Stuck before ∧ (f.layout.diff before).head? = some b := by
  have next := arrange_split split
  rw [List.append_nil] at next
  rcases Option.or_eq_some_iff.1 next with found | ⟨none, first⟩
  · have ready := List.find?_some found
    exact .inl fun p comes => by simpa using List.all_eq_true.1 ready p comes
  · refine .inr ⟨fun c listed missing => ?_, first⟩
    have waits := List.find?_eq_none.1 none c (List.mem_diff_of_mem listed missing)
    simpa using waits

/-- The blocks that come before a block are those in front of it. -/
theorem order_split (listed : b ∈ f.layout) :
    ∃ before behind, f.number.order = before ++ b :: behind ∧ ∀ p, p ∈ before ↔ f.Comes p b := by
  obtain ⟨before, behind, split, fresh⟩ := List.eq_append_cons_of_mem (mem_order.2 listed)
  refine ⟨before, behind, split, fun p => ?_⟩
  rw [Comes, split, List.idxOf_append_of_notMem fresh, List.idxOf_cons_self, Nat.add_zero]
  constructor
  · intro member
    rw [List.idxOf_append_of_mem member]
    exact List.idxOf_lt_length_of_mem member
  · intro smaller
    by_contra missing
    rw [List.idxOf_append_of_notMem missing] at smaller
    omega

/-! ## Control that goes in no circle -/

/-- Where control goes in no circle, one of the blocks that are left is ready. -/
theorem Orderly.not_stuck (orderly : f.Orderly) (acyclic : ∀ b, ¬ Relation.TransGen f.Edge b b)
    {done : List Nat} (listed : b ∈ f.layout) (left : b ∉ done) : ¬ f.Stuck done := by
  intro stuck
  let earlier : {b // b ∈ f.layout} → {b // b ∈ f.layout} → Prop := fun b c =>
    Relation.TransGen f.Edge b c
  have finite : Finite {b // b ∈ f.layout} := f.layout.finite_toSet.to_subtype
  have : IsTrans _ earlier := ⟨fun _ _ _ => Relation.TransGen.trans⟩
  have : Std.Irrefl earlier := ⟨fun b => acyclic b⟩
  have descends : WellFounded earlier := Finite.wellFounded_of_trans_of_irrefl earlier
  -- An earliest block that is left would have a predecessor that is left.
  obtain ⟨⟨c, inside⟩, missing, least⟩ :=
    descends.has_min {c | c.1 ∉ done} ⟨⟨b, listed⟩, left⟩
  obtain ⟨p, goes, missing'⟩ := stuck c inside missing
  exact least ⟨p, orderly.linked c inside goes⟩ missing' (.single ⟨inside, goes⟩)

theorem Orderly.preds_come (orderly : f.Orderly) (acyclic : ∀ b, ¬ Relation.TransGen f.Edge b b)
    {b c : Nat} (edge : f.Edge b c) : f.Comes b c := by
  obtain ⟨before, behind, split, comes⟩ := order_split edge.1
  rcases order_cases split with ready | ⟨stuck, -⟩
  · exact (comes b).1 (ready b edge.2)
  · have left : c ∉ before := fun member => Nat.lt_irrefl _ ((comes c).1 member)
    exact absurd stuck (orderly.not_stuck acyclic edge.1 left)

/-! ## The entry -/

/-- Control comes to every block but the entry from another block. -/
theorem Formed.has_pred (formed : f.Formed) (listed : b ∈ f.layout) (inner : b ≠ 0) :
    (f.block b).preds ≠ [] := by
  obtain ⟨passed, route⟩ := formed.reached b listed
  cases route with
  | entry first =>
    cases formed.first.symm.trans first
    exact absurd rfl inner
  | step route goes =>
    rw [formed.preds b listed]
    exact List.ne_nil_of_mem (List.mem_filter.2 ⟨route.listed formed, by simpa using goes⟩)

/-- The entry comes first, whether control comes back to it or not. -/
theorem Formed.entry_comes (formed : f.Formed) : f.number.order.head? = some 0 := by
  have listed : 0 ∈ f.layout := List.mem_of_mem_head? formed.first
  cases order : f.number.order with
  | nil =>
    have known := mem_order.2 listed
    rw [order] at known
    cases known
  | cons b behind =>
    have listed' : b ∈ f.layout := mem_order.1 (order ▸ List.mem_cons_self)
    rcases order_cases (show f.number.order = [] ++ b :: behind from order) with ready | ⟨-, first⟩
    · have none : (f.block b).preds = [] :=
        List.eq_nil_iff_forall_not_mem.2 fun p comes => List.not_mem_nil (ready p comes)
      by_contra inner
      exact formed.has_pred listed' (by simpa using inner) none
    · rwa [List.diff_nil, formed.first, eq_comm] at first

/-! ## The numbers -/

/-- Blocks and instructions are numbered without a gap. -/
structure Dense (f : Func) : Prop where
  /-- All blocks have come after as many rounds as there are blocks. -/
  ends : ∀ rounds, f.layout.length ≤ rounds → f.arrange rounds [] f.layout = f.number.order
  perm : f.number.order.Perm f.layout
  bijective : Set.BijOn f.number.indexOf {n | n ∈ f.instrs} {k | 0 ≤ k ∧ k < f.instrs.length}
  consecutive : ∀ before b behind, f.number.order = before ++ b :: behind →
    ∀ (k n : Nat), (f.block b).instrs[k]? = some n →
      f.number.indexOf n = (before.flatMap fun c => (f.block c).instrs).length + k
  acyclic : (∀ b, ¬ Relation.TransGen f.Edge b b) → ∀ b c, f.Edge b c → f.Comes b c

theorem Orderly.indexOf_line (orderly : f.Orderly) {k n : Nat} (place : f.line[k]? = some n) :
    f.number.indexOf n = k := by
  obtain ⟨i, known, index⟩ := orderly.number_line place
  simp [indexOf, known, index]

theorem Orderly.indexOf_block (orderly : f.Orderly) {before behind : List Nat} {b k n : Nat}
    (split : f.number.order = before ++ b :: behind) (here : (f.block b).instrs[k]? = some n) :
    f.number.indexOf n = (before.flatMap fun c => (f.block c).instrs).length + k := by
  obtain ⟨i, known, index⟩ := orderly.number_block split here
  simp [indexOf, known, index]

/-- Numbering gives the instructions the numbers from zero on, each once. -/
theorem Orderly.bijective (orderly : f.Orderly) :
    Set.BijOn f.number.indexOf {n | n ∈ f.instrs} {k | 0 ≤ k ∧ k < f.instrs.length} := by
  have same : f.line.length = f.instrs.length := f.line_perm.length_eq
  have place : ∀ {n : Nat}, n ∈ f.instrs → ∃ k < f.line.length, f.line[k]? = some n := by
    intro n member
    obtain ⟨k, inside, at'⟩ := List.mem_iff_getElem.1 (f.line_perm.mem_iff.2 member)
    exact ⟨k, inside, List.getElem?_eq_some_iff.2 ⟨inside, at'⟩⟩
  refine ⟨fun n member => ?_, fun n member m member' equal => ?_, fun k range => ?_⟩
  · obtain ⟨k, inside, at'⟩ := place member
    rw [Set.mem_ofPred_eq, orderly.indexOf_line at']
    omega
  · obtain ⟨k, -, at'⟩ := place member
    obtain ⟨l, -, at''⟩ := place member'
    rw [orderly.indexOf_line at', orderly.indexOf_line at''] at equal
    rw [Int.ofNat_inj.1 equal] at at'
    exact Option.some.inj (at'.symm.trans at'')
  · obtain ⟨k, rfl⟩ := Int.eq_ofNat_of_zero_le range.1
    have inside : k < f.line.length := by
      have := range.2
      omega
    have at' := List.getElem?_eq_getElem inside
    exact ⟨_, f.line_perm.mem_iff.1 (List.mem_of_getElem? at'), orderly.indexOf_line at'⟩

/-- Numbering ends and lays out the blocks in a line, each once, and the instructions get the
numbers from 0 on along that line; where control goes in no circle predecessors come first.
That holds of every function that calls make, and of what is left of it when dead code is
removed: there the entry comes first. -/
theorem numbering_is_a_dense_layout :
    (∀ f : Func, f.Orderly → f.Dense) ∧
      (∀ f : Func, f.Made → f.Orderly ∧ (0 < f.blocks.size → f.Laid)) ∧
      ∀ f g : Func, f.Laid → f.buildFlow = (g, none) →
        g.Orderly ∧ ∃ e, g.entry = .ok e ∧ g.number.order.head? = some e := by
  refine ⟨fun f orderly => ?_, fun f made => ⟨made.orderly, made.laid⟩, fun f g laid built => ?_⟩
  · exact ⟨fun _ enough => arrange_rounds enough, f.order_perm, orderly.bijective,
      fun _ _ _ split _ _ here => orderly.indexOf_block split here,
      fun free _ _ edge => orderly.preds_come free edge⟩
  · have formed := (laid.trims built).formed
    obtain ⟨rest, layout⟩ := List.head?_eq_some_iff.1 formed.first
    exact ⟨formed.orderly, 0, by simp [Func.entry, layout], formed.entry_comes⟩

/-- A function that control enters in the middle of a circle, and comes back to the entry of. -/
def tangledCalls : List Call :=
  [.function "tangled" .void [], .block 0 0, .block 0 1, .block 0 2, .instr 0 0 (.bool true),
    .instr 0 0 (.condBranch (.own 0) (.own 1) (.own 2)), .instr 0 1 (.bool false),
    .instr 0 1 (.condBranch (.own 2) (.own 2) (.own 0)), .instr 0 2 (.branch (.own 1))]

theorem tangled_is_dense : ∃ f g : Func, f ∈ ((Module.empty "m").after tangledCalls).functions ∧
    f.buildFlow = (g, none) ∧ (g.Edge 1 2 ∧ g.Edge 2 1 ∧ g.Edge 1 0) ∧ g.Orderly ∧ g.Dense := by
  have facts : ((Module.empty "m").after tangledCalls).functions.head?.map (fun f =>
      (f.buildFlow.2.isNone, decide (0 < f.blocks.size),
        decide (f.buildFlow.1.Edge 1 2 ∧ f.buildFlow.1.Edge 2 1 ∧ f.buildFlow.1.Edge 1 0))) =
      some (true, true, true) := by decide
  obtain ⟨f, first, facts⟩ := Option.map_eq_some_iff.1 facts
  simp only [Prod.mk.injEq, decide_eq_true_eq] at facts
  obtain ⟨ends, blocks, edges⟩ := facts
  have member := List.mem_of_mem_head? first
  have flow : f.buildFlow = (f.buildFlow.1, none) := Prod.ext rfl (Option.isNone_iff_eq_none.1 ends)
  obtain ⟨all, made, built⟩ := numbering_is_a_dense_layout
  have orderly := (built f _ ((made f ⟨"m", tangledCalls, member⟩).2 blocks) flow).1
  exact ⟨f, _, member, flow, edges, orderly, all _ orderly⟩

end Func

end ImpCompiler
