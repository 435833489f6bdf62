import ImpCompiler.Proofs.Code.Numbering
import ImpCompiler.Proofs.Live.Classes
import ImpCompiler.Proofs.Live.Liveness

/-!
# Proofs.Live.Ranges — live ranges hold the numbers at which values are live

A value is live at the number of the instruction that computes it (`own_range`) and at the
numbers of instructions behind which it is needed (`needed_range`). For both it matters
that values are computed before they are used, whichever way control takes: a value
that is needed at a point of a block was computed in the block before that point, or in
another block.
-/

namespace ImpCompiler

set_option autoImplicit false

namespace Func

variable {f : Func} {v : Value} {b n : Nat} {i : Instr}

/-- The instructions of a block of the layout have consecutive numbers. -/
def Numbered (f : Func) : Prop :=
  ∀ b ∈ f.layout, ∃ base : Nat, ∀ {k n : Nat}, (f.block b).instrs[k]? = some n →
    ∃ i, f.arena[n]? = some i ∧ i.index = some (base + k)

theorem Formed.numbered (formed : f.Formed) : f.number.Numbered := by
  intro b listed
  obtain ⟨base, index⟩ := formed.number_index (f.annotates_number.layout ▸ listed)
  exact ⟨base, fun here => index (f.annotates_number.block b ▸ here)⟩

/-- Instructions of a block have increasing numbers. -/
theorem Numbered.increasing (numbered : f.Numbered) (listed : b ∈ f.layout) :
    (f.block b).instrs.Pairwise fun m n => f.indexOf m < f.indexOf n := by
  obtain ⟨base, index⟩ := numbered b listed
  have at' : ∀ {k n : Nat}, (f.block b).instrs[k]? = some n → f.indexOf n = base + k := by
    intro k n here
    obtain ⟨i, known, index⟩ := index here
    simp [indexOf, known, index]
  rw [List.pairwise_iff_getElem]
  intro j k hj hk before
  rw [at' (List.getElem?_eq_getElem hj), at' (List.getElem?_eq_getElem hk)]
  omega

/-! ## Where values come from -/

theorem Formed.operand (formed : f.Formed) (known : f.arena[n]? = some i)
    (used : v ∈ i.args) : ∃ m : Nat, v = (m : Value) ∧ f.Computes m v := by
  obtain ⟨m, j, rfl, known', value⟩ := formed.values.operand n i known v used
  exact ⟨m, rfl, rfl, by simp [known', value]⟩

/-- A value that is needed at a point of a block is there: it was computed before that
point or comes from outside. -/
theorem Dominated.needed (dominated : f.Dominated) (formed : f.Formed) (listed : b ∈ f.layout)
    {out : Value → Prop} {before rest : List Nat} (whole : (f.block b).instrs = before ++ rest)
    (leaves : ∀ v, out v → ∃ m : Nat, f.Computes m v ∧ (f.Passed b m ∨ m ∈ (f.block b).instrs))
    (needed : f.Needs out rest v) : ∃ m : Nat, f.Computes m v ∧ (f.Passed b m ∨ m ∈ before) := by
  induction rest generalizing before with
  | nil =>
    obtain ⟨m, computes, there⟩ := leaves v needed
    exact ⟨m, computes, by simpa [whole] using there⟩
  | cons n rest ih =>
    rcases needed with ⟨i, known, used⟩ | ⟨leftAlone, needed⟩
    · obtain ⟨m, rfl, computes⟩ := formed.operand known used
      exact ⟨m, computes, dominated.operand listed whole known used⟩
    · obtain ⟨m, computes, there⟩ := ih
        (show _ = (before ++ [n]) ++ rest by simp [whole]) needed
      refine ⟨m, computes, there.imp id fun member => ?_⟩
      rcases List.mem_append.1 member with earlier | here
      · exact earlier
      · cases List.mem_singleton.1 here
        exact absurd computes leftAlone

/-- What is live at the start of a block is there when control gets to it. -/
theorem Dominated.liveIn (dominated : f.Dominated) (formed : f.Formed)
    (live : v ∈ f.liveIn.getD b []) : ∃ m : Nat, f.Computes m v ∧ f.Passed b m := by
  refine liveIn_least (P := fun b v => ∃ m : Nat, f.Computes m v ∧ f.Passed b m) ?_ live
  intro b listed v needed
  have leaves : ∀ v, (∃ c ∈ (f.block b).succs, ∃ m : Nat, f.Computes m v ∧ f.Passed c m) →
      ∃ m : Nat, f.Computes m v ∧ (f.Passed b m ∨ m ∈ (f.block b).instrs) := by
    rintro v ⟨c, goes, m, computes, there⟩
    exact ⟨m, computes, there.leaves (formed.succs b listed ▸ goes)⟩
  obtain ⟨m, computes, there⟩ :=
    dominated.needed formed listed (List.nil_append _).symm leaves needed
  exact ⟨m, computes, there.resolve_right (by simp)⟩

/-- What is live at the end of a block is there. -/
theorem Dominated.liveOut (dominated : f.Dominated) (formed : f.Formed) (listed : b ∈ f.layout)
    (v : Value) (live : v ∈ f.liveOut f.liveIn b) :
    ∃ m : Nat, f.Computes m v ∧ (f.Passed b m ∨ m ∈ (f.block b).instrs) := by
  obtain ⟨c, goes, live⟩ := mem_liveOut.1 live
  obtain ⟨m, computes, there⟩ := dominated.liveIn formed live
  exact ⟨m, computes, there.leaves (formed.succs b listed ▸ goes)⟩

/-! ## The ranges of a block -/

theorem liveFrom_own (known : f.arena[n]? = some i) (owner : i.block = some b)
    (start : Int) : f.liveFrom b start n = f.indexOf n := by
  have found : f.instr? (n : Value) = some i := known
  rw [liveFrom, indexOf, found, known]
  simp only [owner, if_true, Option.bind_some]
  cases i.index <;> rfl

theorem liveFrom_other (known : f.arena[n]? = some i) (owner : i.block ≠ some b)
    (start : Int) : f.liveFrom b start n = start := by
  have found : f.instr? (n : Value) = some i := known
  rw [liveFrom, found]
  exact if_neg owner

section Backward

variable {start : Int} {live : List Value} {ns : List Nat} {i : Instr}

/-- The operands of an instruction that are not live behind it. -/
def lastUses (live : List Value) (i : Instr) : List Value :=
  (i.args.filter fun v => !live.contains v).eraseDups

theorem mem_lastUses : v ∈ lastUses live i ↔ v ∈ i.args ∧ v ∉ live := by
  simp [lastUses, List.mem_eraseDups]

/-- Where the range of a value ends that instruction `n` is the last to use. -/
def useEnd (f : Func) (n : Nat) (i : Instr) : Int :=
  if i.op = .copy then f.indexOf n else f.indexOf n + 1

theorem indexOf_le_useEnd : f.indexOf n ≤ f.useEnd n i := by
  unfold useEnd
  split <;> omega

theorem useEnd_le_useEnd {m : Nat} {j : Instr} (before : f.indexOf n < f.indexOf m) :
    f.useEnd n i ≤ f.useEnd m j := by
  unfold useEnd
  split <;> split <;> omega

theorem rangesBackward_none (known : f.arena[n]? = none) :
    f.rangesBackward b start live (n :: ns) = f.rangesBackward b start live ns := by
  rw [rangesBackward, known]

/-- The ranges that an instruction adds: those of the values that it is the last to use,
and its own if it is never used in the rest of the block. -/
theorem mem_rangesBackward_some (known : f.arena[n]? = some i) {r : Range} :
    (v, r) ∈ f.rangesBackward b start live (n :: ns) ↔
      (v ∈ lastUses live i ∧ r = ⟨f.liveFrom b start v, f.useEnd n i⟩) ∨
      ((v = (n : Value) ∧ i.hasValue = true ∧ (n : Value) ∉ lastUses live i ++ live) ∧
        r = ⟨f.indexOf n, f.indexOf n + 1⟩) ∨
      (v, r) ∈ f.rangesBackward b start (lastUses live i ++ live) ns := by
  have whole : f.rangesBackward b start live (n :: ns) =
      ((lastUses live i).map fun v => (v, Range.mk (f.liveFrom b start v) (f.useEnd n i))) ++
        (if i.hasValue && !(lastUses live i ++ live).contains (n : Value) then
          [((n : Value), Range.mk (f.indexOf n) (f.indexOf n + 1))] else []) ++
        f.rangesBackward b start (lastUses live i ++ live) ns := by
    rw [rangesBackward, known]
    rfl
  rw [whole, List.append_assoc, List.mem_append, List.mem_append, List.mem_map]
  refine or_congr ⟨?_, ?_⟩ (or_congr ?_ .rfl)
  · rintro ⟨w, last, same⟩
    cases same
    exact ⟨last, rfl⟩
  · rintro ⟨last, rfl⟩
    exact ⟨v, last, rfl⟩
  · split
    · rename_i own
      rw [Bool.and_eq_true, Bool.not_eq_true', List.contains_eq_mem, decide_eq_false_iff_not] at own
      simp only [List.mem_singleton, Prod.mk.injEq, own.1, own.2, not_false_eq_true, and_true]
    · rename_i used
      rw [Bool.and_eq_true, Bool.not_eq_true', List.contains_eq_mem, decide_eq_false_iff_not] at used
      exact iff_of_false (by simp) fun own => used own.1.2

/-- The values that an instruction uses are live up to it, from where they start to be live
in the block. -/
theorem rangesBackward_use (order : ns.Pairwise fun m n => f.indexOf n < f.indexOf m)
    (member : n ∈ ns) (known : f.arena[n]? = some i) (used : v ∈ i.args) :
    v ∈ live ∨ ∃ u, (v, ⟨f.liveFrom b start v, u⟩) ∈ f.rangesBackward b start live ns ∧
      f.useEnd n i ≤ u := by
  induction ns generalizing live with
  | nil => cases member
  | cons m ns ih =>
    obtain ⟨first, order⟩ := List.pairwise_cons.1 order
    cases known' : f.arena[m]? with
    | none =>
      rw [rangesBackward_none known']
      refine ih order ((List.mem_cons.1 member).resolve_left ?_)
      rintro rfl
      rw [known] at known'
      cases known'
    | some j =>
      have last : v ∈ lastUses live j → f.useEnd n i ≤ f.useEnd m j →
          ∃ u, (v, ⟨f.liveFrom b start v, u⟩) ∈ f.rangesBackward b start live (m :: ns) ∧
            f.useEnd n i ≤ u := fun last before =>
        ⟨_, (mem_rangesBackward_some known').2 (.inl ⟨last, rfl⟩), before⟩
      by_cases new : v ∈ live
      · exact .inl new
      · refine .inr ?_
        rcases List.mem_cons.1 member with rfl | member
        · rw [known] at known'
          cases known'
          exact last (mem_lastUses.2 ⟨used, new⟩) (Int.le_refl _)
        · rcases ih order member with (there : _ ∈ lastUses live j ++ live) | ⟨u, range, bound⟩
          · exact last ((List.mem_append.1 there).resolve_right new)
              (useEnd_le_useEnd (first n member))
          · exact ⟨u, (mem_rangesBackward_some known').2 (.inr (.inr range)), bound⟩

/-- A value is live at the number of its instruction. -/
theorem rangesBackward_own (order : ns.Pairwise fun m n => f.indexOf n < f.indexOf m)
    (member : n ∈ ns) (known : f.arena[n]? = some i) (value : i.hasValue = true)
    (owner : i.block = some b) (other : (n : Value) ∉ i.args) :
    (n : Value) ∈ live ∨ ∃ u, ((n : Value), ⟨f.liveFrom b start n, u⟩) ∈
      f.rangesBackward b start live ns ∧ f.indexOf n < u := by
  induction ns generalizing live with
  | nil => cases member
  | cons m ns ih =>
    obtain ⟨first, order⟩ := List.pairwise_cons.1 order
    cases known' : f.arena[m]? with
    | none =>
      rw [rangesBackward_none known']
      refine ih order ((List.mem_cons.1 member).resolve_left ?_)
      rintro rfl
      rw [known] at known'
      cases known'
    | some j =>
      by_cases new : (n : Value) ∈ live
      · exact .inl new
      · refine .inr ?_
        rcases List.mem_cons.1 member with rfl | member
        · rw [known] at known'
          cases known'
          have unused : (n : Value) ∉ lastUses live i ++ live := by
            simp [mem_lastUses, other, new]
          refine ⟨f.indexOf n + 1, (mem_rangesBackward_some known).2 (.inr (.inl
            ⟨⟨rfl, value, unused⟩, by rw [liveFrom_own known owner]⟩)), by omega⟩
        · rcases ih order member with (there : _ ∈ lastUses live j ++ live) | ⟨u, range, bound⟩
          · have last := (List.mem_append.1 there).resolve_right new
            refine ⟨_, (mem_rangesBackward_some known').2 (.inl ⟨last, rfl⟩), ?_⟩
            exact Int.lt_of_lt_of_le (first n member) indexOf_le_useEnd
          · exact ⟨u, (mem_rangesBackward_some known').2 (.inr (.inr range)), bound⟩

end Backward

/-! ## The ranges hold what is live -/

section Blocks

variable {first last : Nat} {live : LiveSets}

theorem blockRanges_out (head : (f.block b).instrs.head? = some first)
    (tail : (f.block b).instrs.getLast? = some last) (out : v ∈ f.liveOut live b) :
    (v, ⟨f.liveFrom b (f.indexOf first) v, f.indexOf last + 1⟩) ∈ f.blockRanges live b := by
  rw [blockRanges, head, tail]
  exact List.mem_append_left _ (List.mem_map.2 ⟨v, out, rfl⟩)

theorem blockRanges_inner (head : (f.block b).instrs.head? = some first)
    (tail : (f.block b).instrs.getLast? = some last) {r : Range}
    (range : (v, r) ∈ f.rangesBackward b (f.indexOf first) (f.liveOut live b)
      (f.block b).instrs.reverse) : (v, r) ∈ f.blockRanges live b := by
  rw [blockRanges, head, tail]
  exact List.mem_append_right _ range

theorem Formed.bounds (formed : f.Formed) (listed : b ∈ f.layout) :
    ∃ first last, (f.block b).instrs.head? = some first ∧
      (f.block b).instrs.getLast? = some last := by
  obtain ⟨body, n, -, whole, -⟩ := formed.ends b listed
  rw [whole]
  refine ⟨(body ++ [n]).head (by simp), n, List.head?_eq_some_head (by simp), ?_⟩
  exact List.getLast?_concat ..

namespace Numbered

variable (numbered : f.Numbered) (listed : b ∈ f.layout)

include numbered listed

theorem reversed : (f.block b).instrs.reverse.Pairwise fun m n => f.indexOf n < f.indexOf m :=
  List.pairwise_reverse.2 (numbered.increasing listed)

theorem first_le (head : (f.block b).instrs.head? = some first)
    (member : n ∈ (f.block b).instrs) : f.indexOf first ≤ f.indexOf n := by
  have order := numbered.increasing listed
  obtain ⟨rest, whole⟩ := List.head?_eq_some_iff.1 head
  rw [whole] at order member
  rcases List.mem_cons.1 member with rfl | member
  · exact Int.le_refl _
  · exact Int.le_of_lt ((List.pairwise_cons.1 order).1 n member)

theorem le_last (tail : (f.block b).instrs.getLast? = some last)
    (member : n ∈ (f.block b).instrs) : f.indexOf n ≤ f.indexOf last := by
  have order := numbered.increasing listed
  obtain ⟨before, whole⟩ := List.getLast?_eq_some_iff.1 tail
  rw [whole] at order member
  rcases List.mem_append.1 member with member | same
  · exact Int.le_of_lt ((List.pairwise_append.1 order).2.2 n member last (by simp))
  · cases List.mem_singleton.1 same
    exact Int.le_refl _

/-- A value that is needed behind an instruction is live up to behind it. -/
theorem needed_until (head : (f.block b).instrs.head? = some first)
    (tail : (f.block b).instrs.getLast? = some last) {before rest : List Nat}
    (whole : (f.block b).instrs = before ++ n :: rest)
    (needed : f.Needs (· ∈ f.liveOut live b) rest v) :
    ∃ u, (v, ⟨f.liveFrom b (f.indexOf first) v, u⟩) ∈ f.blockRanges live b ∧ f.indexOf n < u := by
  have ends : v ∈ f.liveOut live b →
      ∃ u, (v, ⟨f.liveFrom b (f.indexOf first) v, u⟩) ∈ f.blockRanges live b ∧ f.indexOf n < u :=
    fun out => ⟨_, blockRanges_out head tail out, by
      have := numbered.le_last listed tail (n := n) (by simp [whole])
      omega⟩
  rcases needed.cases with out | ⟨m, member, i, known, used⟩
  · exact ends out
  · have later : f.indexOf n < f.indexOf m := by
      have order := numbered.increasing listed
      rw [whole] at order
      exact (List.pairwise_cons.1 (List.pairwise_append.1 order).2.1).1 m member
    rcases rangesBackward_use (numbered.reversed listed) (n := m) (by simp [whole, member]) known
      used with (out : v ∈ f.liveOut live b) | ⟨u, range, bound⟩
    · exact ends out
    · exact ⟨u, blockRanges_inner head tail range,
        Int.lt_of_lt_of_le later (Int.le_trans indexOf_le_useEnd bound)⟩

end Numbered

/-- A value starts to be live in a block no later than where it is there. -/
theorem Formed.liveFrom_le (formed : f.Formed) (numbered : f.Numbered)
    (listed : b ∈ f.layout) (head : (f.block b).instrs.head? = some first) {m : Nat}
    {before rest : List Nat} (whole : (f.block b).instrs = before ++ n :: rest)
    (there : f.Passed b m ∨ m ∈ before ++ [n]) :
    f.liveFrom b (f.indexOf first) m ≤ f.indexOf n := by
  have order := numbered.increasing listed
  rcases there with outside | member
  · -- the value comes from another block
    obtain ⟨c, other, computed⟩ := outside.elsewhere formed listed
    obtain ⟨i, known, owner⟩ := formed.owner c m computed
    rw [liveFrom_other known (by rw [owner]; exact fun same => other (Option.some.inj same))]
    exact numbered.first_le listed head (by simp [whole])
  · obtain ⟨i, known, owner⟩ := formed.owner b m (by
      rw [whole, List.append_cons]
      exact List.mem_append_left _ member)
    rw [liveFrom_own known owner]
    rcases List.mem_append.1 member with earlier | same
    · rw [whole] at order
      exact Int.le_of_lt ((List.pairwise_append.1 order).2.2 m earlier n (by simp))
    · cases List.mem_singleton.1 same
      exact Int.le_refl _

/-- A value that is needed behind an instruction is live at its number. -/
theorem Dominated.needed_range (dominated : f.Dominated) (formed : f.Formed) (numbered : f.Numbered)
    (listed : b ∈ f.layout) {before rest : List Nat}
    (whole : (f.block b).instrs = before ++ n :: rest)
    (needed : f.Needs (· ∈ f.liveOut f.liveIn b) rest v) :
    ∃ r, (v, r) ∈ f.blockRanges f.liveIn b ∧ f.indexOf n ∈ r := by
  obtain ⟨first, last, head, tail⟩ := formed.bounds listed
  obtain ⟨u, range, bound⟩ := numbered.needed_until listed head tail whole needed
  obtain ⟨m, ⟨rfl, -⟩, there⟩ := dominated.needed formed listed
    (show _ = (before ++ [n]) ++ rest by simp [whole]) (dominated.liveOut formed listed) needed
  exact ⟨_, range, formed.liveFrom_le numbered listed head whole there, bound⟩

/-- An instruction does not use its own value. -/
theorem Dominated.other (dominated : f.Dominated) (formed : f.Formed) (listed : b ∈ f.layout)
    {i : Instr} (member : n ∈ (f.block b).instrs) (known : f.arena[n]? = some i) :
    (n : Value) ∉ i.args := by
  intro used
  obtain ⟨before, rest, whole⟩ := List.append_of_mem member
  rcases dominated.operand listed whole known used with outside | earlier
  · obtain ⟨c, other, computed⟩ := outside.elsewhere formed listed
    exact other (formed.unique computed member)
  · have once := formed.once b
    rw [whole] at once
    exact (List.nodup_append.1 once).2.2 n earlier n (by simp) rfl

/-- A value is live at the number of the instruction that computes it. -/
theorem Dominated.own_range (dominated : f.Dominated) (formed : f.Formed) (numbered : f.Numbered)
    (listed : b ∈ f.layout) {i : Instr} (member : n ∈ (f.block b).instrs)
    (known : f.arena[n]? = some i) (value : i.hasValue = true) :
    ∃ r, ((n : Value), r) ∈ f.blockRanges f.liveIn b ∧ f.indexOf n ∈ r := by
  obtain ⟨first, last, head, tail⟩ := formed.bounds listed
  obtain ⟨before, rest, whole⟩ := List.append_of_mem member
  have owner : i.block = some b := by
    obtain ⟨j, known', owner⟩ := formed.owner b n member
    rw [known] at known'
    cases known'
    exact owner
  have other := dominated.other formed listed member known
  have starts := formed.liveFrom_le numbered listed head (m := n) whole (.inr (by simp))
  rcases rangesBackward_own (numbered.reversed listed) (List.mem_reverse.2 member) known value owner
    other with (out : (n : Value) ∈ f.liveOut f.liveIn b) | ⟨u, range, bound⟩
  · have := numbered.le_last listed tail member
    exact ⟨_, blockRanges_out head tail out, starts, by simp only; omega⟩
  · exact ⟨_, blockRanges_inner head tail range, starts, bound⟩

end Blocks

/-! ## All ranges -/

/-- The code lists the instructions that are in blocks. -/
theorem mem_code : (n, i) ∈ f.code ↔ n ∈ f.instrs ∧ f.arena[n]? = some i := by
  rw [Func.code, List.mem_filterMap]
  constructor
  · rintro ⟨m, inside, same⟩
    obtain ⟨j, known, same⟩ := Option.map_eq_some_iff.1 same
    cases same
    exact ⟨inside, known⟩
  · rintro ⟨inside, known⟩
    exact ⟨n, inside, by rw [known]; rfl⟩

/-- Live ranges can be computed: operands are values that are in blocks, and no block is
empty. -/
theorem Dominated.liveRanges_ok (dominated : f.Dominated) (formed : f.Formed) :
    f.liveRanges = .ok ((f.layout.flatMap (f.blockRanges f.liveIn)).foldl
      (fun iv (v, r) => iv.add v r) (Intervals.empty f.name)) := by
  have defined : f.undefinedOperand? = none := by
    rw [undefinedOperand?, List.findSome?_eq_none_iff]
    rintro ⟨n, i⟩ member
    obtain ⟨inside, known⟩ := mem_code.1 member
    obtain ⟨b, listed, here⟩ := List.mem_flatMap.1 inside
    rw [Option.map_eq_none_iff, List.find?_eq_none]
    intro v used
    obtain ⟨m, j, rfl, known', value⟩ := formed.values.operand n i known v used
    obtain ⟨c, -, there⟩ := dominated.operand_block formed listed here known used
    obtain ⟨j', known'', owner⟩ := formed.owner c m there
    rw [known'] at known''
    cases known''
    simp [isDefined, instr?, known', owner, value]
  have full : (f.layout.find? fun b => (f.block b).instrs.isEmpty) = none := by
    rw [List.find?_eq_none]
    intro b listed
    obtain ⟨body, n, -, whole, -⟩ := formed.ends b listed
    simp [whole]
  rw [liveRanges, defined, full]

def LiveAt (f : Func) (v : Value) (i : Int) : Prop :=
  ∃ r, (v, r) ∈ f.layout.flatMap (f.blockRanges f.liveIn) ∧ i ∈ r

/-- The intervals of a function cover where its values are live; no values are joined yet. -/
theorem liveRanges_sound {iv : Intervals} (ran : f.liveRanges = .ok iv) :
    iv.Sound f.LiveAt ∧ iv.parents = [] := by
  unfold liveRanges at ran
  split at ran
  · cases ran
  · split at ran
    · cases ran
    · cases ran
      exact ⟨Intervals.Sound.adds f.name (f.layout.flatMap (f.blockRanges f.liveIn)),
        Intervals.Sound.adds_parents f.name (f.layout.flatMap (f.blockRanges f.liveIn))⟩

/-- The values with a range have a set. -/
theorem liveRanges_lookup {iv : Intervals} (ran : f.liveRanges = .ok iv) :
    (∃ s, iv.sets.lookup v = some s) ↔ ∃ r, (v, r) ∈ f.layout.flatMap (f.blockRanges f.liveIn) := by
  unfold liveRanges at ran
  split at ran
  · cases ran
  · split at ran
    · cases ran
    · cases ran
      exact Intervals.Sound.adds_lookup f.name

theorem Dominated.liveAt_own (dominated : f.Dominated) (formed : f.Formed) (numbered : f.Numbered)
    (member : n ∈ f.instrs) (known : f.arena[n]? = some i) (value : i.hasValue = true) :
    f.LiveAt n (f.indexOf n) := by
  obtain ⟨b, listed, here⟩ := List.mem_flatMap.1 member
  obtain ⟨r, range, inside⟩ := dominated.own_range formed numbered listed here known value
  exact ⟨r, List.mem_flatMap.2 ⟨b, listed, range⟩, inside⟩

theorem Dominated.liveAt_needed (dominated : f.Dominated) (formed : f.Formed) (numbered : f.Numbered)
    {before rest : List Nat} (listed : b ∈ f.layout)
    (whole : (f.block b).instrs = before ++ n :: rest)
    (needed : f.Needs (· ∈ f.liveOut f.liveIn b) rest v) : f.LiveAt v (f.indexOf n) := by
  obtain ⟨r, range, inside⟩ := dominated.needed_range formed numbered listed whole needed
  exact ⟨r, List.mem_flatMap.2 ⟨b, listed, range⟩, inside⟩

end Func

end ImpCompiler
