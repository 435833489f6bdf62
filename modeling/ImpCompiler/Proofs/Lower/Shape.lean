import ImpCompiler.Proofs.Code.Flow
import ImpCompiler.Proofs.Lower.Steps

/-!
# Proofs.Lower.Shape — the shape of functions while they are made

Every step of lowering keeps all blocks in the layout, puts an instruction into one
block, once, with the block noted, and gives blocks different labels. So this holds of
whole bodies, and removing dead code works on them as `Proofs.Code.Flow` says.
-/

namespace ImpCompiler

set_option autoImplicit false

namespace Func

variable {f : Func}

/-- An instruction in a block leaves the others in order. -/
theorem Laid.append (laid : f.Laid) {b : Nat} (inside : b < f.blocks.size) {op : Op} (t : DataType)
    {args : List ValueRef} (targets : ∀ c ∈ op.targets, c < f.blocks.size)
    (values : ∀ v ∈ args, f.IsValue v.number v.type) (source : op = .copy → args ≠ []) :
    (f.append b op t (args.map fun v => (v.number : Value))).Laid := by
  have bound : ∀ c n, n ∈ (f.block c).instrs → n < f.arena.size := by
    intro c n member
    obtain ⟨i, known, -⟩ := laid.owner c n member
    exact (Array.getElem?_eq_some_iff.1 known).1
  generalize operands : (args.map fun v => (v.number : Value)) = vs
  have grows := Grows.of_append f b op t vs
  refine ⟨by simpa using laid.layout, by simpa using laid.entry, fun c n member => ?_, fun c => ?_,
    fun n i known c goes => ?_, fun n i known v member => ?_, fun n i known copy => ?_⟩
  · by_cases here : c = b
    · subst here
      rw [append_block f op t vs inside] at member
      rcases List.mem_append.1 member with old | new
      · obtain ⟨i, known, owner⟩ := laid.owner c n old
        exact ⟨i, grows.instr known, owner⟩
      · cases List.mem_singleton.1 new
        exact ⟨⟨op, t, vs, some c, none, .unassigned⟩, by simp, rfl⟩
    · rw [append_block_ne f op t vs here] at member
      obtain ⟨i, known, owner⟩ := laid.owner c n member
      exact ⟨i, grows.instr known, owner⟩
  · by_cases here : c = b
    · subst here
      rw [append_block f op t vs inside]
      refine List.nodup_append.2 ⟨laid.once c, by simp, ?_⟩
      rintro n old _ new rfl
      cases List.mem_singleton.1 new
      exact Nat.lt_irrefl _ (bound c _ old)
    · rw [append_block_ne f op t vs here]
      exact laid.once c
  · rw [append_arena, Array.getElem?_push] at known
    rw [append_size]
    split at known
    · cases known
      exact targets c goes
    · exact laid.targets n i known c goes
  · rw [append_arena, Array.getElem?_push] at known
    split at known
    · cases known
      subst operands
      obtain ⟨u, used, rfl⟩ := List.mem_map.1 member
      obtain ⟨j, known, hasValue, -, -⟩ := values u used
      exact ⟨u.number, j, rfl, grows.instr known, hasValue⟩
    · obtain ⟨m, j, rfl, known', hasValue⟩ := laid.values.operand n i known v member
      exact ⟨m, j, rfl, grows.instr known', hasValue⟩
  · rw [append_arena, Array.getElem?_push] at known
    split at known
    · cases known
      subst operands
      simpa using source copy
    · exact laid.values.source n i known copy

theorem Laid.addBlock (laid : f.Laid) (k : LabelKind) : (f.addBlock k).1.Laid where
  layout := by
    rw [addBlock_size, List.range_succ, ← laid.layout]
    rfl
  entry := by simp
  owner b n member := laid.owner b n (addBlock_block_instrs f k b ▸ member)
  once b := by
    rw [addBlock_block_instrs]
    exact laid.once b
  targets n i known t goes := by
    rw [addBlock_size]
    exact Nat.lt_succ_of_lt (laid.targets n i known t goes)
  values := ⟨laid.values.operand, laid.values.source⟩

end Func

namespace Lower

/-- Lowering keeps blocks and instructions in order. -/
theorem Steps.laid {c c' : Cursor} (steps : Steps c c') (laid : c.func.Laid)
    (inside : c.block < c.func.blocks.size) : c'.func.Laid := by
  refine (steps.preserve (P := fun c => c.func.Laid ∧ c.block < c.func.blocks.size)
    (fun old c c' step kept => ?_) ⟨laid, inside⟩).1
  obtain ⟨laid, inside⟩ := kept
  cases step with
  | emit planned =>
    have accepted := planned.planned
    exact ⟨laid.append inside _ (fun c goes => (accepted.targets c goes).1)
      (fun v member => (accepted.value member).1) accepted.source, by simpa using inside⟩
  | slot some =>
    exact ⟨⟨laid.layout, laid.entry, laid.owner, laid.once, laid.targets,
      laid.values.operand, laid.values.source⟩, inside⟩
  | block inner =>
    refine ⟨laid.addBlock _, ?_⟩
    rw [Cursor.blocked_size]
    exact Nat.lt_succ_of_lt inside
  | move new inside => exact ⟨laid, inside⟩

theorem opening_laid (f : FuncDef) (ret : DataType) (params : List DataType) :
    (opening f ret params).func.Laid := by
  refine ⟨rfl, Nat.one_pos, fun b n member => ?_, fun b => ?_, fun n i known => ?_,
    fun n i known => ?_, fun n i known => ?_⟩
  · rw [opening, Func.addBlock_block_instrs, Func.instrs_of_size_le (Nat.zero_le b)] at member
    cases member
  · rw [opening, Func.addBlock_block_instrs, Func.instrs_of_size_le (Nat.zero_le b)]
    exact .nil
  · cases known
  · cases known
  · cases known

/-- The code of a body has the shape of functions as they are made. -/
theorem body_laid {f : FuncDef} {u : Unit} {c c' : Cursor} (ran : body f c = .ok (u, c')) :
    c'.func.Laid := by
  obtain ⟨params, ret, steps⟩ := body_steps ran
  exact steps.laid (opening_laid f ret params) Nat.one_pos

end Lower

end ImpCompiler
