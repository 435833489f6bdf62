import ImpCompiler.Proofs.Code.Numbering
import ImpCompiler.Proofs.Code.Session

/-!
# Proofs.Code.Made — functions that are made by calls

What holds of every function that calls make, whatever they ask for and however many of
them are refused: all its blocks are in the layout, and its branches and operands are there
(`Func.Made.laid`), so removing dead code leaves of it what `Proofs.Code.Flow` says. It can be
numbered before that, too (`Func.Made.orderly`).
-/

namespace ImpCompiler

set_option autoImplicit false

namespace Func

variable {f : Func} {n : Nat} {args : List Value}

/-- The function is made by calls on a module that is empty at first. -/
def Made (f : Func) : Prop :=
  ∃ (name : Text) (calls : List Call), f ∈ ((Module.empty name).after calls).functions

/-! ## What the rules say of branches and operands -/

/-- Jumps go to blocks of the function. -/
theorem Rule.targets {op : Op} {t : DataType} (rule : f.Rule n op t args) :
    ∀ b ∈ op.targets, b < f.blocks.size := by
  intro b goes
  cases rule with
  | branch target =>
    rw [Op.targets, List.mem_singleton] at goes
    exact goes ▸ target
  | condBranch cond first second =>
    rcases Op.mem_targets_condBranch.1 goes with rfl | rfl
    · exact first
    · exact second
  | _ => cases goes

/-- Operands are values that were there before. -/
theorem Rule.operand {op : Op} {t : DataType} (rule : f.Rule n op t args) :
    ∀ v ∈ args, ∃ u, f.Earlier n v u := by
  cases rule with
  | call arguments => exact arguments
  | newArray some enough ints => exact fun v member => ⟨_, ints v member⟩
  | _ =>
    simp only [List.forall_mem_cons, List.not_mem_nil, false_implies, implies_true, and_true]
    repeat' apply And.intro
    all_goals exact ⟨_, by assumption⟩

theorem Rule.source {t : DataType} (rule : f.Rule n .copy t args) : args ≠ [] := by
  cases rule with
  | copy => simp

/-- Every operand is a value of the function. -/
theorem WellTyped.usesValues (typed : f.WellTyped) : f.UsesValues where
  operand n i known v member := by
    obtain ⟨t, m, rfl, -, j, known', value, -⟩ := (typed.rules n i known).operand v member
    exact ⟨m, j, rfl, known', value⟩
  source n i known copy := by
    have rule := typed.rules n i known
    rw [copy] at rule
    exact rule.source

/-! ## The layout -/

namespace Made

theorem wellTyped (made : f.Made) : f.WellTyped := by
  obtain ⟨name, calls, member⟩ := made
  exact Module.after_wellTyped calls (fun _ none => by cases none) f member

/-- All blocks are in the layout, and none has been linked. -/
theorem layout (made : f.Made) :
    f.layout = List.range f.blocks.size ∧ ∀ b, (f.block b).preds = [] := by
  obtain ⟨name, calls, member⟩ := made
  have kept : Module.Kept fun f => f.layout = List.range f.blocks.size ∧ ∀ b, (f.block b).preds = [] := {
    empty := fun name ret params => ⟨rfl, fun b => by rw [block_of_size_le (Nat.zero_le b)]; rfl⟩
    block := by
      rintro f kind ⟨layout, preds⟩
      refine ⟨by rw [addBlock_size, List.range_succ, ← layout]; rfl, fun b => ?_⟩
      by_cases new : b = f.blocks.size
      · rw [new, block_eq_getElem (by simp)]
        simp [addBlock, pushBlock]
      · rw [addBlock_block_ne f kind new]
        exact preds b
    slot := fun _ before => before
    instr := by
      rintro f g b i more - ⟨layout, preds⟩
      refine ⟨by rw [more.size, more.rest]; exact layout, fun c => ?_⟩
      by_cases here : c = b
      · rw [here, more.block]
        exact preds b
      · rw [more.others c here]
        exact preds c }
  exact kept.after calls (fun _ none => by cases none) f member

theorem laid (made : f.Made) (some : 0 < f.blocks.size) : f.Laid where
  layout := made.layout.1
  entry := some
  owner := made.wellTyped.listed
  once b := (made.wellTyped.ordered b).imp Nat.ne_of_lt
  targets n i known := (made.wellTyped.rules n i known).targets
  values := made.wellTyped.usesValues

theorem orderly (made : f.Made) : f.Orderly where
  distinct := made.layout.1 ▸ List.nodup_range
  once := by
    exact instrs_nodup (made.layout.1 ▸ List.nodup_range)
      (fun b => (made.wellTyped.ordered b).imp Nat.ne_of_lt) made.wellTyped.unique
  known n member := by
    obtain ⟨b, -, here⟩ := List.mem_flatMap.1 member
    obtain ⟨i, known, -⟩ := made.wellTyped.listed b n here
    exact (Array.getElem?_eq_some_iff.1 known).1
  linked b _ := by simp [made.layout.2 b]

end Made

end Func

end ImpCompiler
