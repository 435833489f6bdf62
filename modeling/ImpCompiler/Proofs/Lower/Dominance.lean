import ImpCompiler.Proofs.Live.Ranges
import ImpCompiler.Proofs.Lower.Labels
import ImpCompiler.Proofs.Lower.Programs
import ImpCompiler.Proofs.Lower.Slots

/-!
# Proofs.Lower.Dominance — values are computed before they are used

The code of a checked program is well formed: control starts in the first block and gets to
all others, each of which ends with its only terminator; and an operand is the value of an
instruction that comes before the use on every way from the entry. So the live ranges of
such code can always be computed.
-/

namespace ImpCompiler

set_option autoImplicit false

namespace Func

/-- An operand is the value of an instruction that is left in a block, and that control
passes on every way from the entry to the instruction that uses it. -/
def Defines (f : Func) (n : Nat) (v : Value) : Prop :=
  ∃ (m : Nat) (j : Instr), v = (m : Value) ∧ f.arena[m]? = some j ∧ j.hasValue = true ∧
    (∃ c ∈ f.layout, m ∈ (f.block c).instrs) ∧ ∀ ns, f.Path ns n → m ∈ ns

/-- Code in which control starts in the first block and gets to all others, in which blocks
end with their only terminator and have different labels, and in which what is used is
computed before. -/
structure WellFormed (f : Func) : Prop where
  entry : ∃ b rest, f.layout = b :: rest ∧ f.label b = LabelKind.entry.text
  reached : ∀ b ∈ f.layout, ∃ passed, f.Route passed b
  ends : ∀ b ∈ f.layout, ∃ body n, (f.block b).instrs = body ++ [n] ∧ f.isTerminatorAt n = true ∧
    ∀ m ∈ body, f.isTerminatorAt m = false
  labels : (f.layout.map f.label).Nodup
  operands : ∀ b ∈ f.layout, ∀ n ∈ (f.block b).instrs, ∀ i, f.arena[n]? = some i →
    ∀ v ∈ i.args, f.Defines n v

/-- An operand is computed before, on every way. -/
theorem Guarded.defines {f : Func} {A : Nat → Fact → Prop} (guarded : f.Guarded A)
    (formed : f.Formed) (dropped : ∀ b, b ∉ f.layout → (f.block b).instrs = []) {b n : Nat}
    {i : Instr} {v : Value} (listed : b ∈ f.layout) (member : n ∈ (f.block b).instrs)
    (known : f.arena[n]? = some i) (used : v ∈ i.args) : f.Defines n v := by
  obtain ⟨m, j, rfl, known', value⟩ := formed.values.operand n i known v used
  obtain ⟨c, there⟩ := guarded.operand_block formed listed member known used
  have left : c ∈ f.layout := by
    by_contra gone
    simp [dropped c gone] at there
  refine ⟨m, j, rfl, known', value, ⟨c, left, there⟩, fun ns path => ?_⟩
  exact provide_value.1 (guarded.on_path formed path known (x := .value m) used)

end Func

/-- The first block of a body is its entry. -/
theorem Lower.body_entry {f : FuncDef} {u : Unit} {c c' : Lower.Cursor}
    (ran : Lower.body f c = .ok (u, c')) : c'.func.label 0 = LabelKind.entry.text := by
  obtain ⟨params, ret, steps⟩ := Lower.body_steps ran
  refine (steps.preserve (P := fun c => 0 < c.func.blocks.size ∧ c.func.label 0 = LabelKind.entry.text)
    (fun old c c' step kept => ?_) ⟨Nat.one_pos, rfl⟩).2
  obtain ⟨inside, label⟩ := kept
  cases step with
  | slot => exact ⟨inside, label⟩
  | move => exact ⟨inside, label⟩
  | block =>
    refine ⟨by simp, ?_⟩
    rw [Func.label, Lower.Cursor.blocked, Func.addBlock_block_ne _ _ (by omega)]
    exact label
  | emit =>
    refine ⟨by simpa using inside, ?_⟩
    by_cases here : 0 = c.block
    · rw [Func.label, Lower.Cursor.emitted, ← here, Func.append_block _ _ _ _ inside]
      exact label
    · rw [Func.label, Lower.Cursor.emitted, Func.append_block_ne _ _ _ _ here]
      exact label

/-- The code of a function is well formed, and its live ranges can be computed. -/
theorem Lower.function_wellFormed {f : FuncDef} {g : Func} (lowered : Lower.function f = .ok g) :
    g.WellFormed ∧ ∃ ranges, g.intervals.2 = .ok ranges := by
  obtain ⟨c, ran, built⟩ := Lower.function_ok.1 lowered
  obtain ⟨A, guarded⟩ := Lower.body_guarded ran
  have laid := Lower.body_laid ran
  have trims := laid.trims built
  have guarded := trims.guarded guarded
  have formed := trims.formed
  constructor
  · refine ⟨?_, formed.reached, fun b listed => ?_, ?_, fun b listed n member i known v used => ?_⟩
    · obtain ⟨rest, layout⟩ := List.head?_eq_some_iff.1 formed.first
      exact ⟨0, rest, layout, (trims.label 0).trans (Lower.body_entry ran)⟩
    · obtain ⟨body, n, i, whole, known, isEnd, -, plain⟩ := formed.ends b listed
      exact ⟨body, n, whole, by simp [Func.isTerminatorAt, known, Instr.isTerminator, isEnd], plain⟩
    · have same : g.layout.map g.label = g.layout.map c.func.label :=
        List.map_congr_left fun b _ => trims.label b
      rw [same]
      exact ((Lower.body_labelled ran).nodup laid).sublist (trims.layout.map _)
    · exact guarded.defines formed trims.dropped listed member known used
  · have numbers := g.annotates_number
    have formed' := numbers.formed formed
    exact ⟨_, ((numbers.guarded guarded).dominated formed').liveRanges_ok formed'⟩

/-- Definitions dominate uses: a program that was read and is not refused is lowered if no type
in it is an array of void, and its code is well formed, so that live ranges can be computed. -/
theorem definitions_dominate_uses {src : Text} {p : Program} (parsed : Program.parse src = .ok p)
    (checked : p.check.2 = none) (full : ∀ t ∈ p.types, ¬ t.IsVoidArray) (threads : Int)
    (path : Text) :
    ∃ m, p.check.1.lower threads path = .ok m ∧
      ∀ g ∈ m.functions, g.WellFormed ∧ ∃ ranges, g.intervals.2 = .ok ranges := by
  obtain ⟨m, lowered⟩ := Program.lower_total checked (Program.parse_plain parsed full) threads path
  refine ⟨m, lowered, fun g member => ?_⟩
  obtain ⟨f, -, ran⟩ := Program.lower_mem lowered member
  exact Lower.function_wellFormed ran

/-- In the code of `sums` definitions dominate uses, around its loop and its `&&`. -/
theorem sums_code_is_wellFormed : Program.parse sumsText = .ok sums ∧ sums.check.2 = none ∧
    (∀ t ∈ sums.types, ¬ t.IsVoidArray) ∧ ∃ m, sums.check.1.lower 2 "sums" = .ok m ∧
      ∀ g ∈ m.functions, g.WellFormed ∧ ∃ ranges, g.intervals.2 = .ok ranges := by
  have checked : sums.check.2 = none := Option.isNone_iff_eq_none.1 (by decide +kernel)
  have full : ∀ t ∈ sums.types, ¬ t.IsVoidArray := by decide +kernel
  exact ⟨sums_parsed, checked, full, definitions_dominate_uses sums_parsed checked full 2 "sums"⟩

end ImpCompiler
