import ImpCompiler.Proofs.Code.DeadCode
import ImpCompiler.Proofs.Lower.Functions
import ImpCompiler.Proofs.Lower.Modules
import ImpCompiler.Proofs.Typing.Sound

/-!
# Proofs.Lower.Meaning — lowering preserves meaning

A program that passes the check ends in an outcome exactly if its code does, on the
machine with one register for each instruction. The code of bodies does what the tree
does (`Lower.ends_iff_bodies`), and removing dead code does not change that
(`Func.Trims.lockstep`).
-/

namespace ImpCompiler

set_option autoImplicit false

open Machine Typing

namespace Lower

/-- A function lowered is its body without dead code. -/
theorem function_trims {f : FuncDef} {g : Func} (ran : function f = .ok g) :
    ∃ F, code? f = some F ∧ F.Laid ∧ F.name = f.name ∧ F.Trims g := by
  obtain ⟨c, ran, built⟩ := function_ok.1 ran
  have laid := body_laid ran
  obtain ⟨params, ret, steps⟩ := body_steps ran
  exact ⟨c.func, by simp [code?, ran], laid, steps.grows.name, laid.trims built⟩

/-- The functions with a name in a program and in its module. -/
theorem function?_related {fs : List FuncDef} {gs : List Func}
    (lowered : List.Forall₂ (fun f g => function f = .ok g) fs gs) (name : Text) :
    Option.Rel (fun F g => F.Trims g ∧ F.layout.headD 0 = 0)
      ((fs.find? fun f => f.name == name).bind code?) (gs.find? fun g => g.name == name) := by
  have named : ∀ {f g}, function f = .ok g → (g.name == name) = (f.name == name) := by
    intro f g ran
    obtain ⟨F, -, -, same, trims⟩ := function_trims ran
    rw [trims.name, same]
  have found := find?_related (R := fun f g => function f = .ok g) named lowered
  generalize fs.find? _ = f?, gs.find? _ = g? at found ⊢
  cases found with
  | none => exact .none
  | some ran =>
    obtain ⟨F, code, laid, -, trims⟩ := function_trims ran
    obtain ⟨rest, layout⟩ := laid.head
    rw [Option.bind_some, code]
    exact .some ⟨trims, by simp [layout]⟩

end Lower

/-- Lowering preserves meaning: the tree of a checked program ends in an outcome if and
only if its code does. -/
theorem lowering_preserves_outcomes {p q : Program} {threads : Int} {path : Text} {m : Module}
    (checked : p.check = (q, none)) (lowered : q.lower threads path = .ok m) (oracle : Oracle)
    (name : Text) (args : List Val) (heap : Heap) (o : Outcome) :
    q.Ends oracle name args heap o ↔
      (Machine.virtual m.function? oracle).Ends name args heap o := by
  obtain ⟨σ, fits, -⟩ := Program.check_sound checked
  have all := Program.lower_ok lowered
  have total : ∀ f ∈ q.functions, (Lower.code? f).isSome = true := by
    intro f member
    obtain ⟨g, -, ran⟩ := exists_of_forall₂ all member
    obtain ⟨F, code, -⟩ := Lower.function_trims ran
    simp [code]
  rw [Lower.ends_iff_bodies fits total]
  exact (Func.Trims.lockstep oracle (Lower.function?_related all)).ends_iff

/-- The code of `sums` prints 4 and returns 2, as its tree does. -/
theorem sums_code_ends : ∃ q m, sums.check = (q, none) ∧ q.lower 2 "sums" = .ok m ∧
    (Machine.virtual m.function? fun _ => .unit).Ends "main" [] []
      ⟨.ok (.int 2), ⟨[[.int 0, .int 2, .int 0]], [⟨"printInt", [.int 4]⟩]⟩⟩ := by
  have checked : sums.check.2 = none := Option.isNone_iff_eq_none.1 (by decide +kernel)
  have lowers : (sums.check.1.lower 2 "sums").isOk = true := by decide +kernel
  have ends : ((sums.check.1.function? "main").bind fun f =>
      (Semantics.run (sums.check.1.call (fun _ => .unit) 20) 20 f [] ⟨[], []⟩).outcome?) =
        some ⟨.ok (.int 2), ⟨[[.int 0, .int 2, .int 0]], [⟨"printInt", [.int 4]⟩]⟩⟩ := by
    decide +kernel
  obtain ⟨f, known, ran⟩ := Option.bind_eq_some_iff.1 ends
  cases lowered : sums.check.1.lower 2 "sums" with
  | error e => simp [lowered, Except.isOk, Except.toBool] at lowers
  | ok m =>
    exact ⟨_, m, Prod.ext rfl checked, lowered,
      (lowering_preserves_outcomes (Prod.ext rfl checked) lowered _ _ _ _ _).1 ⟨f, known, 20, ran⟩⟩

end ImpCompiler
