import ImpCompiler.Proofs.Jobs
import ImpCompiler.Proofs.Lower.Shape
import ImpCompiler.Tree.Parser
import ImpCompiler.Typing.Check

/-!
# Proofs.Lower.Modules — the functions of a module

A module has the functions of its program lowered, one by one and in order, however many
threads lower them; and a function lowered is its body without dead code.
-/

namespace ImpCompiler

set_option autoImplicit false

namespace Lower

theorem lowered_of_stops {results : List (Text × Except LowerStop Func)} (none : stops results = []) :
    List.Forall₂ (fun r g => r.2 = .ok g) results (lowered results) := by
  induction results with
  | nil => exact .nil
  | cons r rest ih =>
    obtain ⟨name, result⟩ := r
    cases result with
    | error stop => simp [stops] at none
    | ok g => exact .cons rfl (ih none)

end Lower

/-- A module has the functions of its program, in order. -/
theorem Program.lower_ok {p : Program} {threads : Int} {path : Text} {m : Module}
    (ran : p.lower threads path = .ok m) :
    List.Forall₂ (fun f g => Lower.function f = .ok g) p.functions m.functions := by
  simp only [Program.lower, Jobs.map_eq] at ran
  split at ran
  · rename_i none
    cases ran
    simpa using Lower.lowered_of_stops none
  · cases ran
  · cases ran

/-- Every function of a module is a function of its program lowered. -/
theorem Program.lower_mem {p : Program} {threads : Int} {path : Text} {m : Module}
    (ran : p.lower threads path = .ok m) {g : Func} (member : g ∈ m.functions) :
    ∃ f ∈ p.functions, Lower.function f = .ok g :=
  exists_of_forall₂ (Program.lower_ok ran).flip member

/-! ## An example -/

/-- The text of a program with calls, loops, arrays and a short circuit. -/
def sumsText : Text :=
  "int sum(int[] a) \x7b " ++
    "int s = 0; " ++
    "for (int x : a) if (x > 0 && s < 100) s = s + x; " ++
    "return s; \x7d " ++
  "int main() \x7b " ++
    "int[] a = new int[3]; a[1] = 4; " ++
    "printInt(sum(a)); " ++
    "while (a[1] > 2) a[1] = a[1] - 1; " ++
    "return sum(a); \x7d"

def sums : Program :=
  match Program.parse sumsText with
  | .ok p => p
  | .error _ => ⟨[]⟩

theorem sums_parsed : Program.parse sumsText = .ok sums := by
  have read : (Program.parse sumsText).isOk = true := by decide +kernel
  unfold sums
  cases ran : Program.parse sumsText with
  | error e =>
    rw [ran] at read
    cases read
  | ok p => rfl

end ImpCompiler
