import ImpCompiler.Proofs.Lower.Control
import ImpCompiler.Proofs.Lower.Modules
import ImpCompiler.Proofs.Lower.Total
import ImpCompiler.Proofs.Tree.Parsed
import ImpCompiler.Proofs.Typing.Sound

/-!
# Proofs.Lower.Programs — checked programs are lowered

A program that is not refused is lowered to a module, with any number of threads, as
long as no type in it is an array of void (`Program.lower_total`).
-/

namespace ImpCompiler

set_option autoImplicit false

open Typing

/-- A program whose types are plain has signatures that can be lowered. -/
theorem Program.signatures_plain {p : Program} (named : ∀ t ∈ p.types, t.IsPlain)
    (params : ∀ f ∈ p.functions, ∀ q ∈ f.params, q.type ≠ Ty.void) : p.signatures.Plain := by
  have plain : ∀ f ∈ p.functions, ∀ t ∈ f.types, t.IsPlain := fun f member t used =>
    named t (List.mem_flatMap.2 ⟨f, member, used⟩)
  have all : ∀ r ∈ p.signatures, (∀ t ∈ r.2.params, t.IsStored) ∧ r.2.ret.IsPlain := by
    intro r member
    rw [Program.signatures, List.mem_append, List.mem_reverse, List.mem_map] at member
    rcases member with ⟨f, known, rfl⟩ | builtin
    · refine ⟨fun t used => ?_, plain f known _ (by simp [FuncDef.types, FuncDef.signature])⟩
      obtain ⟨q, member, rfl⟩ := List.mem_map.1 used
      refine ⟨plain f known _ ?_, params f known q member⟩
      rw [FuncDef.types, List.mem_cons, List.mem_append]
      exact .inr (.inl used)
    · have known : ∀ r ∈ builtins, (∀ t ∈ r.2.params, t.base ≠ .error ∧ t.base ≠ .void) ∧
          r.2.ret.base ≠ .error ∧ r.2.ret.isArray = false := by decide
      obtain ⟨stored, ret, scalar⟩ := known r builtin
      exact ⟨fun t used => Ty.isStored_of_base (stored t used).1 (stored t used).2, ret,
        fun void => Bool.noConfusion (scalar.symm.trans void.2)⟩
  exact ⟨fun name s known => (all _ (mem_of_lookup known)).1,
    fun name s known => (all _ (mem_of_lookup known)).2⟩

theorem Lower.function_total {σ : Signatures} {f : FuncDef} (plain : σ.Plain)
    (named : ∀ t ∈ f.types, t.IsPlain) (fits : FitsFunction σ f) : ∃ g, Lower.function f = .ok g := by
  obtain ⟨c, ran⟩ := body_total plain named fits ⟨Func.empty f.name .void [], 0⟩
  obtain ⟨g, flow⟩ := body_flows ran
  exact ⟨g, function_ok.2 ⟨c, ran, flow⟩⟩

theorem Lower.stops_eq_nil {results : List (Text × Except LowerStop Func)}
    (fine : ∀ r ∈ results, ∃ g, r.2 = .ok g) : stops results = [] := by
  induction results with
  | nil => rfl
  | cons r rest ih =>
    obtain ⟨name, result⟩ := r
    obtain ⟨g, rfl⟩ := fine (name, result) (by simp)
    exact ih fun r member => fine r (by simp [member])

namespace Program

/-- A program whose functions can all be made is lowered. -/
theorem exists_lower {p : Program} (fine : ∀ f ∈ p.functions, ∃ g, Lower.function f = .ok g)
    (threads : Int) (path : Text) : ∃ m, p.lower threads path = .ok m := by
  have none : Lower.stops (p.functions.map fun f => (f.name, Lower.function f)) = [] := by
    refine Lower.stops_eq_nil fun r member => ?_
    obtain ⟨f, known, rfl⟩ := List.mem_map.1 member
    exact fine f known
  simp only [Program.lower, Jobs.map_eq, none]
  exact ⟨_, rfl⟩

theorem types_check (p : Program) : p.check.1.types = p.types := by
  rw [← types_erase, check_erase, types_erase]

/-- A program that is not refused is lowered, if its types are plain. -/
theorem lower_total {p : Program} (checked : p.check.2 = none) (named : ∀ t ∈ p.types, t.IsPlain)
    (threads : Int) (path : Text) : ∃ m, p.check.1.lower threads path = .ok m := by
  have admits := Program.check_admits checked
  rw [← types_check] at named
  have plain := Program.signatures_plain named fun f member => (admits.functions f member).params
  rw [Program.signatures_of_erase p.check_erase] at plain
  refine exists_lower (fun f member => ?_) threads path
  exact Lower.function_total plain (fun t used => named t (List.mem_flatMap.2 ⟨f, member, used⟩))
    (admits.functions f member).fits

/-- The types of a program that was read are plain but for arrays of void. -/
theorem parse_plain {src : Text} {p : Program} (parsed : Program.parse src = .ok p)
    (full : ∀ t ∈ p.types, ¬ t.IsVoidArray) : ∀ t ∈ p.types, t.IsPlain :=
  fun t member => ⟨Program.parse_types parsed t member, full t member⟩

end Program

end ImpCompiler
