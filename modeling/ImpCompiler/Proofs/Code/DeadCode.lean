import ImpCompiler.Proofs.Code.Flow
import ImpCompiler.Proofs.Semantics.Lockstep

/-!
# Proofs.Code.DeadCode — removing dead code does not change what functions do

A function and what is left of it without dead code go step by step together: control
stays in blocks that are left and does not get behind their first terminator, and up to
there both functions have the same instructions.
-/

namespace ImpCompiler

set_option autoImplicit false

open Machine

/-- An activation of a function and one of what is left of it, at a point that is left,
with the same values. -/
structure Trimmed (fr fr' : Frame Nat) : Prop where
  trims : fr.func.Trims fr'.func
  block : fr.block = fr'.block
  offset : fr.offset = fr'.offset
  args : fr.args = fr'.args
  values : fr.values = fr'.values
  slots : fr.slots = fr'.slots
  inside : fr'.func.Inside fr'.block fr'.offset

namespace Trimmed

variable {fr fr' : Frame Nat} {fns fns' : Text → Option Func} {oracle : Oracle}

/-- Both activations have the same instruction next. -/
theorem fetch (trimmed : Trimmed fr fr') :
    ∃ n i, (fr'.func.block fr'.block).instrs[fr'.offset]? = some n ∧ fr'.func.arena[n]? = some i ∧
      fr.fetch = some (n, i) ∧ fr'.fetch = some (n, i) := by
  obtain ⟨n, i, here, known, -⟩ := trimmed.trims.formed.fetch trimmed.inside
  have before : (fr.func.block fr.block).instrs[fr.offset]? = some n := by
    rw [trimmed.block, trimmed.offset]
    exact getElem?_of_prefix (trimmed.trims.instrs_prefix trimmed.inside.1) here
  have known' : fr.func.arena[n]? = some i := by
    rw [← trimmed.trims.stays _ n (List.mem_of_getElem? here), known]
  exact ⟨n, i, here, known, by simp [Frame.fetch, before, known'], by simp [Frame.fetch, here, known]⟩

theorem operands (trimmed : Trimmed fr fr') (fns fns' : Text → Option Func) (i : Instr) :
    (virtual fns oracle).operands fr i = (virtual fns' oracle).operands fr' i := by
  have read : (virtual fns oracle).read fr = (virtual fns' oracle).read fr' := by
    funext v
    cases v <;> simp only [Machine.read, virtual, trimmed.values]
  simp only [Machine.operands, read]

theorem write (trimmed : Trimmed fr fr') (n : Nat) (i : Instr) (v : Val) :
    (virtual fns oracle).write fr n i v = (virtual fns' oracle).write fr' n i v := by
  simp only [Machine.write, virtual, trimmed.values]

/-- Control goes on in the same block. -/
theorem goesOn (trimmed : Trimmed fr fr') {n : Nat} {i : Instr}
    {values values' slots slots' : Nat → Option Val} (fetched : fr.fetch = some (n, i))
    (plain : i.op.isTerminator = false) (sameValues : values = values')
    (sameSlots : slots = slots') :
    Trimmed { fr with offset := fr.offset + 1, values := values, slots := slots }
      { fr' with offset := fr'.offset + 1, values := values', slots := slots' } := by
  obtain ⟨m, j, here, known, fetched', -⟩ := trimmed.fetch
  rw [fetched] at fetched'
  cases fetched'
  exact ⟨trimmed.trims, trimmed.block, congrArg (· + 1) trimmed.offset, trimmed.args, sameValues,
    sameSlots, trimmed.trims.formed.next trimmed.inside here known plain⟩

theorem enter {f g : Func} (trims : f.Trims g) (entry : f.layout.headD 0 = 0) (args : List Val) :
    Trimmed ((virtual fns oracle).enter f args) ((virtual fns' oracle).enter g args) := by
  have entry' : g.layout.headD 0 = 0 := by
    rw [List.headD_eq_head?_getD, trims.formed.first]
    rfl
  refine ⟨trims, entry.trans entry'.symm, rfl, rfl, rfl, rfl, ?_⟩
  change g.Inside (g.layout.headD 0) 0
  rw [entry']
  exact trims.formed.start

end Trimmed

/-- Functions and what is left of them without dead code go step by step together. -/
theorem Func.Trims.lockstep {fns fns' : Text → Option Func} (oracle : Oracle)
    (trims : ∀ name, Option.Rel (fun f g => f.Trims g ∧ f.layout.headD 0 = 0) (fns name) (fns' name)) :
    Lockstep (virtual fns oracle) (virtual fns' oracle) Trimmed where
  oracle := rfl
  agree {fr fr'} trimmed := by
    obtain ⟨n, i, -, -, fetched, fetched'⟩ := trimmed.fetch
    refine ⟨trimmed.trims.name.symm, trimmed.block, trimmed.offset, trimmed.args, trimmed.slots, ?_⟩
    simp only [reading, fetched, fetched', Option.map_some, trimmed.operands fns fns' i]
  enter name := by
    have related := trims name
    simp only [virtual] at related ⊢
    cases known : fns name <;> cases known' : fns' name <;> rw [known, known'] at related <;>
      cases related
    case none.none => exact .none
    case some.some both => exact .some fun args => Trimmed.enter both.1 both.2 args
  resume v trimmed fetched plain := by
    obtain ⟨m, j, -, -, fetched₁, fetched'⟩ := trimmed.fetch
    rw [fetched] at fetched₁
    cases fetched₁
    simp only [Machine.resume, fetched, fetched']
    exact trimmed.goesOn fetched plain (trimmed.write _ _ v) trimmed.slots
  stored v trimmed fetched same := by
    refine trimmed.goesOn fetched (by rw [same]; rfl) trimmed.values ?_
    rw [trimmed.slots]
  jump trimmed fetched goes := by
    obtain ⟨m, j, here, known, fetched₁, -⟩ := trimmed.fetch
    rw [fetched] at fetched₁
    cases fetched₁
    exact ⟨trimmed.trims, rfl, rfl, trimmed.args, trimmed.values, trimmed.slots,
      trimmed.trims.formed.goes trimmed.inside here known goes⟩

end ImpCompiler
