import ImpCompiler.Proofs.Lower.Available
import ImpCompiler.Proofs.Lower.Modules

/-!
# Proofs.Lower.Slots — slots hold values of their type when they are loaded

A slot is stored to before it is loaded from, on every way through a function
(`loads_follow_stores`), and what is stored is of the type of the slot. The first follows
from what is there at the cursor while a function is made; the second holds of every
instruction at the time it is made, and functions only grow.
-/

namespace ImpCompiler

set_option autoImplicit false

namespace Func

/-- Every store is of one value, which is of the type of the slot. -/
def StoresTyped (f : Func) : Prop :=
  ∀ (n s : Nat) (i : Instr), f.arena[n]? = some i → i.op = .store s →
    ∃ (v : Nat) (slot : Slot) (j : Instr), i.args = [(v : Value)] ∧ f.slots[s]? = some slot ∧
      f.arena[v]? = some j ∧ j.hasValue = true ∧ j.type = slot.type

variable {f g : Func}

/-- A store that is accepted fits the type of its slot. -/
theorem StoresTyped.append (typed : f.StoresTyped) {b : Nat} {r : Request} {op : Op} {t : DataType}
    {args : List ValueRef} (planned : f.Plans r (op, t, args)) :
    (f.append b op t (args.map fun v => (v.number : Value))).StoresTyped := by
  generalize operands : (args.map fun v => (v.number : Value)) = vs
  have grows := Grows.of_append f b op t vs
  intro n s i known stores
  rw [append_arena, Array.getElem?_push] at known
  split at known
  · cases known
    have accepted := planned.planned
    obtain ⟨v, slot, only, found, type⟩ := accepted.stores s stores
    dsimp only at only
    subst only
    obtain ⟨j, known', hasValue, -, same⟩ := (accepted.value (v := v) (by simp)).1
    exact ⟨v.number, slot, j, operands.symm, found, grows.instr known', hasValue, same.trans type⟩
  · obtain ⟨v, slot, j, args', found, known', facts⟩ := typed n s i known stores
    exact ⟨v, slot, j, args', found, grows.instr known', facts⟩

theorem StoresTyped.grows (typed : f.StoresTyped) (arena : g.arena = f.arena)
    (slots : f.slots <+: g.slots) : g.StoresTyped := by
  intro n s i known stores
  rw [arena] at known
  obtain ⟨v, slot, j, args, found, known', facts⟩ := typed n s i known stores
  exact ⟨v, slot, j, args, getElem?_of_prefix slots found, arena ▸ known', facts⟩

end Func

namespace Lower

variable {c c' : Cursor}

theorem Steps.storesTyped (steps : Steps c c') (typed : c.func.StoresTyped) :
    c'.func.StoresTyped := by
  refine steps.preserve (P := fun c => c.func.StoresTyped) (fun old c c' step typed => ?_) typed
  cases step with
  | emit planned => exact typed.append planned
  | slot => exact typed.grows rfl (List.prefix_append _ _)
  | block => exact typed.grows rfl (List.prefix_refl _)
  | move => exact typed

theorem body_storesTyped {f : FuncDef} {u : Unit} (ran : body f c = .ok (u, c')) :
    c'.func.StoresTyped := by
  obtain ⟨params, ret, steps⟩ := body_steps ran
  refine steps.storesTyped fun n s i known => ?_
  cases known

end Lower

/-- What a function needs is there before it on every way to it, and stores are typed. -/
theorem Lower.function_guarded {f : FuncDef} {g : Func} (lowered : Lower.function f = .ok g) :
    ∃ (F : Func) (A : Nat → Fact → Prop), F.Trims g ∧ F.StoresTyped ∧ g.Guarded A := by
  obtain ⟨c, ran, built⟩ := Lower.function_ok.1 lowered
  obtain ⟨A, guarded⟩ := Lower.body_guarded ran
  have trims := (Lower.body_laid ran).trims built
  exact ⟨c.func, A, trims, Lower.body_storesTyped ran, trims.guarded guarded⟩

/-- No slot is loaded from that holds nothing: on every way from the entry to a load of a
slot there is a store to it, and every store is of a value of the type of the slot. -/
theorem loads_follow_stores {p : Program} {threads : Int} {path : Text} {m : Module}
    (lowered : p.lower threads path = .ok m) {g : Func} (member : g ∈ m.functions) :
    (∀ {s n : Nat} {ns : List Nat}, g.LoadsFrom n s → g.Path ns n → ∃ k ∈ ns, g.StoresTo k s) ∧
    (∀ {s b n : Nat} {i : Instr}, n ∈ (g.block b).instrs → g.arena[n]? = some i → i.op = .store s →
      ∃ (v : Nat) (slot : Slot), i.args = [(v : Value)] ∧ g.slots[s]? = some slot ∧
        g.IsValue v slot.type) := by
  obtain ⟨f, -, ran⟩ := Program.lower_mem lowered member
  obtain ⟨F, A, trims, typed, guarded⟩ := Lower.function_guarded ran
  have formed := trims.formed
  constructor
  · rintro s n ns ⟨i, known, loads⟩ way
    exact guarded.on_path formed way known (x := .slot s) loads
  · intro s b n i here known stores
    have listed : b ∈ g.layout := by
      by_contra gone
      simp [trims.dropped b gone] at here
    obtain ⟨v, slot, j, args, found, known', hasValue, type⟩ :=
      typed n s i (trims.stays b n here ▸ known) stores
    obtain ⟨c, there⟩ := guarded.operand_block formed listed here known (m := v) (by simp [args])
    obtain ⟨j', known'', owner⟩ := formed.owner c v there
    have same : j' = j := by
      rw [trims.stays c v there, known'] at known''
      exact (Option.some.inj known'').symm
    subst same
    exact ⟨v, slot, args, trims.slots ▸ found, j', known'', hasValue, by simp [owner], type⟩

/-- In `sum` the outcome of `&&` is loaded from a slot that was stored to, also on the way
that skips the right operand. -/
theorem sums_outcome_is_stored : ∃ m g ns, sums.check.1.lower 2 "sums" = .ok m ∧
    g ∈ m.functions ∧ g.LoadsFrom 25 4 ∧ g.Path ns 25 ∧ ∃ k ∈ ns, g.StoresTo k 4 := by
  have shape : ((sums.check.1.lower 2 "sums").toOption.bind (·.functions.head?)).map (fun g =>
      (g.layout.head?, [0, 1, 2].map g.targets, (g.block 5).instrs, g.arena[25]?.map (·.op))) =
        some (some 0, [[1], [2, 3], [4, 5]], [25, 26], some (.load 4)) := by
    decide +kernel
  obtain ⟨g, found, shape⟩ := Option.map_eq_some_iff.1 shape
  obtain ⟨m, known, first⟩ := Option.bind_eq_some_iff.1 found
  have member : g ∈ m.functions := List.mem_of_mem_head? first
  have lowered : sums.check.1.lower 2 "sums" = .ok m := Except.toOption_eq_some.1 known
  simp only [List.map_cons, List.map_nil, Prod.mk.injEq, List.cons.injEq, and_true] at shape
  obtain ⟨entry, ⟨fromEntry, fromHead, fromBody⟩, instrs, op⟩ := shape
  have route : g.Route [0, 1, 2] 5 :=
    .step (.step (.step (.entry entry) (c := 1) (by simp [fromEntry])) (c := 2) (by simp [fromHead]))
      (by simp [fromBody])
  have way := Func.Path.intro route (show (g.block 5).instrs = [] ++ 25 :: [26] from instrs)
  have loads : g.LoadsFrom 25 4 := Option.map_eq_some_iff.1 op
  exact ⟨m, g, _, lowered, member, loads, way, (loads_follow_stores lowered member).1 loads way⟩

end ImpCompiler
