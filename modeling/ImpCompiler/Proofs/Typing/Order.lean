import ImpCompiler.Proofs.Typing.Annotations
import ImpCompiler.Proofs.Typing.Sound

/-!
# Proofs.Typing.Order — the order of functions does not matter to a check

Checking a function leaves nothing behind but its name as the one that was checked last,
and the next function puts its own name there. So functions are accepted if each of them is
accepted on its own (`checkFunctions_each`). What each is checked in lists the signatures in
the order of the functions, but the names are distinct, and so looking up a name gives the
same signature in every order.
-/

namespace ImpCompiler

set_option autoImplicit false

theorem Assoc.Keyed.lookup_perm {κ α : Type} [BEq κ] [LawfulBEq κ] {m m' : Assoc κ α}
    (keyed : Keyed m) (reordered : m.Perm m') (k : κ) : m.lookup k = m'.lookup k := by
  have keyed' : Keyed m' := (reordered.map Prod.fst).nodup_iff.1 keyed
  apply Option.ext
  intro a
  rw [keyed.lookup_iff, keyed'.lookup_iff]
  exact reordered.mem_iff

namespace Typing

/-- It does not matter which function was checked before. -/
theorem checkFunction_inFunction {env : Env} {f g : FuncDef}
    (known : env.signatures.lookup g.name = some g.signature) :
    checkFunction (env.inFunction f) g = checkFunction env g := by
  have known' : (env.inFunction f).signatures.lookup g.name = some g.signature := known
  unfold checkFunction
  rw [enterFunction_eq known, enterFunction_eq known']
  rfl

/-- Functions are accepted if each of them is, and each becomes what it becomes on its own. -/
theorem checkFunctions_each : ∀ (fs : List FuncDef) {env : Env}, env.scopes = [] →
    (∀ f ∈ fs, env.signatures.lookup f.name = some f.signature) →
    (∀ f ∈ fs, ∀ q ∈ f.params, q.type ≠ Ty.void) →
    ((checkFunctions env fs).2 = none ↔ ∀ f ∈ fs, (checkFunction env f).stop = none) ∧
      ((checkFunctions env fs).2 = none →
        (checkFunctions env fs).1 = fs.map fun f => (checkFunction env f).tree)
  | [], _, _, _, _ => by simp [checkFunctions]
  | f :: rest, env, closed, known, params => by
    rw [List.forall_mem_cons] at known params
    rw [checkFunctions]
    cases first : (checkFunction env f).stop with
    | some stop => simp [first]
    | none =>
      have left := (checkFunction_sound closed known.1 params.1 first).2
      obtain ⟨accepts, trees⟩ := checkFunctions_each rest
        (show (env.inFunction f).scopes = [] from closed) known.2 params.2
      have same : ∀ g ∈ rest, checkFunction (env.inFunction f) g = checkFunction env g :=
        fun g member => checkFunction_inFunction (known.2 g member)
      simp only [left, List.forall_mem_cons, first, true_and, List.map_cons]
      constructor
      · rw [accepts]
        exact forall₂_congr fun g member => by rw [same g member]
      · intro accepted
        rw [trees accepted]
        exact congrArg _ (List.map_congr_left fun g member => by rw [same g member])

/-- The functions of a program can be made known in every order, with the same names. -/
theorem globalEnv_perm {p q : Program} (reordered : p.functions.Perm q.functions) {env : Env}
    (global : globalEnv p = .ok env) : ∃ env', globalEnv q = .ok env' ∧ env.Alike env' := by
  obtain ⟨params, distinct, own, ⟨main, member, named⟩, rfl⟩ := globalEnv_ok.1 global
  have global' := globalEnv_ok.2 ⟨fun f member => params f (reordered.mem_iff.2 member),
    (reordered.map FuncDef.name).nodup_iff.1 distinct,
    fun f member => own f (reordered.mem_iff.2 member),
    ⟨main, reordered.mem_iff.1 member, named⟩, rfl⟩
  refine ⟨_, global', rfl, fun name => ?_, rfl, rfl⟩
  have keyed : Assoc.Keyed p.signatures := by
    rw [Assoc.Keyed, Program.signatures, List.map_append, List.map_reverse, List.map_map]
    refine List.nodup_append.2 ⟨(List.reverse_perm _).nodup_iff.2 distinct, by decide, ?_⟩
    rintro _ member _ builtin rfl
    obtain ⟨f, known, rfl⟩ := List.mem_map.1 (List.mem_reverse.1 member)
    exact own f known builtin
  apply keyed.lookup_perm
  have listed := reordered.map fun f => (f.name, f.signature)
  exact ((List.reverse_perm _).trans (listed.trans (List.reverse_perm _).symm)).append_right _

end Typing

namespace Program

/-- A program whose functions can be made known is accepted if each of them is, and each
becomes what it becomes on its own. -/
theorem check_each {p : Program} {env : Env} (global : Typing.globalEnv p = .ok env) :
    (p.check.2 = none ↔ ∀ f ∈ p.functions, (Typing.checkFunction env f).stop = none) ∧
      (p.check.2 = none →
        p.check.1.functions = p.functions.map fun f => (Typing.checkFunction env f).tree) := by
  obtain ⟨params, distinct, own, main, rfl⟩ := Typing.globalEnv_ok.1 global
  rw [check, global]
  exact Typing.checkFunctions_each p.functions rfl
    (fun f member => Typing.signatures_lookup distinct member) params

/-- The order of the functions does not matter to a program that is accepted. -/
theorem check_perm {p q : Program} (reordered : p.functions.Perm q.functions)
    (accepted : p.check.2 = none) :
    q.check.2 = none ∧ ∃ annotate : FuncDef → FuncDef, (∀ f, (annotate f).erase = f.erase) ∧
      p.check.1.functions = p.functions.map annotate ∧
      q.check.1.functions = q.functions.map annotate := by
  cases global : Typing.globalEnv p with
  | error e => simp [check, global] at accepted
  | ok env =>
    obtain ⟨env', global', alike⟩ := Typing.globalEnv_perm reordered global
    obtain ⟨accepts, trees⟩ := check_each global
    obtain ⟨accepts', trees'⟩ := check_each global'
    have each := accepts.1 accepted
    have both : ∀ f ∈ q.functions, (Typing.checkFunction env f).stop = none := fun f member =>
      each f (reordered.mem_iff.2 member)
    have accepted' : q.check.2 = none := accepts'.2 fun f member => by
      rw [← (Typing.checkFunction_alike f alike).1]
      exact both f member
    refine ⟨accepted', fun f => (Typing.checkFunction env f).tree,
      fun f => Typing.checkFunction_erase f, trees accepted, (trees' accepted').trans ?_⟩
    exact List.map_congr_left fun f member =>
      ((Typing.checkFunction_alike f alike).2 (both f member)).symm

end Program

/-- The order of functions does not matter to a check: a program is accepted in one order
if and only if it is in the other, and then each function is annotated in the same way. -/
theorem function_order_does_not_matter {p q : Program} (reordered : p.functions.Perm q.functions) :
    (p.check.2 = none ↔ q.check.2 = none) ∧
      (p.check.2 = none → ∃ annotate : FuncDef → FuncDef, (∀ f, (annotate f).erase = f.erase) ∧
        p.check.1.functions = p.functions.map annotate ∧
        q.check.1.functions = q.functions.map annotate) :=
  ⟨⟨fun accepted => (Program.check_perm reordered accepted).1,
      fun accepted => (Program.check_perm reordered.symm accepted).1⟩,
    fun accepted => (Program.check_perm reordered accepted).2⟩

def callsOne : FuncDef :=
  ⟨⟨1, 1⟩, "main", Ty.int, [], ⟨1, 12⟩, [.ret ⟨1, 14⟩ (.call ⟨1, 21⟩ "one" [])]⟩

def answersOne : FuncDef :=
  ⟨⟨2, 1⟩, "one", Ty.int, [], ⟨2, 11⟩, [.ret ⟨2, 13⟩ (.int ⟨2, 20⟩ 1)]⟩

/-- A function may stand before or behind the one that it calls. -/
theorem callsOne_in_both_orders : [callsOne, answersOne].Perm [answersOne, callsOne] ∧
    (Program.mk [callsOne, answersOne]).check.2 = none ∧
    (Program.mk [answersOne, callsOne]).check.2 = none ∧
    ∃ annotate : FuncDef → FuncDef, (∀ f, (annotate f).erase = f.erase) ∧
      (Program.mk [callsOne, answersOne]).check.1.functions =
        [annotate callsOne, annotate answersOne] ∧
      (Program.mk [answersOne, callsOne]).check.1.functions =
        [annotate answersOne, annotate callsOne] := by
  have swapped : [callsOne, answersOne].Perm [answersOne, callsOne] := List.Perm.swap _ _ _
  have accepted : (Program.mk [callsOne, answersOne]).check.2 = none :=
    Option.isNone_iff_eq_none.1 (by decide)
  obtain ⟨both, trees⟩ := function_order_does_not_matter (p := ⟨[callsOne, answersOne]⟩)
    (q := ⟨[answersOne, callsOne]⟩) swapped
  exact ⟨swapped, accepted, both.1 accepted, trees accepted⟩

end ImpCompiler
