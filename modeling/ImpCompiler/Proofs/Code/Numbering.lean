import ImpCompiler.Code.Numbering
import ImpCompiler.Proofs.Code.Available
import Mathlib.Data.List.Nodup

/-!
# Proofs.Code.Numbering — numbers of instructions

Numbering and the assignment of places change nothing about what a function does
(`Func.Annotates`), and so they keep its shape. The numbers of a block's instructions
are consecutive: the blocks are laid out in a line that has each of them once
(`Func.arrange_perm`), and an instruction is in one block only (`Func.Orderly`).
-/

namespace ImpCompiler

set_option autoImplicit false

/-- The instructions do the same in the same block. -/
structure Instr.Like (i j : Instr) : Prop where
  code : j.code = i.code
  block : j.block = i.block

namespace Instr.Like

variable {i j : Instr}

theorem symm (like : i.Like j) : j.Like i := ⟨like.code.symm, like.block.symm⟩

theorem op (like : i.Like j) : j.op = i.op := congrArg Prod.fst like.code

theorem type (like : i.Like j) : j.type = i.type := congrArg (fun c => c.2.1) like.code

theorem args (like : i.Like j) : j.args = i.args := congrArg (fun c => c.2.2) like.code

theorem hasValue (like : i.Like j) : j.hasValue = i.hasValue := by
  simp only [Instr.hasValue, like.op, like.type]

theorem uses (like : i.Like j) {x : Fact} : j.Uses x ↔ i.Uses x := by
  cases x <;> simp only [Instr.Uses, like.op, like.args]

end Instr.Like

theorem Instr.rel_map_like {h : Instr → Instr} (like : ∀ i : Instr, i.Like (h i)) (o : Option Instr) :
    Option.Rel Instr.Like o (o.map h) := by
  cases o with
  | none => exact .none
  | some i => exact .some (like i)

namespace Func

/-- The function `g` is `f` up to the numbers and places of instructions. -/
structure Annotates (f g : Func) : Prop where
  name : g.name = f.name
  blocks : g.blocks = f.blocks
  layout : g.layout = f.layout
  arena : ∀ n : Nat, Option.Rel Instr.Like f.arena[n]? g.arena[n]?

namespace Annotates

variable {f g : Func}

theorem symm (same : f.Annotates g) : g.Annotates f where
  name := same.name.symm
  blocks := same.blocks.symm
  layout := same.layout.symm
  arena n := by
    have both := same.arena n
    cases known : f.arena[n]? <;> cases known' : g.arena[n]? <;> rw [known, known'] at both <;>
      cases both
    case none.none => exact .none
    case some.some like => exact .some like.symm

theorem trans {h : Func} (first : f.Annotates g) (second : g.Annotates h) : f.Annotates h where
  name := second.name.trans first.name
  blocks := second.blocks.trans first.blocks
  layout := second.layout.trans first.layout
  arena n := by
    have before := first.arena n
    have behind := second.arena n
    generalize f.arena[n]? = x, g.arena[n]? = y, h.arena[n]? = z at before behind ⊢
    cases before with
    | none => exact behind
    | some like =>
      cases behind with
      | some like' => exact .some ⟨like'.code.trans like.code, like'.block.trans like.block⟩

theorem instr (same : f.Annotates g) {n : Nat} {i : Instr} (known : f.arena[n]? = some i) :
    ∃ j, g.arena[n]? = some j ∧ i.Like j := by
  have both := same.arena n
  cases known' : g.arena[n]? <;> rw [known, known'] at both <;> cases both
  case some.some j like => exact ⟨j, rfl, like⟩

theorem block (same : f.Annotates g) (b : Nat) : g.block b = f.block b := by
  simp only [Func.block, same.blocks]

theorem instrs (same : f.Annotates g) : g.instrs = f.instrs := by
  simp only [Func.instrs, same.layout, same.block]

theorem code (same : f.Annotates g) (n : Nat) :
    g.arena[n]?.map Instr.code = f.arena[n]?.map Instr.code := by
  have both := same.arena n
  cases known : f.arena[n]? <;> cases known' : g.arena[n]? <;> rw [known, known'] at both <;>
    cases both
  · rename_i like
    exact congrArg some like.code

theorem targets (same : f.Annotates g) (b : Nat) : g.targets b = f.targets b :=
  targets_congr (lastCode?_congr (by rw [same.block]) same.code)

theorem route (same : f.Annotates g) {passed : List Nat} {b : Nat} (route : f.Route passed b) :
    g.Route passed b := by
  induction route with
  | entry first => exact .entry (same.layout ▸ first)
  | step _ goes ih => exact .step ih (same.targets _ ▸ goes)

/-- Numbers and places do not change the form of the code. -/
theorem formed (same : f.Annotates g) (formed : f.Formed) : g.Formed where
  first := same.layout ▸ formed.first
  distinct := same.layout ▸ formed.distinct
  reached b listed := by
    obtain ⟨passed, route⟩ := formed.reached b (same.layout ▸ listed)
    exact ⟨passed, same.route route⟩
  ends b listed := by
    obtain ⟨body, n, i, whole, known, ends, within, plain⟩ := formed.ends b (same.layout ▸ listed)
    obtain ⟨j, known', like⟩ := same.instr known
    refine ⟨body, n, j, by rw [same.block, whole], known', like.op ▸ ends, ?_, fun m member => ?_⟩
    · rwa [like.op, same.layout]
    · rw [isTerminatorAt_congr (same.code m), plain m member]
  owner b n member := by
    obtain ⟨i, known, owner⟩ := formed.owner b n (same.block b ▸ member)
    obtain ⟨j, known', like⟩ := same.instr known
    exact ⟨j, known', like.block.trans owner⟩
  once b := same.block b ▸ formed.once b
  values := formed.values.congr same.code
  preds b listed := by
    rw [same.block, formed.preds b (same.layout ▸ listed)]
    simp only [incoming, same.layout, same.targets]
  succs b listed := by rw [same.block, formed.succs b (same.layout ▸ listed), same.targets]

theorem provide (same : f.Annotates g) {ns : List Nat} {x : Fact} (given : f.Provide ns x) :
    g.Provide ns x := by
  refine given.congr fun n _ i known => ?_
  obtain ⟨j, known', like⟩ := same.instr known
  exact ⟨j, known', like.op⟩

/-- Numbers and places do not change what is there where it is used. -/
theorem guarded (same : f.Annotates g) {A : Nat → Fact → Prop} (guarded : f.Guarded A) :
    g.Guarded A where
  entry := guarded.entry
  uses whole known x used := by
    obtain ⟨i, known', like⟩ := same.symm.instr known
    refine (guarded.uses (same.block _ ▸ whole) known' x (like.uses.2 used)).imp id same.provide
  goes whole known t goes x there := by
    obtain ⟨i, known', like⟩ := same.symm.instr known
    exact (guarded.goes (same.block _ ▸ whole) known' t (like.op ▸ goes) x there).imp id same.provide

theorem dominated (same : f.Annotates g) (dominated : f.Dominated) : g.Dominated where
  operand listed whole known used := by
    obtain ⟨i, known', like⟩ := same.symm.instr known
    refine (dominated.operand (same.layout ▸ listed) (same.block _ ▸ whole) known'
      (like.args.symm ▸ used)).imp (fun there passed route => ?_) id
    obtain ⟨c, member, computed⟩ := there passed (same.symm.route route)
    exact ⟨c, member, by rwa [same.block]⟩

end Annotates

variable {f : Func}

/-! ## The line of blocks -/

theorem nextBlock?_mem {done rest : List Nat} {b : Nat} (next : f.nextBlock? done rest = some b) :
    b ∈ rest := by
  rcases Option.or_eq_some_iff.1 next with found | ⟨-, first⟩
  · exact List.mem_of_find?_eq_some found
  · exact List.mem_of_mem_head? first

/-- All blocks come, each once. -/
theorem arrange_perm (n : Nat) (done rest : List Nat) (enough : n = rest.length) :
    (f.arrange n done rest).Perm rest := by
  induction n generalizing done rest with
  | zero => simp [arrange, List.eq_nil_of_length_eq_zero enough.symm]
  | succ n ih =>
    rw [arrange]
    cases next : f.nextBlock? done rest with
    | none =>
      rw [nextBlock?, Option.or_eq_none_iff] at next
      simp [List.head?_eq_none_iff.1 next.2] at enough
    | some b =>
      have member := nextBlock?_mem next
      have shorter : n = (rest.erase b).length := by
        rw [List.length_erase_of_mem member]
        omega
      exact ((ih _ _ shorter).cons b).trans (List.perm_cons_erase member).symm

/-- The instructions in the order of their numbers. -/
def line (f : Func) : List Nat :=
  (f.arrange f.layout.length [] f.layout).flatMap fun b => (f.block b).instrs

theorem number_arena {n k : Nat} (place : f.line.idxOf? n = some k) :
    f.number.arena[n]? = f.arena[n]?.map fun i => { i with index := some k } := by
  rw [line] at place
  simp [number, mapArena, place]

theorem annotates_number (f : Func) : f.Annotates f.number where
  name := rfl
  blocks := rfl
  layout := rfl
  arena n := by
    simp only [number, mapArena, Array.getElem?_mapIdx]
    refine Instr.rel_map_like (fun i => ?_) _
    split <;> exact ⟨rfl, rfl⟩

/-- A function whose layout has a block once, whose instructions are in one block each, once,
and are known, and in which control comes to blocks from blocks of the layout. -/
structure Orderly (f : Func) : Prop where
  distinct : f.layout.Nodup
  once : f.instrs.Nodup
  known : ∀ n ∈ f.instrs, n < f.arena.size
  linked : ∀ b ∈ f.layout, (f.block b).preds ⊆ f.layout

/-- An instruction is in one block once, if it says in which. -/
theorem instrs_nodup (distinct : f.layout.Nodup) (once : ∀ b, (f.block b).instrs.Nodup)
    (unique : ∀ {b c n}, n ∈ (f.block b).instrs → n ∈ (f.block c).instrs → b = c) :
    f.instrs.Nodup := by
  refine List.nodup_flatMap.2 ⟨fun b _ => once b, distinct.imp fun {b c} different => ?_⟩
  exact fun n here there => different (unique here there)

theorem Formed.orderly (formed : f.Formed) : f.Orderly where
  distinct := formed.distinct
  once := instrs_nodup formed.distinct formed.once formed.unique
  known n member := by
    obtain ⟨b, -, here⟩ := List.mem_flatMap.1 member
    obtain ⟨i, known, -⟩ := formed.owner b n here
    exact (Array.getElem?_eq_some_iff.1 known).1
  linked b listed := by
    rw [formed.preds b listed]
    exact List.filter_subset_self _

theorem line_perm (f : Func) : f.line.Perm f.instrs :=
  (f.arrange_perm f.layout.length [] f.layout rfl).flatMap_right _

/-- An instruction has the number of its place in the line. -/
theorem Orderly.number_line (orderly : f.Orderly) {k n : Nat} (place : f.line[k]? = some n) :
    ∃ i, f.number.arena[n]? = some i ∧ i.index = some k := by
  obtain ⟨inside, at'⟩ := List.getElem?_eq_some_iff.1 place
  have once := f.line_perm.nodup_iff.2 orderly.once
  have first : f.line.idxOf? n = some k := by
    refine List.idxOf?_eq_some_iff.2 ⟨inside, at', fun j earlier same => ?_⟩
    have := (List.getElem_inj once).1 (same.trans at'.symm)
    omega
  have known := orderly.known n (f.line_perm.mem_iff.1 (List.mem_of_getElem? place))
  exact ⟨_, by rw [number_arena first, Array.getElem?_eq_getElem known]; rfl, rfl⟩

/-- The instructions of a block have consecutive numbers, behind those of the blocks that
come before. -/
theorem Orderly.number_block (orderly : f.Orderly) {before behind : List Nat} {b k n : Nat}
    (split : f.number.order = before ++ b :: behind) (here : (f.block b).instrs[k]? = some n) :
    ∃ i, f.number.arena[n]? = some i ∧
      i.index = some ((before.flatMap fun c => (f.block c).instrs).length + k) := by
  refine orderly.number_line ?_
  have whole : f.line = before.flatMap (fun c => (f.block c).instrs) ++
      ((f.block b).instrs ++ behind.flatMap fun c => (f.block c).instrs) := by
    rw [line, show f.arrange f.layout.length [] f.layout = _ from split]
    simp
  obtain ⟨inside, -⟩ := List.getElem?_eq_some_iff.1 here
  rw [whole, List.getElem?_append_right (Nat.le_add_right _ _), Nat.add_sub_cancel_left,
    List.getElem?_append_left inside, here]

/-- The instructions of a block have consecutive numbers. -/
theorem Formed.number_index (formed : f.Formed) {b : Nat} (listed : b ∈ f.layout) :
    ∃ base : Nat, ∀ {k n : Nat}, (f.block b).instrs[k]? = some n →
      ∃ i, f.number.arena[n]? = some i ∧ i.index = some (base + k) := by
  have order := f.arrange_perm f.layout.length [] f.layout rfl
  obtain ⟨before, behind, split⟩ := List.append_of_mem (order.mem_iff.2 listed)
  exact ⟨_, fun here => formed.orderly.number_block split here⟩

end Func

end ImpCompiler
