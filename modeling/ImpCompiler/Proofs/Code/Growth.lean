import ImpCompiler.Code.Flow
import ImpCompiler.Proofs.Basics
import Mathlib.Data.List.Infix

/-!
# Proofs.Code.Growth — functions only grow while they are made

Making a function never takes anything back: an instruction keeps its number and its
fields, a block keeps the instructions it has and gets new ones behind them, and
slots and blocks keep their numbers. `Func.Grows` says this of two states of one
function.
-/

namespace ImpCompiler

set_option autoImplicit false

namespace Func

variable {f : Func} {b : Nat}

/-! ## Getters after one change -/

theorem block_of_size_le (outside : f.blocks.size ≤ b) : f.block b = default := by
  simp [block, Array.getD_eq_getD_getElem?, Array.getElem?_eq_none outside]

theorem instrs_of_size_le (outside : f.blocks.size ≤ b) : (f.block b).instrs = [] := by
  rw [block_of_size_le outside]
  rfl

theorem lt_size_of_mem {b n : Nat} (member : n ∈ (f.block b).instrs) : b < f.blocks.size := by
  by_contra outside
  rw [instrs_of_size_le (Nat.le_of_not_lt outside)] at member
  cases member

theorem block_eq_getElem (inside : b < f.blocks.size) : f.block b = f.blocks[b] := by
  simp [block, Array.getD_eq_getD_getElem?, inside]

@[simp] theorem append_arena (f : Func) (b : Nat) (op : Op) (t : DataType) (args : List Value) :
    (f.append b op t args).arena = f.arena.push ⟨op, t, args, some b, none, .unassigned⟩ := rfl

@[simp] theorem append_slots (f : Func) (b : Nat) (op : Op) (t : DataType) (args : List Value) :
    (f.append b op t args).slots = f.slots := rfl

@[simp] theorem append_size (f : Func) (b : Nat) (op : Op) (t : DataType) (args : List Value) :
    (f.append b op t args).blocks.size = f.blocks.size := by
  simp [append]

@[simp] theorem append_layout (f : Func) (b : Nat) (op : Op) (t : DataType) (args : List Value) :
    (f.append b op t args).layout = f.layout := rfl

theorem append_block (f : Func) (op : Op) (t : DataType) (args : List Value)
    (inside : b < f.blocks.size) :
    (f.append b op t args).block b =
      { f.block b with instrs := (f.block b).instrs ++ [f.arena.size] } := by
  rw [block_eq_getElem (by simpa using inside), block_eq_getElem inside]
  simp [append, Array.getElem_modify]

theorem append_block_ne (f : Func) {b c : Nat} (op : Op) (t : DataType) (args : List Value)
    (ne : c ≠ b) : (f.append b op t args).block c = f.block c := by
  by_cases inside : c < f.blocks.size
  · rw [block_eq_getElem (by simpa using inside), block_eq_getElem inside]
    simp [append, Array.getElem_modify, ne.symm]
  · rw [block_of_size_le (by simpa using inside), block_of_size_le (by simpa using inside)]

/-- The instructions of a block are the old ones and the new one. -/
theorem mem_append_block {b c n : Nat} {op : Op} {t : DataType} {args : List Value}
    (member : n ∈ ((f.append b op t args).block c).instrs) :
    n ∈ (f.block c).instrs ∨ n = f.arena.size ∧ c = b := by
  by_cases here : c = b
  · subst here
    have inside : c < f.blocks.size := append_size f c op t args ▸ lt_size_of_mem member
    rw [append_block f op t args inside] at member
    exact (List.mem_append.1 member).imp_right fun new => ⟨List.mem_singleton.1 new, rfl⟩
  · rw [append_block_ne f op t args here] at member
    exact .inl member

@[simp] theorem addBlock_snd (f : Func) (k : LabelKind) : (f.addBlock k).2 = f.blocks.size := rfl

@[simp] theorem addBlock_arena (f : Func) (k : LabelKind) : (f.addBlock k).1.arena = f.arena := rfl

@[simp] theorem addBlock_slots (f : Func) (k : LabelKind) : (f.addBlock k).1.slots = f.slots := rfl

@[simp] theorem addBlock_size (f : Func) (k : LabelKind) :
    (f.addBlock k).1.blocks.size = f.blocks.size + 1 := by
  simp [addBlock, pushBlock]

theorem addBlock_block_ne (f : Func) (k : LabelKind) (ne : b ≠ f.blocks.size) :
    (f.addBlock k).1.block b = f.block b := by
  by_cases inside : b < f.blocks.size
  · have bound : b < (f.addBlock k).1.blocks.size := by simp; omega
    rw [block_eq_getElem bound, block_eq_getElem inside]
    simp [addBlock, pushBlock, Array.getElem_push, inside]
  · rw [block_of_size_le (by simp; omega), block_of_size_le (by omega)]

/-- A block is empty when it is made. -/
theorem addBlock_block_instrs (f : Func) (k : LabelKind) (b : Nat) :
    ((f.addBlock k).1.block b).instrs = (f.block b).instrs := by
  by_cases same : b = f.blocks.size
  · subst same
    rw [block_of_size_le (Nat.le_refl _), block_eq_getElem (by simp)]
    simp [addBlock, pushBlock]
    rfl
  · rw [addBlock_block_ne f k same]

/-! ## Growth -/

/-- What is in `f` is in `g` too, in the same place. -/
structure Grows (f g : Func) : Prop where
  name : g.name = f.name
  ret : g.ret = f.ret
  params : g.params = f.params
  arena : f.arena.toList <+: g.arena.toList
  slots : f.slots <+: g.slots
  size : f.blocks.size ≤ g.blocks.size
  instrs : ∀ b : Nat, (f.block b).instrs <+: (g.block b).instrs

namespace Grows

variable {f g h : Func}

theorem refl (f : Func) : f.Grows f :=
  ⟨rfl, rfl, rfl, List.prefix_rfl, List.prefix_rfl, Nat.le_refl _, fun _ => List.prefix_rfl⟩

theorem trans (first : f.Grows g) (second : g.Grows h) : f.Grows h where
  name := second.name.trans first.name
  ret := second.ret.trans first.ret
  params := second.params.trans first.params
  arena := first.arena.trans second.arena
  slots := first.slots.trans second.slots
  size := Nat.le_trans first.size second.size
  instrs b := (first.instrs b).trans (second.instrs b)

theorem of_append (f : Func) (b : Nat) (op : Op) (t : DataType) (args : List Value) :
    f.Grows (f.append b op t args) where
  name := rfl
  ret := rfl
  params := rfl
  arena := by simp
  slots := List.prefix_rfl
  size := by simp
  instrs c := by
    by_cases same : c = b
    · subst same
      by_cases inside : c < f.blocks.size
      · simp [append_block f op t args inside]
      · rw [block_of_size_le (by omega)]
        exact List.nil_prefix
    · rw [append_block_ne f op t args same]

theorem of_addBlock (f : Func) (k : LabelKind) : f.Grows (f.addBlock k).1 where
  name := rfl
  ret := rfl
  params := rfl
  arena := List.prefix_rfl
  slots := List.prefix_rfl
  size := by simp
  instrs b := by
    rw [addBlock_block_instrs]

theorem of_slot (f : Func) (s : Slot) : f.Grows { f with slots := f.slots ++ [s] } where
  name := rfl
  ret := rfl
  params := rfl
  arena := List.prefix_rfl
  slots := List.prefix_append _ _
  size := Nat.le_refl _
  instrs _ := List.prefix_rfl

theorem arena_size (grows : f.Grows g) : f.arena.size ≤ g.arena.size := by
  simpa using grows.arena.length_le

theorem slots_length (grows : f.Grows g) : f.slots.length ≤ g.slots.length :=
  grows.slots.length_le

/-- An instruction keeps its number and its fields. -/
theorem instr (grows : f.Grows g) {n : Nat} {i : Instr} (known : f.arena[n]? = some i) :
    g.arena[n]? = some i := by
  rw [← Array.getElem?_toList] at known ⊢
  exact getElem?_of_prefix grows.arena known

theorem slot (grows : f.Grows g) {n : Nat} {s : Slot} (known : f.slots[n]? = some s) :
    g.slots[n]? = some s :=
  getElem?_of_prefix grows.slots known

/-- A block keeps the instruction at an offset. -/
theorem instr_at (grows : f.Grows g) {b : Nat} {k n : Nat}
    (known : (f.block b).instrs[k]? = some n) : (g.block b).instrs[k]? = some n :=
  getElem?_of_prefix (grows.instrs b) known

end Grows

end Func

end ImpCompiler
