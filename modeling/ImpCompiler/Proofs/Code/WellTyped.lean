import ImpCompiler.Proofs.Code.Requests

/-!
# Proofs.Code.WellTyped — the typing rules of instructions

`Func.Rule` says which operands an operation takes and what type its value has; there is
one rule for each way to ask for an instruction. A function is well typed if its
instructions keep the rules and its blocks list them, each in one place. A request that is
accepted keeps the rules (`Plans.rule`), and so a well typed function stays well typed when
it gets a block, a slot or an instruction.
-/

namespace ImpCompiler

set_option autoImplicit false

namespace Func

/-- `x` is a value of type `t` of the function, with a smaller number than `n`. -/
def Earlier (f : Func) (n : Nat) (x : Value) (t : DataType) : Prop :=
  ∃ k : Nat, x = k ∧ k < n ∧ f.IsValue k t

/-- The operation, the type and the operands that instruction `n` of a function may have. -/
inductive Rule (f : Func) (n : Nat) : Op → DataType → List Value → Prop
  | param {k : Nat} {t : DataType} (known : f.params[k]? = some t) : Rule f n (.param k) t []
  | int {v : Int64} : Rule f n (.const (.int v)) .int []
  | double {v : Double} : Rule f n (.const (.double v)) .double []
  | bool {v : Bool} : Rule f n (.const (.bool v)) .bool []
  | null : Rule f n (.const .null) .ptr []
  | string {s : Text} : Rule f n (.string s) .ptr []
  | load {k : Nat} {s : Slot} (known : f.slots[k]? = some s) : Rule f n (.load k) s.type []
  | store {k : Nat} {s : Slot} {x : Value} (known : f.slots[k]? = some s)
      (value : f.Earlier n x s.type) : Rule f n (.store k) .void [x]
  | arith {op : ArithOp} {t : DataType} {x y : Value} (binary : op ≠ .neg ∧ op ≠ .not)
      (left : f.Earlier n x t) (right : f.Earlier n y t) : Rule f n (.arith op) t [x, y]
  | neg {t : DataType} {x : Value} (operand : f.Earlier n x t) : Rule f n (.arith .neg) t [x]
  | not {x : Value} (operand : f.Earlier n x .bool) : Rule f n (.arith .not) .bool [x]
  | compare {rel : RelOp} {t : DataType} {x y : Value} (left : f.Earlier n x t)
      (right : f.Earlier n y t) : Rule f n (.compare rel) .bool [x, y]
  | copy {t : DataType} {x : Value} (source : f.Earlier n x t) : Rule f n .copy t [x]
  | call {name : Text} {ret : DataType} {args : List Value}
      (arguments : ∀ x ∈ args, ∃ t, f.Earlier n x t) : Rule f n (.call name) ret args
  | newArray {elem : DataType} {dims : Int} {sizes : List Value} (some : sizes ≠ [])
      (enough : (sizes.length : Int) ≤ dims) (ints : ∀ x ∈ sizes, f.Earlier n x .int) :
      Rule f n (.newArray elem dims) .ptr sizes
  | arrayLen {a : Value} (array : f.Earlier n a .ptr) : Rule f n .arrayLen .int [a]
  | loadElem {t : DataType} {a i : Value} (array : f.Earlier n a .ptr)
      (index : f.Earlier n i .int) : Rule f n (.loadElem t) t [a, i]
  | storeElem {t : DataType} {a i x : Value} (array : f.Earlier n a .ptr)
      (index : f.Earlier n i .int) (value : f.Earlier n x t) :
      Rule f n (.storeElem t) .void [a, i, x]
  | branch {b : BlockId} (target : b < f.blocks.size) : Rule f n (.branch b) .void []
  | condBranch {c : Value} {yes no : BlockId} (cond : f.Earlier n c .bool)
      (first : yes < f.blocks.size) (second : no < f.blocks.size) :
      Rule f n (.condBranch yes no) .void [c]
  | ret {x : Value} (answer : f.Earlier n x f.ret) : Rule f n .ret .void [x]
  | retVoid (nothing : f.ret = .void) : Rule f n .ret .void []
  | unreachable : Rule f n .unreachable .void []

/-- The instructions of the function keep the rules, no slot is void, and every instruction
is listed once, in the block that it names. -/
structure WellTyped (f : Func) : Prop where
  slots : ∀ s ∈ f.slots, s.type ≠ .void
  rules : ∀ (n : Nat) (i : Instr), f.arena[n]? = some i → f.Rule n i.op i.type i.args
  placed : ∀ (n : Nat) (i : Instr), f.arena[n]? = some i →
    ∃ b, i.block = some b ∧ b < f.blocks.size ∧ n ∈ (f.block b).instrs
  listed : ∀ (b n : Nat), n ∈ (f.block b).instrs → ∃ i, f.arena[n]? = some i ∧ i.block = some b
  ordered : ∀ b : Nat, (f.block b).instrs.Pairwise (· < ·)

variable {f g : Func} {n : Nat} {t : DataType}

/-! ## Growing functions -/

theorem IsValue.lt (value : f.IsValue n t) : n < f.arena.size := by
  obtain ⟨i, known, -⟩ := value
  exact (Array.getElem?_eq_some_iff.1 known).1

theorem IsValue.earlier (value : f.IsValue n t) : f.Earlier f.arena.size n t :=
  ⟨n, rfl, value.lt, value⟩

theorem Earlier.grows {x : Value} (earlier : f.Earlier n x t) (grows : f.Grows g) :
    g.Earlier n x t := by
  obtain ⟨k, same, smaller, value⟩ := earlier
  exact ⟨k, same, smaller, value.grows grows⟩

/-- A rule that an instruction keeps is kept when the function grows. -/
theorem Rule.grows {op : Op} {args : List Value} (rule : f.Rule n op t args)
    (grows : f.Grows g) : g.Rule n op t args := by
  have inside : ∀ {b : Nat}, b < f.blocks.size → b < g.blocks.size := fun known =>
    Nat.lt_of_lt_of_le known grows.size
  cases rule with
  | param known => exact .param (by rwa [grows.params])
  | int => exact .int
  | double => exact .double
  | bool => exact .bool
  | null => exact .null
  | string => exact .string
  | load known => exact .load (grows.slot known)
  | store known value => exact .store (grows.slot known) (value.grows grows)
  | arith binary left right => exact .arith binary (left.grows grows) (right.grows grows)
  | neg operand => exact .neg (operand.grows grows)
  | not operand => exact .not (operand.grows grows)
  | compare left right => exact .compare (left.grows grows) (right.grows grows)
  | copy source => exact .copy (source.grows grows)
  | call arguments =>
    refine .call fun x member => ?_
    obtain ⟨t, value⟩ := arguments x member
    exact ⟨t, value.grows grows⟩
  | newArray some enough ints =>
    exact .newArray some enough fun x member => (ints x member).grows grows
  | arrayLen array => exact .arrayLen (array.grows grows)
  | loadElem array index => exact .loadElem (array.grows grows) (index.grows grows)
  | storeElem array index value =>
    exact .storeElem (array.grows grows) (index.grows grows) (value.grows grows)
  | branch target => exact .branch (inside target)
  | condBranch cond first second =>
    exact .condBranch (cond.grows grows) (inside first) (inside second)
  | ret answer =>
    apply Rule.ret
    rw [grows.ret]
    exact answer.grows grows
  | retVoid nothing => exact .retVoid (by rwa [grows.ret])
  | unreachable => exact .unreachable

/-- The instruction of a request that is accepted keeps the rules. -/
theorem Plans.rule {r : Request} {op : Op} {vs : List ValueRef} (plans : f.Plans r (op, t, vs)) :
    f.Rule f.arena.size op t (vs.map fun v => (v.number : Value)) := by
  cases plans with
  | param known => exact .param known
  | int => exact .int
  | double => exact .double
  | bool => exact .bool
  | null => exact .null
  | string => exact .string
  | load known => exact .load known
  | store known value => exact .store known value.earlier
  | arith binary left right => exact .arith binary left.earlier right.earlier
  | neg value => exact .neg value.earlier
  | not value => exact .not value.earlier
  | compare left right => exact .compare left.earlier right.earlier
  | copy value => exact .copy value.earlier
  | call values =>
    refine .call fun x member => ?_
    obtain ⟨v, known, rfl⟩ := List.mem_map.1 member
    obtain ⟨o, -, accepts⟩ := exists_of_forall₂ values.flip known
    exact ⟨v.type, accepts.value.earlier⟩
  | newArray some enough sizes =>
    refine .newArray ?_ ?_ fun x member => ?_
    · intro none
      rw [List.map_eq_nil_iff.1 none] at sizes
      cases sizes
      exact some rfl
    · rwa [List.length_map, ← sizes.length_eq]
    · obtain ⟨v, known, rfl⟩ := List.mem_map.1 member
      obtain ⟨o, -, accepts, int⟩ := exists_of_forall₂ sizes.flip known
      exact (int ▸ accepts.value).earlier
  | arrayLen array => exact .arrayLen array.earlier
  | loadElem array index => exact .loadElem array.earlier index.earlier
  | storeElem array index value => exact .storeElem array.earlier index.earlier value.earlier
  | branch inside => exact .branch inside
  | condBranch cond yesInside noInside => exact .condBranch cond.earlier yesInside noInside
  | ret value => exact .ret value.earlier
  | retVoid nothing => exact .retVoid nothing
  | unreachable => exact .unreachable

/-! ## One more block, slot or instruction -/

/-- `g` is `f` with the instruction `i` at the end of its arena and of block `b`. -/
structure OneMore (f : Func) (b : BlockId) (i : Instr) (g : Func) : Prop where
  inside : b < f.blocks.size
  named : i.block = some b
  arena : g.arena = f.arena.push i
  size : g.blocks.size = f.blocks.size
  block : g.block b = { f.block b with instrs := (f.block b).instrs ++ [f.arena.size] }
  others : ∀ c : Nat, c ≠ b → g.block c = f.block c
  rest : g = { f with arena := g.arena, blocks := g.blocks }

namespace OneMore

variable {b : Nat} {i : Instr}

theorem append {op : Op} {t : DataType} {args : List Value} (inside : b < f.blocks.size) :
    f.OneMore b ⟨op, t, args, some b, none, .unassigned⟩ (f.append b op t args) where
  inside := inside
  named := rfl
  arena := f.append_arena b op t args
  size := f.append_size b op t args
  block := f.append_block op t args inside
  others _ ne := f.append_block_ne op t args ne
  rest := rfl

theorem grows (more : f.OneMore b i g) : f.Grows g where
  name := by rw [more.rest]
  ret := by rw [more.rest]
  params := by rw [more.rest]
  arena := by simp [more.arena]
  slots := by rw [more.rest]
  size := Nat.le_of_eq more.size.symm
  instrs c := by
    by_cases same : c = b
    · subst same
      rw [more.block]
      exact List.prefix_append _ _
    · rw [more.others c same]

/-- An instruction is one that was there before, or the new one. -/
theorem instr_cases (more : f.OneMore b i g) {j : Instr} (known : g.arena[n]? = some j) :
    f.arena[n]? = some j ∨ n = f.arena.size ∧ j = i := by
  rw [more.arena, Array.getElem?_push] at known
  split at known
  · rename_i last
    exact .inr ⟨last, (Option.some.inj known).symm⟩
  · exact .inl known

theorem instr_new (more : f.OneMore b i g) : g.arena[f.arena.size]? = some i := by
  rw [more.arena, Array.getElem?_push_size]

/-- The new instruction is the only one that was not listed before. -/
theorem listed_cases (more : f.OneMore b i g) {c : Nat} (member : n ∈ (g.block c).instrs) :
    n ∈ (f.block c).instrs ∨ c = b ∧ n = f.arena.size := by
  by_cases same : c = b
  · subst same
    rw [more.block] at member
    rcases List.mem_append.1 member with known | last
    · exact .inl known
    · exact .inr ⟨rfl, List.mem_singleton.1 last⟩
  · rw [more.others c same] at member
    exact .inl member

end OneMore

namespace WellTyped

/-- An instruction is in one block. -/
theorem unique (typed : f.WellTyped) {b c : Nat} (here : n ∈ (f.block b).instrs)
    (there : n ∈ (f.block c).instrs) : b = c := by
  obtain ⟨i, known, owner⟩ := typed.listed b n here
  obtain ⟨j, known', owner'⟩ := typed.listed c n there
  cases known.symm.trans known'
  exact Option.some.inj (owner.symm.trans owner')

theorem empty (name : Text) (ret : DataType) (params : List DataType) :
    (Func.empty name ret params).WellTyped where
  slots s member := by cases member
  rules n i known := by simp [Func.empty] at known
  placed n i known := by simp [Func.empty] at known
  listed b n member := by
    rw [instrs_of_size_le (Nat.zero_le b)] at member
    cases member
  ordered b := by
    rw [instrs_of_size_le (Nat.zero_le b)]
    exact .nil

theorem addBlock (typed : f.WellTyped) (kind : LabelKind) : (f.addBlock kind).1.WellTyped where
  slots := typed.slots
  rules n i known := (typed.rules n i known).grows (.of_addBlock f kind)
  placed n i known := by
    obtain ⟨b, named, inside, member⟩ := typed.placed n i known
    refine ⟨b, named, ?_, by rwa [addBlock_block_instrs]⟩
    rw [addBlock_size]
    exact Nat.lt_succ_of_lt inside
  listed b n member := by
    rw [addBlock_block_instrs] at member
    exact typed.listed b n member
  ordered b := by
    rw [addBlock_block_instrs]
    exact typed.ordered b

theorem addSlot (typed : f.WellTyped) {s : Slot} (some : s.type ≠ .void) :
    ({ f with slots := f.slots ++ [s] } : Func).WellTyped where
  slots u member := by
    rcases List.mem_append.1 member with known | last
    · exact typed.slots u known
    · rw [List.mem_singleton.1 last]
      exact some
  rules n i known := (typed.rules n i known).grows (.of_slot f s)
  placed := typed.placed
  listed := typed.listed
  ordered := typed.ordered

/-- A well typed function stays so with one more instruction that keeps the rules. -/
theorem oneMore (typed : f.WellTyped) {b : Nat} {i : Instr} (more : f.OneMore b i g)
    (rule : f.Rule f.arena.size i.op i.type i.args) : g.WellTyped := by
  have grows := more.grows
  refine ⟨fun s member => ?_, fun n j known => ?_, fun n j known => ?_, fun c n member => ?_,
    fun c => ?_⟩
  · rw [more.rest] at member
    exact typed.slots s member
  · rcases more.instr_cases known with known | ⟨rfl, rfl⟩
    · exact (typed.rules n j known).grows grows
    · exact rule.grows grows
  · rcases more.instr_cases known with known | ⟨rfl, rfl⟩
    · obtain ⟨c, named, there, member⟩ := typed.placed n j known
      exact ⟨c, named, by rwa [more.size], (grows.instrs c).subset member⟩
    · refine ⟨b, more.named, by rw [more.size]; exact more.inside, ?_⟩
      rw [more.block]
      exact List.mem_append_right _ (List.mem_singleton.2 rfl)
  · rcases more.listed_cases member with known | ⟨rfl, rfl⟩
    · obtain ⟨j, found, named⟩ := typed.listed c n known
      exact ⟨j, grows.instr found, named⟩
    · exact ⟨i, more.instr_new, more.named⟩
  · by_cases same : c = b
    · subst same
      rw [more.block]
      refine List.pairwise_append.2 ⟨typed.ordered c, List.pairwise_singleton _ _, ?_⟩
      intro n member last isLast
      rw [List.mem_singleton.1 isLast]
      obtain ⟨j, found, -⟩ := typed.listed c n member
      exact (Array.getElem?_eq_some_iff.1 found).1
    · rw [more.others c same]
      exact typed.ordered c

end WellTyped

end Func

end ImpCompiler
