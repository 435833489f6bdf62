import ImpCompiler.Proofs.Code.Atomic
import ImpCompiler.Proofs.Code.Growth

/-!
# Proofs.Code.Requests — which requests are accepted

`Func.IsValue n t` says that instruction `n` is a value of type `t` in a block of the
function. `Func.Plans` says in terms of `IsValue` which requests are accepted and which
instruction comes of each, with one rule for each way to ask. `Builder.create` makes that
instruction of the requests that the rules accept and of no others (`Builder.create_ok`),
and nothing else opens `Builder.create`.
-/

namespace ImpCompiler

set_option autoImplicit false

namespace Func

/-- Instruction `n` is a value of type `t` in a block of the function. -/
def IsValue (f : Func) (n : Nat) (t : DataType) : Prop :=
  ∃ i, f.arena[n]? = some i ∧ i.hasValue = true ∧ i.block.isSome = true ∧ i.type = t

variable {f : Func}

theorem IsValue.grows {g : Func} {n : Nat} {t : DataType} (value : f.IsValue n t)
    (grows : f.Grows g) : g.IsValue n t := by
  obtain ⟨i, known, facts⟩ := value
  exact ⟨i, grows.instr known, facts⟩

/-! ## Operands, slots and blocks -/

/-- The operand of a request that is accepted as the value `v`. -/
structure Accepts (f : Func) (o : Operand) (v : ValueRef) : Prop where
  own : o = .own v.number
  value : f.IsValue v.number v.type

section Operands

variable {request : Text} {k : Nat} {o : Operand} {v : ValueRef} {os : List Operand}
  {vs : List ValueRef}

/-- Only a value of the function in one of its blocks is an operand. -/
theorem operand_ok : f.operand request k o = .ok v ↔ f.Accepts o v := by
  constructor
  · intro accepted
    cases o with
    | missing => simp [operand] at accepted
    | own n =>
      simp only [operand] at accepted
      split at accepted
      · simp at accepted
      · rename_i i known
        split at accepted
        · simp at accepted
        · rename_i hasValue
          split at accepted
          · simp at accepted
          · rename_i inBlock
            cases accepted
            exact ⟨rfl, i, known, by simpa using hasValue,
              Option.isSome_iff_ne_none.2 (by simpa using inBlock), rfl⟩
    | foreign owner i =>
      simp only [operand] at accepted
      split at accepted
      · simp at accepted
      · split at accepted <;> simp at accepted
  · rintro ⟨rfl, i, known, hasValue, inBlock, type⟩
    obtain ⟨b, inBlock⟩ := Option.isSome_iff_exists.1 inBlock
    simp [operand, known, hasValue, inBlock, type]

theorem operandOf_ok {t : DataType} :
    f.operandOf request k t o = .ok v ↔ f.Accepts o v ∧ v.type = t := by
  simp only [operandOf, Except.bind_eq_ok, operand_ok, Except.ite_throw_eq_ok, Except.pure_eq_ok]
  constructor
  · rintro ⟨u, accepts, type, rfl⟩
    exact ⟨accepts, type⟩
  · rintro ⟨accepts, type⟩
    exact ⟨v, accepts, type, rfl⟩

theorem arguments_ok : f.arguments request k os = .ok vs ↔ List.Forall₂ f.Accepts os vs := by
  induction os generalizing k vs with
  | nil => simp [arguments]
  | cons o os ih =>
    simp only [arguments, Except.bind_eq_ok, operand_ok, ih, Except.pure_eq_ok,
      List.forall₂_cons_left_iff]
    tauto

theorem sizes_ok :
    f.sizes request k os = .ok vs ↔ List.Forall₂ (fun o v => f.Accepts o v ∧ v.type = .int) os vs := by
  induction os generalizing k vs with
  | nil => simp [sizes]
  | cons o os ih =>
    simp only [sizes, Except.bind_eq_ok, operandOf_ok, ih, Except.pure_eq_ok,
      List.forall₂_cons_left_iff]
    tauto

end Operands

theorem slot?_some {k : Int} {n : Nat} {s : Slot} :
    f.slot? k = some (n, s) ↔ k = n ∧ f.slots[n]? = some s := by
  simp only [slot?]
  constructor
  · intro known
    split at known
    · obtain ⟨t, found, same⟩ := Option.map_eq_some_iff.1 known
      cases same
      exact ⟨by omega, found⟩
    · cases known
  · rintro ⟨rfl, found⟩
    simp [found]

theorem param?_some {k : Int} {n : Nat} {t : DataType} :
    f.param? k = some (n, t) ↔ k = n ∧ f.params[n]? = some t := by
  simp only [param?]
  constructor
  · intro known
    split at known
    · obtain ⟨u, found, same⟩ := Option.map_eq_some_iff.1 known
      cases same
      exact ⟨by omega, found⟩
    · cases known
  · rintro ⟨rfl, found⟩
    simp [found]

/-- Only a block of the function itself is a destination. -/
theorem destination?_some {d : Destination} {b : Nat} :
    f.destination? d = some b ↔ d = .own b ∧ b < f.blocks.size := by
  cases d with
  | missing => simp [destination?]
  | foreign owner c => simp [destination?]
  | own c =>
    simp only [destination?, Option.ite_none_right_eq_some, Option.some.injEq, Destination.own.injEq]
    constructor
    · rintro ⟨inside, rfl⟩
      exact ⟨rfl, inside⟩
    · rintro ⟨rfl, inside⟩
      exact ⟨inside, rfl⟩

theorem destinations?_some {yes no : Destination} {p : BlockId × BlockId} :
    f.destinations? yes no = some p ↔
      (yes = .own p.1 ∧ p.1 < f.blocks.size) ∧ no = .own p.2 ∧ p.2 < f.blocks.size := by
  rw [← destination?_some, ← destination?_some, destinations?]
  obtain ⟨y, n⟩ := p
  simp only [Option.bind_eq_bind, Option.bind_eq_some_iff, Option.pure_def, Option.some.injEq, Prod.mk.injEq]
  constructor
  · rintro ⟨y, first, n, second, rfl, rfl⟩
    exact ⟨first, second⟩
  · rintro ⟨first, second⟩
    exact ⟨y, first, n, second, rfl, rfl⟩

/-- What a return hands back: nothing, or a value of the type that the function returns. -/
inductive Returns (f : Func) : Option Operand → List ValueRef → Prop
  | nothing (void : f.ret = .void) : Returns f none []
  | value {n : Nat} (value : f.IsValue n f.ret) : Returns f (some (.own n)) [⟨n, f.ret⟩]

theorem returned_ok {o : Option Operand} {vs : List ValueRef} :
    f.returned o = .ok vs ↔ f.Returns o vs := by
  constructor
  · intro accepted
    cases o with
    | none =>
      obtain ⟨void, same⟩ := Except.ite_throw_eq_ok.1 accepted
      cases same
      exact .nothing void
    | some o =>
      obtain ⟨⟨n, t⟩, known, accepted⟩ := Except.bind_eq_ok.1 accepted
      obtain ⟨same, answer⟩ := Except.ite_throw_eq_ok.1 accepted
      obtain ⟨rfl, value⟩ := operand_ok.1 known
      cases same
      cases answer
      exact .value value
  · intro returns
    cases returns with
    | nothing void => exact Except.ite_throw_eq_ok.2 ⟨void, rfl⟩
    | value value =>
      exact Except.bind_eq_ok.2 ⟨_, operand_ok.2 ⟨rfl, value⟩, Except.ite_throw_eq_ok.2 ⟨rfl, rfl⟩⟩

/-! ## The rules -/

/-- The request is accepted, and the operation, the type and the operands of the instruction
that comes of it. -/
inductive Plans (f : Func) : Request → Op × DataType × List ValueRef → Prop
  | param {k : Nat} {t : DataType} (known : f.params[k]? = some t) :
      Plans f (.param k) (.param k, t, [])
  | int {v : Int64} : Plans f (.int v) (.const (.int v), .int, [])
  | double {v : Double} : Plans f (.double v) (.const (.double v), .double, [])
  | bool {v : Bool} : Plans f (.bool v) (.const (.bool v), .bool, [])
  | null : Plans f .null (.const .null, .ptr, [])
  | string {s : Text} : Plans f (.string s) (.string s, .ptr, [])
  | load {k : Nat} {s : Slot} (known : f.slots[k]? = some s) :
      Plans f (.load k) (.load k, s.type, [])
  | store {k n : Nat} {s : Slot} (known : f.slots[k]? = some s) (value : f.IsValue n s.type) :
      Plans f (.store k (.own n)) (.store k, .void, [⟨n, s.type⟩])
  | arith {op : ArithOp} {n m : Nat} {t : DataType} (binary : op ≠ .neg ∧ op ≠ .not)
      (left : f.IsValue n t) (right : f.IsValue m t) :
      Plans f (.arith op (.own n) (.own m)) (.arith op, t, [⟨n, t⟩, ⟨m, t⟩])
  | neg {n : Nat} {t : DataType} (value : f.IsValue n t) :
      Plans f (.neg (.own n)) (.arith .neg, t, [⟨n, t⟩])
  | not {n : Nat} (value : f.IsValue n .bool) :
      Plans f (.not (.own n)) (.arith .not, .bool, [⟨n, .bool⟩])
  | compare {rel : RelOp} {n m : Nat} {t : DataType} (left : f.IsValue n t)
      (right : f.IsValue m t) :
      Plans f (.compare rel (.own n) (.own m)) (.compare rel, .bool, [⟨n, t⟩, ⟨m, t⟩])
  | copy {n : Nat} {t : DataType} (value : f.IsValue n t) :
      Plans f (.copy (.own n)) (.copy, t, [⟨n, t⟩])
  | call {name : Text} {ret : DataType} {os : List Operand} {vs : List ValueRef}
      (values : List.Forall₂ f.Accepts os vs) : Plans f (.call name ret os) (.call name, ret, vs)
  | newArray {elem : DataType} {dims : Int} {os : List Operand} {vs : List ValueRef}
      (some : os ≠ []) (enough : (os.length : Int) ≤ dims)
      (sizes : List.Forall₂ (fun o v => f.Accepts o v ∧ v.type = .int) os vs) :
      Plans f (.newArray elem dims os) (.newArray elem dims, .ptr, vs)
  | arrayLen {a : Nat} (array : f.IsValue a .ptr) :
      Plans f (.arrayLen (.own a)) (.arrayLen, .int, [⟨a, .ptr⟩])
  | loadElem {a i : Nat} {t : DataType} (array : f.IsValue a .ptr) (index : f.IsValue i .int) :
      Plans f (.loadElem (.own a) (.own i) t) (.loadElem t, t, [⟨a, .ptr⟩, ⟨i, .int⟩])
  | storeElem {a i n : Nat} {t : DataType} (array : f.IsValue a .ptr) (index : f.IsValue i .int)
      (value : f.IsValue n t) :
      Plans f (.storeElem (.own a) (.own i) (.own n))
        (.storeElem t, .void, [⟨a, .ptr⟩, ⟨i, .int⟩, ⟨n, t⟩])
  | branch {b : BlockId} (inside : b < f.blocks.size) :
      Plans f (.branch (.own b)) (.branch b, .void, [])
  | condBranch {n : Nat} {yes no : BlockId} (cond : f.IsValue n .bool)
      (yesInside : yes < f.blocks.size) (noInside : no < f.blocks.size) :
      Plans f (.condBranch (.own n) (.own yes) (.own no)) (.condBranch yes no, .void, [⟨n, .bool⟩])
  | ret {n : Nat} (value : f.IsValue n f.ret) :
      Plans f (.ret (some (.own n))) (.ret, .void, [⟨n, f.ret⟩])
  | retVoid (nothing : f.ret = .void) : Plans f (.ret none) (.ret, .void, [])
  | unreachable : Plans f .unreachable (.unreachable, .void, [])

section Create

open Builder

section Operands

variable {β : Type} {request : Text} {k : Nat} {o : Operand} {t : DataType}
  {next : ValueRef → Builder β} {a : β} {g : Func}

/-- Going on with an operand takes a value of the function. -/
theorem operand_bind_ok :
    (check (·.operand request k o) >>= next).run.run f = (.ok a, g) ↔
      ∃ n t, o = .own n ∧ f.IsValue n t ∧ (next ⟨n, t⟩).run.run f = (.ok a, g) := by
  rw [check_bind_ok]
  constructor
  · rintro ⟨⟨n, t⟩, accepted, ran⟩
    obtain ⟨rfl, value⟩ := operand_ok.1 accepted
    exact ⟨n, t, rfl, value, ran⟩
  · rintro ⟨n, t, rfl, value, ran⟩
    exact ⟨_, operand_ok.2 ⟨rfl, value⟩, ran⟩

theorem operandOf_bind_ok :
    (check (·.operandOf request k t o) >>= next).run.run f = (.ok a, g) ↔
      ∃ n, o = .own n ∧ f.IsValue n t ∧ (next ⟨n, t⟩).run.run f = (.ok a, g) := by
  rw [check_bind_ok]
  constructor
  · rintro ⟨⟨n, u⟩, accepted, ran⟩
    obtain ⟨⟨rfl, value⟩, rfl⟩ := operandOf_ok.1 accepted
    exact ⟨n, rfl, value, ran⟩
  · rintro ⟨n, rfl, value, ran⟩
    exact ⟨_, operandOf_ok.2 ⟨⟨rfl, value⟩, rfl⟩, ran⟩

end Operands

variable {b : BlockId} {r : Request} {q : Op × DataType × List ValueRef}

/-- The instruction of an accepted request is made. -/
theorem Plans.create (plans : f.Plans r q) :
    (Builder.create b r).run.run f =
      (.ok f.arena.size, f.append b q.1 q.2.1 (q.2.2.map fun v => (v.number : Value))) := by
  cases plans with
  | int | double | bool | null | string | unreachable => exact add_run
  | param known => exact find_bind_ok.2 ⟨_, param?_some.2 ⟨rfl, known⟩, add_run⟩
  | load known => exact find_bind_ok.2 ⟨_, slot?_some.2 ⟨rfl, known⟩, add_run⟩
  | store known value =>
    refine find_bind_ok.2 ⟨_, slot?_some.2 ⟨rfl, known⟩, ?_⟩
    refine operand_bind_ok.2 ⟨_, _, rfl, value, ?_⟩
    exact require_bind_ok.2 ⟨rfl, filled_run⟩
  | arith binary left right =>
    refine require_bind_ok.2 ⟨binary, ?_⟩
    refine operand_bind_ok.2 ⟨_, _, rfl, left, ?_⟩
    refine operand_bind_ok.2 ⟨_, _, rfl, right, ?_⟩
    exact require_bind_ok.2 ⟨rfl, filled_run⟩
  | neg value | copy value => exact operand_bind_ok.2 ⟨_, _, rfl, value, filled_run⟩
  | not value =>
    refine operand_bind_ok.2 ⟨_, _, rfl, value, ?_⟩
    exact require_bind_ok.2 ⟨rfl, filled_run⟩
  | compare left right =>
    refine operand_bind_ok.2 ⟨_, _, rfl, left, ?_⟩
    refine operand_bind_ok.2 ⟨_, _, rfl, right, ?_⟩
    exact require_bind_ok.2 ⟨rfl, filled_run⟩
  | call values => exact check_bind_ok.2 ⟨_, arguments_ok.2 values, filled_run⟩
  | newArray some enough sizes =>
    refine require_bind_ok.2 ⟨⟨some, enough⟩, ?_⟩
    exact check_bind_ok.2 ⟨_, sizes_ok.2 sizes, filled_run⟩
  | arrayLen array => exact operandOf_bind_ok.2 ⟨_, rfl, array, filled_run⟩
  | loadElem array index =>
    refine operandOf_bind_ok.2 ⟨_, rfl, array, ?_⟩
    exact operandOf_bind_ok.2 ⟨_, rfl, index, filled_run⟩
  | storeElem array index value =>
    refine operandOf_bind_ok.2 ⟨_, rfl, array, ?_⟩
    refine operandOf_bind_ok.2 ⟨_, rfl, index, ?_⟩
    exact operand_bind_ok.2 ⟨_, _, rfl, value, filled_run⟩
  | branch inside => exact find_bind_ok.2 ⟨_, destination?_some.2 ⟨rfl, inside⟩, add_run⟩
  | @condBranch n yes no cond yesInside noInside =>
    refine operandOf_bind_ok.2 ⟨_, rfl, cond, ?_⟩
    exact find_bind_ok.2 ⟨(yes, no), destinations?_some.2 ⟨⟨rfl, yesInside⟩, rfl, noInside⟩, filled_run⟩
  | ret value => exact check_bind_ok.2 ⟨_, returned_ok.2 (.value value), filled_run⟩
  | retVoid nothing => exact check_bind_ok.2 ⟨_, returned_ok.2 (.nothing nothing), filled_run⟩

/-- A request that an instruction comes of is accepted. -/
theorem Plans.of_create {n : Nat} {g : Func} (made : (Builder.create b r).run.run f = (.ok n, g)) :
    ∃ q, f.Plans r q := by
  cases r with
  | int | double | bool | null | string | unreachable => exact ⟨_, by constructor⟩
  | param k =>
    obtain ⟨⟨k, t⟩, known, -⟩ := find_bind_ok.1 made
    obtain ⟨rfl, found⟩ := param?_some.1 known
    exact ⟨_, .param found⟩
  | load k =>
    obtain ⟨⟨k, s⟩, known, -⟩ := find_bind_ok.1 made
    obtain ⟨rfl, found⟩ := slot?_some.1 known
    exact ⟨_, .load found⟩
  | store k o =>
    obtain ⟨⟨k, s⟩, known, made⟩ := find_bind_ok.1 made
    obtain ⟨m, t, rfl, value, made⟩ := operand_bind_ok.1 made
    obtain ⟨same, -⟩ := require_bind_ok.1 made
    obtain ⟨rfl, found⟩ := slot?_some.1 known
    cases same
    exact ⟨_, .store found value⟩
  | arith op x y =>
    obtain ⟨binary, made⟩ := require_bind_ok.1 made
    obtain ⟨n, t, rfl, left, made⟩ := operand_bind_ok.1 made
    obtain ⟨m, u, rfl, right, made⟩ := operand_bind_ok.1 made
    obtain ⟨same, -⟩ := require_bind_ok.1 made
    cases same
    exact ⟨_, .arith binary left right⟩
  | compare rel x y =>
    obtain ⟨n, t, rfl, left, made⟩ := operand_bind_ok.1 made
    obtain ⟨m, u, rfl, right, made⟩ := operand_bind_ok.1 made
    obtain ⟨same, -⟩ := require_bind_ok.1 made
    cases same
    exact ⟨_, .compare left right⟩
  | neg x =>
    obtain ⟨n, t, rfl, value, -⟩ := operand_bind_ok.1 made
    exact ⟨_, .neg value⟩
  | not x =>
    obtain ⟨n, t, rfl, value, made⟩ := operand_bind_ok.1 made
    obtain ⟨same, -⟩ := require_bind_ok.1 made
    cases same
    exact ⟨_, .not value⟩
  | copy x =>
    obtain ⟨n, t, rfl, value, -⟩ := operand_bind_ok.1 made
    exact ⟨_, .copy value⟩
  | call name ret os =>
    obtain ⟨vs, accepted, -⟩ := check_bind_ok.1 made
    exact ⟨_, .call (arguments_ok.1 accepted)⟩
  | newArray elem dims os =>
    obtain ⟨⟨some, enough⟩, made⟩ := require_bind_ok.1 made
    obtain ⟨vs, accepted, -⟩ := check_bind_ok.1 made
    exact ⟨_, .newArray some enough (sizes_ok.1 accepted)⟩
  | arrayLen a =>
    obtain ⟨n, rfl, array, -⟩ := operandOf_bind_ok.1 made
    exact ⟨_, .arrayLen array⟩
  | loadElem a i t =>
    obtain ⟨n, rfl, array, made⟩ := operandOf_bind_ok.1 made
    obtain ⟨m, rfl, index, -⟩ := operandOf_bind_ok.1 made
    exact ⟨_, .loadElem array index⟩
  | storeElem a i x =>
    obtain ⟨n, rfl, array, made⟩ := operandOf_bind_ok.1 made
    obtain ⟨m, rfl, index, made⟩ := operandOf_bind_ok.1 made
    obtain ⟨k, t, rfl, value, -⟩ := operand_bind_ok.1 made
    exact ⟨_, .storeElem array index value⟩
  | branch d =>
    obtain ⟨t, known, -⟩ := find_bind_ok.1 made
    obtain ⟨rfl, inside⟩ := destination?_some.1 known
    exact ⟨_, .branch inside⟩
  | condBranch c yes no =>
    obtain ⟨n, rfl, cond, made⟩ := operandOf_bind_ok.1 made
    obtain ⟨⟨y, z⟩, known, -⟩ := find_bind_ok.1 made
    obtain ⟨⟨rfl, yesInside⟩, rfl, noInside⟩ := destinations?_some.1 known
    exact ⟨_, .condBranch cond yesInside noInside⟩
  | ret o =>
    obtain ⟨vs, accepted, -⟩ := check_bind_ok.1 made
    cases returned_ok.1 accepted with
    | nothing void => exact ⟨_, .retVoid void⟩
    | value value => exact ⟨_, .ret value⟩

end Create

end Func

/-- The rules say which requests an instruction comes of, and which instruction. -/
theorem Builder.create_ok {f g : Func} {b : BlockId} {r : Request} {n : Nat} :
    (create b r).run.run f = (.ok n, g) ↔
      ∃ op t vs, f.Plans r (op, t, vs) ∧ n = f.arena.size ∧
        g = f.append b op t (vs.map fun v => (v.number : Value)) := by
  constructor
  · intro made
    obtain ⟨⟨op, t, vs⟩, plans⟩ := Func.Plans.of_create made
    cases made.symm.trans plans.create
    exact ⟨op, t, vs, plans, rfl, rfl⟩
  · rintro ⟨op, t, vs, plans, rfl, rfl⟩
    exact plans.create

theorem Builder.block_ok {f g : Func} {kind : Int} {b : BlockId} :
    (block kind).run.run f = (.ok b, g) ↔
      ∃ k, LabelKind.ofNumber? kind = some k ∧ b = f.blocks.size ∧ g = (f.addBlock k).1 := by
  have assoc : block kind = find (fun _ => LabelKind.ofNumber? kind) (fun _ => .labelKind kind) >>=
      fun k => modifyGet fun f => (f.addBlock k).swap := by
    rw [block, label, bind_assoc]
    rfl
  rw [assoc, find_bind_ok]
  refine exists_congr fun k => and_congr_right fun _ => ⟨fun made => ?_, ?_⟩
  · cases made
    exact ⟨rfl, rfl⟩
  · rintro ⟨rfl, rfl⟩
    rfl

theorem Builder.slot_ok {f g : Func} {name : Text} {t : DataType} {n : Nat} :
    (slot name t).run.run f = (.ok n, g) ↔
      t ≠ .void ∧ n = f.slots.length ∧ g = { f with slots := f.slots ++ [⟨name, t⟩] } := by
  rw [slot, check_bind_ok]
  constructor
  · rintro ⟨_, fine, made⟩
    split at fine
    · cases fine
    · rename_i some
      cases made
      exact ⟨some, rfl, rfl⟩
  · rintro ⟨some, rfl, rfl⟩
    exact ⟨(), if_neg some, rfl⟩

/-! ## What every accepted request has in common -/

/-- Whether an operation needs nothing but operands: it neither branches nor uses a slot,
and it is no copy. -/
def Op.isPlain : Op → Bool
  | .copy | .load _ | .store _ | .branch _ | .condBranch .. => false
  | _ => true

theorem Op.mem_targets_condBranch {b yes no : BlockId} :
    b ∈ (Op.condBranch yes no).targets ↔ b = yes ∨ b = no := by
  simp only [Op.targets]
  split <;> simp_all

namespace Request

/-- Whether a request asks for an instruction that ends a block. -/
def endsBlock : Request → Bool
  | .branch _ | .condBranch .. | .ret _ | .unreachable => true
  | _ => false

def operands : Request → List Operand
  | .store _ x | .neg x | .not x | .copy x | .arrayLen x | .condBranch x _ _ | .ret (some x) => [x]
  | .arith _ x y | .compare _ x y | .loadElem x y _ => [x, y]
  | .storeElem x y z => [x, y, z]
  | .call _ _ xs | .newArray _ _ xs => xs
  | _ => []

def targets : Request → List Destination
  | .branch b => [b]
  | .condBranch _ yes no => [yes, no]
  | _ => []

theorem targets_eq_nil {r : Request} (plain : r.endsBlock = false) : r.targets = [] := by
  cases r <;> first | rfl | cases plain

end Request

namespace Func

variable {f : Func} {r : Request} {q : Op × DataType × List ValueRef}

/-- The instruction that comes of a request has the operands that the request names,
which are values, branches to the blocks that the request names, and ends a block if the
request asks for that; a copy has something to copy, a store is of a value of the type of
the slot, and loads and marks that control never gets there are asked for as such. -/
structure Planned (f : Func) (r : Request) (q : Op × DataType × List ValueRef) : Prop where
  accepts : List.Forall₂ f.Accepts r.operands q.2.2
  targets : ∀ b ∈ q.1.targets, b < f.blocks.size ∧ .own b ∈ r.targets
  ends : q.1.isTerminator = r.endsBlock
  source : q.1 = .copy → q.2.2 ≠ []
  loads : ∀ s : Nat, q.1 = .load s → r = .load s
  stores : ∀ s : Nat, q.1 = .store s →
    ∃ v slot, q.2.2 = [v] ∧ f.slots[s]? = some slot ∧ v.type = slot.type
  named : ∀ b, .own b ∈ r.targets → b ∈ q.1.targets
  marks : q.1 = .unreachable → r = .unreachable

theorem Planned.value (planned : f.Planned r q) {v : ValueRef} (member : v ∈ q.2.2) :
    f.IsValue v.number v.type ∧ Operand.own v.number ∈ r.operands := by
  obtain ⟨o, known, own, value⟩ := exists_of_forall₂ planned.accepts.flip member
  exact ⟨value, own ▸ known⟩

/-- A request that names one block gives an instruction that goes there and nowhere else. -/
theorem Planned.single (planned : f.Planned r q)
    {b : Nat} (one : r.targets = [.own b]) : q.1.targets = [b] := by
  have only : ∀ t ∈ q.1.targets, t = b := fun t member => by
    simpa [one] using (planned.targets t member).2
  have there := planned.named b (by rw [one]; exact List.mem_singleton_self _)
  obtain ⟨op, t, args⟩ := q
  cases op with
  | branch target => rw [Op.targets, only target (List.mem_singleton_self _)]
  | condBranch yes no =>
    have first := only yes (Op.mem_targets_condBranch.2 (.inl rfl))
    have second := only no (Op.mem_targets_condBranch.2 (.inr rfl))
    rw [Op.targets, first, second, if_pos rfl]
  | _ => cases there

/-- What is known of an instruction that needs nothing but its operands. -/
theorem Planned.plain
    (accepts : List.Forall₂ f.Accepts r.operands q.2.2) (plain : q.1.isPlain = true)
    (ends : q.1.isTerminator = r.endsBlock) (named : r.targets = [])
    (marks : q.1 = .unreachable → r = .unreachable) : f.Planned r q := by
  obtain ⟨op, t, vs⟩ := q
  refine ⟨accepts, ?_, ends, ?_, ?_, ?_, by simp [named], marks⟩
  all_goals cases op <;> simp_all [Op.isPlain, Op.targets]

section Planned

attribute [local simp] Request.operands Request.targets

/-- All this is known of the instruction of an accepted request. -/
theorem Plans.planned (plans : f.Plans r q) : f.Planned r q := by
  have one : ∀ {n t}, f.IsValue n t → List.Forall₂ f.Accepts [.own n] [⟨n, t⟩] :=
    fun value => .cons ⟨rfl, value⟩ .nil
  have two : ∀ {n m t u}, f.IsValue n t → f.IsValue m u →
      List.Forall₂ f.Accepts [.own n, .own m] [⟨n, t⟩, ⟨m, u⟩] :=
    fun first second => .cons ⟨rfl, first⟩ (one second)
  cases plans with
  | param | int | double | bool | null | string | retVoid | unreachable =>
    exact .plain .nil rfl rfl rfl (by simp)
  | neg value | not value | arrayLen value | ret value =>
    exact .plain (one value) rfl rfl rfl (by simp)
  | compare left right | loadElem left right | arith _ left right =>
    exact .plain (two left right) rfl rfl rfl (by simp)
  | storeElem array index value =>
    exact .plain (.cons ⟨rfl, array⟩ (two index value)) rfl rfl rfl (by simp)
  | call values => exact .plain values rfl rfl rfl (by simp)
  | newArray _ _ sizes =>
    exact .plain (sizes.imp fun _ _ size => size.1) rfl rfl rfl (by simp)
  | copy value =>
    exact ⟨one value, by simp [Op.targets], rfl, by simp, by simp, by simp,
      by simp, by simp⟩
  | load known =>
    refine ⟨.nil, by simp [Op.targets], rfl, by simp, fun s same => ?_, by simp,
      by simp, by simp⟩
    cases same
    rfl
  | store known value =>
    refine ⟨one value, by simp [Op.targets], rfl, by simp, by simp, fun s same => ?_,
      by simp, by simp⟩
    cases same
    exact ⟨_, _, rfl, known, rfl⟩
  | branch inside =>
    exact ⟨.nil, by simpa [Op.targets] using inside, rfl, by simp, by simp,
      by simp, by simp [Op.targets], by simp⟩
  | condBranch cond yesInside noInside =>
    refine ⟨one cond, fun b member => ?_, rfl, by simp, by simp, by simp, fun b member => ?_,
      by simp⟩
    · rcases Op.mem_targets_condBranch.1 member with rfl | rfl
      · exact ⟨yesInside, by simp⟩
      · exact ⟨noInside, by simp⟩
    · exact Op.mem_targets_condBranch.2 (by simpa using member)

/-- Every block that an accepted request names is one of the function, and the instruction
goes there. -/
theorem Plans.targets
    (plans : f.Plans r q) : ∀ d ∈ r.targets, ∃ b, d = .own b ∧ b ∈ q.1.targets := by
  cases plans with
  | branch inside => simp [Op.targets]
  | condBranch cond yesInside noInside => simp [Op.mem_targets_condBranch]
  | _ => simp

end Planned

/-- Only a request for a copy gives a copy. -/
theorem Plans.copies {u : DataType} {vs : List ValueRef}
    (plans : f.Plans r (.copy, u, vs)) : ∃ x, r = .copy x := by
  cases plans with
  | copy => exact ⟨_, rfl⟩

end Func

end ImpCompiler
