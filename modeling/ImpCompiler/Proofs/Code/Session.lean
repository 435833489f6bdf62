import ImpCompiler.Code.Session
import ImpCompiler.Proofs.Code.WellTyped

/-!
# Proofs.Code.Session — calls that make a module

`Module.Makes` says what an accepted call makes. A call that is refused leaves the module as
it was (`ModuleBuilder.perform_atomic`), for the steps on a function are refused before they
change it and what they leave is written back either way. So the functions of a module stay
well typed through every sequence of calls, whatever the calls ask for and however many of
them are refused.
-/

namespace ImpCompiler

set_option autoImplicit false

namespace ModuleBuilder

variable {α : Type} {m : Module} {k : Nat}

theorem function_known {f : Func} (known : m.functions[k]? = some f) :
    (function k).run.run m = (.ok f, m) := by
  have got : (get : ModuleBuilder Module).run.run m = (.ok m, m) := rfl
  rw [function, run_bind_of_ok got, known]
  rfl

theorem function_missing (missing : m.functions[k]? = none) :
    (function k).run.run m = (.error (.noFunction k), m) := by
  have got : (get : ModuleBuilder Module).run.run m = (.ok m, m) := rfl
  rw [function, run_bind_of_ok got, missing]
  rfl

theorem checks_function (k : Nat) : Checks (function k) := by
  intro m
  cases known : m.functions[k]? with
  | none => exact ⟨_, function_missing known⟩
  | some f => exact ⟨_, function_known known⟩

/-- The steps on a function change that function in the module, whether they succeed or not. -/
theorem inFunction_run {x : Builder α} {f g : Func} {answer : Except BuildError α}
    (known : m.functions[k]? = some f) (ran : x.run.run f = (answer, g)) :
    (inFunction k x).run.run m =
      (answer.mapError .refused, { m with functions := m.functions.set k g }) := by
  rw [inFunction, run_bind_of_ok (function_known known)]
  simp only [ran]
  cases answer <;> rfl

/-- A step that is atomic in a function is atomic in the module. -/
theorem inFunction_atomic {x : Builder α} (atomic : Atomic x) (k : Nat) :
    Atomic (inFunction k x) := by
  intro m
  cases known : m.functions[k]? with
  | none => exact .inl ⟨_, run_bind_of_error (function_missing known)⟩
  | some f =>
    rcases atomic f with ⟨e, stopped⟩ | ⟨a, g, ran⟩
    · refine .inl ⟨.refused e, ?_⟩
      obtain ⟨inside, same⟩ := List.getElem?_eq_some_iff.1 known
      rw [inFunction_run known stopped, ← same, List.set_getElem_self inside]
      rfl
    · exact .inr ⟨a, _, inFunction_run known ran⟩

/-- A step in a function changes that function only. -/
theorem inFunction_ok {x : Builder α} {a : α} {m' : Module}
    (ran : (inFunction k x).run.run m = (.ok a, m')) :
    ∃ f g, m.functions[k]? = some f ∧ x.run.run f = (.ok a, g) ∧
      m' = { m with functions := m.functions.set k g } := by
  cases known : m.functions[k]? with
  | none =>
    rw [inFunction, run_bind_of_error (function_missing known)] at ran
    cases ran
  | some f =>
    rcases made : x.run.run f with ⟨answer, g⟩
    rw [inFunction_run known made] at ran
    cases answer with
    | error e => cases ran
    | ok a =>
      cases ran
      exact ⟨f, g, rfl, made, rfl⟩

/-- A call is refused before the module changes. -/
theorem perform_atomic (c : Call) : Atomic (perform c) := by
  cases c with
  | function name ret params => exact Changes.atomic fun m => ⟨_, _, rfl⟩
  | block k kind => exact inFunction_atomic (Builder.block_atomic kind) k
  | slot k name t => exact inFunction_atomic (Builder.slot_atomic name t) k
  | instr k b r =>
    refine (checks_function k).bind fun f => ?_
    split
    · exact Checks.atomic fun m => ⟨_, rfl⟩
    · exact inFunction_atomic (Builder.create_atomic b r) k

end ModuleBuilder

namespace Module

/-- What an accepted call makes of a module, and the number that it answers with. An
instruction keeps the rules, has the operands that the request names, which are all its own
function's, and goes to the blocks that the request names, which are its own function's too. -/
inductive Makes (m : Module) : Call → Nat → Module → Prop
  | function {name : Text} {ret : DataType} {params : List DataType} :
      Makes m (.function name ret params) m.functions.length
        { m with functions := m.functions ++ [Func.empty name ret params] }
  | block {k : Nat} {f : Func} {n : Int} {kind : LabelKind} (owner : m.functions[k]? = some f)
      (known : LabelKind.ofNumber? n = some kind) :
      Makes m (.block k n) f.blocks.size
        { m with functions := m.functions.set k (f.addBlock kind).1 }
  | slot {k : Nat} {f : Func} {name : Text} {t : DataType} (owner : m.functions[k]? = some f)
      (some : t ≠ .void) :
      Makes m (.slot k name t) f.slots.length
        { m with functions := m.functions.set k { f with slots := f.slots ++ [⟨name, t⟩] } }
  | instr {k : Nat} {f g : Func} {b : BlockId} {r : Request} {i : Instr}
      (owner : m.functions[k]? = some f) (more : f.OneMore b i g)
      (rule : f.Rule f.arena.size i.op i.type i.args)
      (operands :
        List.Forall₂ (fun o (x : Value) => ∃ n : Nat, o = .own n ∧ x = n) r.operands i.args)
      (targets : ∀ d, d ∈ r.targets → ∃ t, d = .own t ∧ t ∈ i.op.targets) :
      Makes m (.instr k b r) f.arena.size { m with functions := m.functions.set k g }

/-- A call that succeeds makes what it is for. -/
theorem Makes.of_call {m m' : Module} {c : Call} {n : Nat} (ran : m.call c = (.ok n, m')) :
    m.Makes c n m' := by
  cases c with
  | function name ret params =>
    cases ran
    exact .function
  | block k kind =>
    obtain ⟨f, g, owner, made, rfl⟩ := ModuleBuilder.inFunction_ok ran
    obtain ⟨kind, known, rfl, rfl⟩ := Builder.block_ok.1 made
    exact .block owner known
  | slot k name t =>
    obtain ⟨f, g, owner, made, rfl⟩ := ModuleBuilder.inFunction_ok ran
    obtain ⟨some, rfl, rfl⟩ := Builder.slot_ok.1 made
    exact .slot owner some
  | instr k b r =>
    cases owner : m.functions[k]? with
    | none =>
      rw [call, ModuleBuilder.perform, run_bind_of_error (ModuleBuilder.function_missing owner)] at ran
      cases ran
    | some f =>
      rw [call, ModuleBuilder.perform, run_bind_of_ok (ModuleBuilder.function_known owner)] at ran
      split at ran
      · cases ran
      · rename_i inside
        obtain ⟨f', g, owner', made, rfl⟩ := ModuleBuilder.inFunction_ok ran
        cases owner.symm.trans owner'
        obtain ⟨op, t, vs, plans, rfl, rfl⟩ := Builder.create_ok.1 made
        refine .instr owner (.append (Nat.not_le.1 inside)) plans.rule ?_ ?_
        · refine List.forall₂_map_right_iff.2 (plans.planned.accepts.imp fun o v known => ?_)
          exact ⟨v.number, known.own, rfl⟩
        · exact plans.targets

/-- A property of functions that every way to make one, or more of one, keeps. -/
structure Kept (P : Func → Prop) : Prop where
  empty : ∀ (name : Text) (ret : DataType) (params : List DataType), P (Func.empty name ret params)
  block : ∀ {f : Func} (kind : LabelKind), P f → P (f.addBlock kind).1
  slot : ∀ {f : Func} {s : Slot}, s.type ≠ .void → P f → P { f with slots := f.slots ++ [s] }
  instr : ∀ {f g : Func} {b : BlockId} {i : Instr}, f.OneMore b i g →
    f.Rule f.arena.size i.op i.type i.args → P f → P g

section Kept

variable {P : Func → Prop} {m m' : Module}

/-- A call keeps what all steps of the builder keep. -/
theorem Makes.kept {c : Call} {n : Nat} (makes : m.Makes c n m') (kept : Kept P)
    (all : ∀ f ∈ m.functions, P f) : ∀ f ∈ m'.functions, P f := by
  -- The functions of the module are those from before, but for one that took a step.
  have step : ∀ {k : Nat} {f g : Func}, m.functions[k]? = some f → (P f → P g) →
      ∀ h ∈ m.functions.set k g, P h := by
    intro k f g owner keeps h member
    rcases List.mem_or_eq_of_mem_set member with known | rfl
    · exact all h known
    · exact keeps (all f (List.mem_of_getElem? owner))
  cases makes with
  | function =>
    intro f member
    rcases List.mem_append.1 member with known | last
    · exact all f known
    · rw [List.mem_singleton.1 last]
      exact kept.empty _ _ _
  | block owner known => exact step owner (kept.block _)
  | slot owner some => exact step owner (kept.slot some)
  | instr owner more rule operands targets => exact step owner (kept.instr more rule)

theorem Kept.call (kept : Kept P) (c : Call) (all : ∀ f ∈ m.functions, P f) :
    ∀ f ∈ (m.call c).2.functions, P f := by
  rcases ModuleBuilder.perform_atomic c m with ⟨e, stopped⟩ | ⟨n, m', ran⟩
  · rw [Module.call, stopped]
    exact all
  · rw [Module.call, ran]
    exact (Makes.of_call ran).kept kept all

theorem Kept.after (kept : Kept P) (calls : List Call) (all : ∀ f ∈ m.functions, P f) :
    ∀ f ∈ (m.after calls).functions, P f := by
  induction calls generalizing m with
  | nil => exact all
  | cons c calls ih => exact ih (kept.call c all)

end Kept

/-- Whatever is asked for, all functions stay well typed. -/
theorem after_wellTyped (calls : List Call) {m : Module} (typed : ∀ f ∈ m.functions, f.WellTyped) :
    ∀ f ∈ (m.after calls).functions, f.WellTyped := by
  have kept : Kept Func.WellTyped := {
    empty := .empty
    block := fun kind before => before.addBlock kind
    slot := fun some before => before.addSlot some
    instr := fun more rule before => before.oneMore more rule }
  exact kept.after calls typed

/-- A call that is refused leaves the module exactly as it was, one that is accepted makes
one thing and answers with its number, and the functions of a module that was made by
calls are well typed. -/
theorem calls_keep_modules_well_typed :
    (∀ (m : Module) (c : Call) (e : CallError), (m.call c).1 = .error e → (m.call c).2 = m) ∧
      (∀ (m : Module) (c : Call) (n : Nat), (m.call c).1 = .ok n → m.Makes c n (m.call c).2) ∧
      ∀ (name : Text) (calls : List Call), ∀ f ∈ ((Module.empty name).after calls).functions,
        f.WellTyped := by
  refine ⟨fun m c e refused => ?_, fun m c n accepted => ?_, fun name calls => ?_⟩
  · rcases ModuleBuilder.perform_atomic c m with ⟨e', stopped⟩ | ⟨n, m', ran⟩
    · rw [call, stopped]
    · rw [call, ran] at refused
      cases refused
  · exact Makes.of_call (Prod.ext accepted rfl)
  · apply after_wellTyped
    intro f member
    cases member

/-- Two functions with a block each. -/
def neighbours : Module :=
  (Module.empty "m").after [.function "f" .void [], .block 0 0, .function "g" .void [], .block 1 0]

/-- A branch to the block of another function is refused and leaves no trace; one to a block of
its own function is made. -/
theorem neighbours_stay_apart :
    (neighbours.call (.instr 0 0 (.branch (.foreign "g" 0)))).1 =
        .error (.refused (.branchTarget "f" "entry")) ∧
      (neighbours.call (.instr 0 0 (.branch (.foreign "g" 0)))).2 = neighbours ∧
      (neighbours.call (.instr 0 0 (.branch (.own 0)))).1 = .ok 0 ∧
      neighbours.Makes (.instr 0 0 (.branch (.own 0))) 0
        (neighbours.call (.instr 0 0 (.branch (.own 0)))).2 ∧
      ∀ f ∈ neighbours.functions, f.WellTyped := by
  obtain ⟨refused, accepted, typed⟩ := calls_keep_modules_well_typed
  have foreign : (neighbours.call (.instr 0 0 (.branch (.foreign "g" 0)))).1 =
      .error (.refused (.branchTarget "f" "entry")) := rfl
  have own : (neighbours.call (.instr 0 0 (.branch (.own 0)))).1 = .ok 0 := rfl
  exact ⟨foreign, refused _ _ _ foreign, own, accepted _ _ _ own, typed _ _⟩

/-- A sum of an integer and a truth value is refused, and so are a copy of another
function's value and a branch to another function's block; the call behind them goes on with
the two instructions there are. -/
example : (((Module.empty "m").after [.function "f" .int [], .block 0 0, .instr 0 0 (.int 1),
      .instr 0 0 (.bool true), .instr 0 0 (.arith .add (.own 0) (.own 1)),
      .instr 0 0 (.copy (.foreign "g" ⟨.copy, .int, [], some 0, none, .unassigned⟩)),
      .instr 0 0 (.branch (.foreign "g" 0)), .instr 0 0 (.condBranch (.own 1) (.own 0) (.foreign "g" 0)),
      .instr 0 0 (.neg (.own 0))]).functions.map fun f =>
        (f.arena.toList.map Instr.op, (f.block 0).instrs)) =
    [([.const (.int 1), .const (.bool true), .arith .neg], [0, 1, 2])] := by decide

end Module

end ImpCompiler
