import ImpCompiler.Code.Build
import ImpCompiler.Proofs.Basics

/-!
# Proofs.Code.Atomic — steps that fail before they change anything

Steps that may fail leave the state as it is where they fail, changes and all. So what a
failure leaves behind hangs on the order of the steps: it is the state from before
(`Atomic`) if all that can fail (`Checks`) stands in front of all that changes something
(`Changes`). Every way to make an instruction, a block or a slot is in this order.
-/

namespace ImpCompiler

set_option autoImplicit false

section Steps

variable {ε σ α β : Type} {x : ExceptT ε (StateM σ) α} {next : α → ExceptT ε (StateM σ) β}
  {s s' : σ}

theorem run_bind_of_ok {a : α} (ran : x.run.run s = (.ok a, s')) :
    (x >>= next).run.run s = (next a).run.run s' := by
  rw [ExceptT.run_bind, StateT.run_bind, ran]
  rfl

theorem run_bind_of_error {e : ε} (ran : x.run.run s = (.error e, s')) :
    (x >>= next).run.run s = (.error e, s') := by
  rw [ExceptT.run_bind, StateT.run_bind, ran]
  rfl

/-- The steps leave every state as it is. -/
def Checks (x : ExceptT ε (StateM σ) α) : Prop := ∀ s, ∃ answer, x.run.run s = (answer, s)

/-- The steps succeed in every state. -/
def Changes (x : ExceptT ε (StateM σ) α) : Prop := ∀ s, ∃ a s', x.run.run s = (.ok a, s')

/-- The steps succeed, or they fail and leave the state as it was. -/
def Atomic (x : ExceptT ε (StateM σ) α) : Prop :=
  ∀ s, (∃ e, x.run.run s = (.error e, s)) ∨ ∃ a s', x.run.run s = (.ok a, s')

theorem Changes.atomic (changes : Changes x) : Atomic x := fun s => .inr (changes s)

/-- Nothing may fail behind a change. -/
theorem Atomic.bind (atomic : Atomic x) (rest : ∀ a, Changes (next a)) : Atomic (x >>= next) := by
  intro s
  rcases atomic s with ⟨e, stopped⟩ | ⟨a, s', ran⟩
  · exact .inl ⟨e, run_bind_of_error stopped⟩
  · rw [run_bind_of_ok ran]
    exact .inr (rest a s')

/-- Checks may stand in front. -/
theorem Checks.bind (checks : Checks x) (rest : ∀ a, Atomic (next a)) : Atomic (x >>= next) := by
  intro s
  obtain ⟨answer, ran⟩ := checks s
  cases answer with
  | error e => exact .inl ⟨e, run_bind_of_error ran⟩
  | ok a =>
    rw [run_bind_of_ok ran]
    exact rest a s

theorem Checks.atomic (checks : Checks x) : Atomic x := by
  intro s
  obtain ⟨answer, ran⟩ := checks s
  cases answer with
  | error e => exact .inl ⟨e, ran⟩
  | ok a => exact .inr ⟨a, s, ran⟩

end Steps

namespace Builder

variable {α β : Type} {f g : Func} {b : BlockId} {op : Op} {t : DataType} {n : Nat}
  {vs : List ValueRef} {c : Func → Except BuildError α} {p : Prop} [Decidable p] {e : BuildError}

/-! ## What each step does -/

theorem check_run : (check c).run.run f = (c f, f) := by
  have got : (get : Builder Func).run.run f = (.ok f, f) := rfl
  rw [check, run_bind_of_ok got]
  cases c f <;> rfl

/-- A step behind a check starts from the function that was checked. -/
theorem check_bind_ok {next : α → Builder β} {a : β} :
    (check c >>= next).run.run f = (.ok a, g) ↔
      ∃ v, c f = .ok v ∧ (next v).run.run f = (.ok a, g) := by
  cases answer : c f with
  | error e =>
    rw [run_bind_of_error (check_run.trans (by rw [answer]))]
    constructor
    · intro same
      cases same
    · rintro ⟨v, same, -⟩
      cases same
  | ok v =>
    rw [run_bind_of_ok (check_run.trans (by rw [answer]))]
    simp

theorem find_bind_ok {look : Func → Option α} {err : Func → BuildError} {next : α → Builder β} {a : β} :
    (find look err >>= next).run.run f = (.ok a, g) ↔
      ∃ v, look f = some v ∧ (next v).run.run f = (.ok a, g) := by
  rw [find, check_bind_ok]
  cases look f <;> simp

theorem require_bind_ok {next : Unit → Builder β} {a : β} :
    (require p e >>= next).run.run f = (.ok a, g) ↔ p ∧ (next ()).run.run f = (.ok a, g) := by
  simp only [require, check_bind_ok, Except.ite_throw_eq_ok, Except.pure_eq_ok]
  constructor
  · rintro ⟨_, ⟨holds, -⟩, ran⟩
    exact ⟨holds, ran⟩
  · rintro ⟨holds, ran⟩
    exact ⟨(), ⟨holds, trivial⟩, ran⟩

theorem add_run : (add b op t).run.run f = (.ok f.arena.size, f.append b op t []) := rfl

theorem operands_run :
    (operands n vs).run.run f = (.ok n, f.setArgs n (vs.map fun v => (v.number : Value))) := rfl

/-- An instruction that gets its operands after it was appended is appended with them. -/
theorem filled_run :
    (add b op t >>= fun n => operands n vs).run.run f =
      (.ok f.arena.size, f.append b op t (vs.map fun v => (v.number : Value))) := by
  have last : ∀ (xs : Array Instr) (i : Instr) (g : Instr → Instr),
      (xs.push i).modify xs.size g = xs.push (g i) := by
    intro xs i g
    ext k inside <;> grind
  rw [run_bind_of_ok add_run, operands_run, Func.setArgs, Func.append, last]
  rfl

/-! ## Every check comes before the first change -/

theorem checks_check (c : Func → Except BuildError α) : Checks (check c) := fun f => ⟨c f, check_run⟩

theorem changes_add (b : BlockId) (op : Op) (t : DataType) : Changes (add b op t) := fun _ => ⟨_, _, add_run⟩

theorem changes_filled (b : BlockId) (op : Op) (t : DataType) (vs : List ValueRef) :
    Changes (add b op t >>= fun n => operands n vs) := fun _ => ⟨_, _, filled_run⟩

/-- Whatever a request asks for, it is refused before the function changes. -/
theorem create_atomic (b : BlockId) (r : Request) : Atomic (create b r) := by
  have checked : ∀ {α β : Type} {c : Func → Except BuildError α} {next : α → Builder β},
      (∀ a, Atomic (next a)) → Atomic (check c >>= next) := fun rest => (checks_check _).bind rest
  have added : ∀ {op t}, Atomic (add b op t) := (changes_add b _ _).atomic
  have filled : ∀ {op t vs}, Atomic (add b op t >>= fun n => operands n vs) :=
    (changes_filled b _ _ _).atomic
  cases r with
  | int | double | bool | null | string | unreachable => exact added
  | param | load | branch => exact checked fun _ => added
  | neg | copy | call | arrayLen | ret => exact checked fun _ => filled
  | not | newArray | loadElem | condBranch => exact checked fun _ => checked fun _ => filled
  | store | compare | storeElem => exact checked fun _ => checked fun _ => checked fun _ => filled
  | arith => exact checked fun _ => checked fun _ => checked fun _ => checked fun _ => filled

theorem label_atomic (kind : Int) : Atomic (label kind) :=
  (checks_check _).bind fun _ => Changes.atomic fun _ => ⟨_, _, rfl⟩

theorem block_atomic (kind : Int) : Atomic (block kind) :=
  (label_atomic kind).bind fun _ _ => ⟨_, _, rfl⟩

theorem slot_atomic (name : Text) (t : DataType) : Atomic (slot name t) :=
  (checks_check _).bind fun _ => Changes.atomic fun _ => ⟨_, _, rfl⟩

/-- Steps that check something after they changed the function are not atomic. -/
example : ¬ Atomic (do discard (create 0 .null); create 0 (.copy .missing)) := by
  intro atomic
  rcases atomic (Func.empty "f" .void []) with ⟨e, stopped⟩ | ⟨n, g, ran⟩
  · have left := congrArg (fun r => r.2.arena.size) stopped
    cases left
  · cases ran

end Builder

end ImpCompiler
