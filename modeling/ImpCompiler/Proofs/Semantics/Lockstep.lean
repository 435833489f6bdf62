import ImpCompiler.Proofs.Semantics.Simulation
import ImpCompiler.Proofs.Basics

/-!
# Proofs.Semantics.Lockstep — machines that go step by step together

Two machines agree on a state if all activations are at the same points of functions
with the same names, with the same arguments and slots, and if the next instruction
does the same to the same values. What values the machines keep where is left open:
that is what two machines may differ in. A relation between activations that implies
this and that instructions preserve (`Lockstep`) makes the machines agree on every
state of their runs, and so on how they end.
-/

namespace ImpCompiler

set_option autoImplicit false

/-- What the effect of an operation can be: only those that do not end a block compute
values or call, and control goes to the targets. -/
def Op.Allows (op : Op) : Effect → Prop
  | .value .. | .call .. => op.isTerminator = false
  | .store s _ => op = .store s
  | .jump b => b ∈ op.targets
  | .leave _ | .fail _ => True

/-- An operation only jumps to its targets and only stores to its slot. -/
theorem Op.allows_effect (op : Op) (args : List Val) (slots : Nat → Option Val) (w : World)
    (vs : List Val) : op.Allows (op.effect args slots w vs) := by
  have ofValue : ∀ x, op.isTerminator = false → op.Allows (.ofValue w x) := by
    rintro (f | v) plain
    · trivial
    · exact plain
  have ofHeap : ∀ x, op.isTerminator = false → op.Allows (.ofHeap w x) := by
    rintro (f | ⟨v, h⟩) plain
    · trivial
    · exact plain
  unfold Op.effect
  split
  case h_1 | h_4 => split <;> trivial
  case h_2 | h_3 | h_5 | h_8 | h_9 => rfl
  case h_6 | h_7 | h_11 | h_12 => exact ofValue _ rfl
  case h_10 | h_13 => exact ofHeap _ rfl
  case h_14 => simp [Op.Allows, Op.targets]
  case h_15 =>
    split
    · simp only [Op.Allows, Op.targets]
      split <;> split <;> simp_all
    · trivial
  all_goals trivial

namespace Machine

variable {κ κ' : Type} [DecidableEq κ] [DecidableEq κ'] {M : Machine κ} {M' : Machine κ'}

/-- The operation that is next, with the values of its operands. -/
def reading (M : Machine κ) (fr : Frame κ) : Option (Op × Option (List Val)) :=
  fr.fetch.map fun p => (p.2.op, M.operands fr p.2)

omit [DecidableEq κ] in
theorem effect_eq (fr : Frame κ) (w : World) :
    M.effect fr w = match M.reading fr with
      | some (op, some vs) => op.effect fr.args fr.slots w vs
      | _ => .fail .mismatch := by
  unfold effect reading
  cases fr.fetch with
  | none => rfl
  | some p =>
    simp only [Option.map_some]
    cases M.operands fr p.2 <;> rfl

/-- The activations are at the same point, with the same arguments and slots, and are
about to do the same to the same values. -/
structure Agree (M : Machine κ) (M' : Machine κ') (fr : Frame κ) (fr' : Frame κ') : Prop where
  function : fr.func.name = fr'.func.name
  block : fr.block = fr'.block
  offset : fr.offset = fr'.offset
  args : fr.args = fr'.args
  slots : fr.slots = fr'.slots
  reading : M.reading fr = M'.reading fr'

def AgreeOn (M : Machine κ) (M' : Machine κ') : State κ → State κ' → Prop
  | .running fr callers w, .running fr' callers' w' =>
    M.Agree M' fr fr' ∧ List.Forall₂ (M.Agree M') callers callers' ∧ w = w'
  | .ended o, .ended o' => o = o'
  | _, _ => False

/-- A relation between activations that implies that they agree and that the machines
preserve. -/
structure Lockstep (M : Machine κ) (M' : Machine κ') (R : Frame κ → Frame κ' → Prop) : Prop where
  oracle : M.oracle = M'.oracle
  agree : ∀ {fr fr'}, R fr fr' → M.Agree M' fr fr'
  enter : ∀ name, Option.Rel (fun f f' => ∀ args, R (M.enter f args) (M'.enter f' args))
    (M.function? name) (M'.function? name)
  resume : ∀ {fr fr' n i} v, R fr fr' → fr.fetch = some (n, i) → i.op.isTerminator = false →
    R (M.resume fr v) (M'.resume fr' v)
  stored : ∀ {fr fr' n i s} v, R fr fr' → fr.fetch = some (n, i) → i.op = .store s →
    R (fr.stored s v) (fr'.stored s v)
  jump : ∀ {fr fr' n i b}, R fr fr' → fr.fetch = some (n, i) → b ∈ i.op.targets →
    R (fr.jump b) (fr'.jump b)

namespace Lockstep

variable {R : Frame κ → Frame κ' → Prop}

def Waiting (R : Frame κ → Frame κ' → Prop) (fr : Frame κ) (fr' : Frame κ') : Prop :=
  R fr fr' ∧ ∃ n i, fr.fetch = some (n, i) ∧ i.op.isTerminator = false

def Related (R : Frame κ → Frame κ' → Prop) : State κ → State κ' → Prop
  | .running fr callers w, .running fr' callers' w' =>
    R fr fr' ∧ List.Forall₂ (Waiting R) callers callers' ∧ w = w'
  | .ended o, .ended o' => o = o'
  | _, _ => False

theorem agreeOn (lockstep : Lockstep M M' R) {s : State κ} {s' : State κ'}
    (related : Related R s s') : M.AgreeOn M' s s' := by
  cases s <;> cases s'
  case running.running =>
    obtain ⟨top, callers, same⟩ := related
    exact ⟨lockstep.agree top, callers.imp fun _ _ waiting => lockstep.agree waiting.1, same⟩
  all_goals exact related

/-- Control that goes to an activation that waits. -/
theorem giveBack (lockstep : Lockstep M M' R) {callers : List (Frame κ)}
    {callers' : List (Frame κ')} (waiting : List.Forall₂ (Waiting R) callers callers') (v : Val)
    (w : World) : Related R (M.giveBack callers v w) (M'.giveBack callers' v w) := by
  cases waiting with
  | nil => rfl
  | cons first rest =>
    obtain ⟨related, n, i, fetched, plain⟩ := first
    exact ⟨lockstep.resume v related fetched plain, rest, rfl⟩

/-- Machines in lockstep stay related after a step. -/
theorem step (lockstep : Lockstep M M' R) {s : State κ} {s' : State κ'}
    (related : Related R s s') : Related R (M.step s) (M'.step s') := by
  cases s <;> cases s'
  case running.running fr callers w fr' callers' w' =>
    obtain ⟨top, waiting, rfl⟩ := related
    have agree := lockstep.agree top
    have same : M.effect fr w = M'.effect fr' w := by
      rw [effect_eq, effect_eq, agree.reading, agree.args, agree.slots]
    simp only [Machine.step, ← same]
    cases fetched : fr.fetch with
    | none =>
      have fails : M.effect fr w = .fail .mismatch := by simp [effect, fetched]
      rw [fails]
      rfl
    | some p =>
      obtain ⟨n, i⟩ := p
      have allowed : i.op.Allows (M.effect fr w) := by
        simp only [effect, fetched]
        split
        · trivial
        · exact i.op.allows_effect _ _ _ _
      cases does : M.effect fr w with
      | value v w' =>
        rw [does] at allowed
        exact ⟨lockstep.resume v top fetched allowed, waiting, rfl⟩
      | store s v =>
        rw [does] at allowed
        exact ⟨lockstep.stored v top fetched allowed, waiting, rfl⟩
      | jump b =>
        rw [does] at allowed
        exact ⟨lockstep.jump top fetched allowed, waiting, rfl⟩
      | leave v => exact lockstep.giveBack waiting v w
      | fail f => rfl
      | call name args =>
        rw [does] at allowed
        have callee := lockstep.enter name
        simp only [perform, ← lockstep.oracle]
        cases known : M.function? name <;> cases known' : M'.function? name <;>
          rw [known, known'] at callee <;> cases callee
        case none.none => exact ⟨lockstep.resume _ top fetched allowed, waiting, rfl⟩
        case some.some enters => exact ⟨enters args, .cons ⟨top, n, i, fetched, allowed⟩ waiting, rfl⟩
  case ended.ended => exact related
  all_goals exact related.elim

theorem run (lockstep : Lockstep M M' R) (n : Nat) {s : State κ} {s' : State κ'}
    (related : Related R s s') : Related R (M.run n s) (M'.run n s') := by
  induction n generalizing s s' with
  | zero => exact related
  | succ n ih => exact ih (lockstep.step related)

/-- The machines agree on every state of the runs of a function. -/
theorem agreeOn_run (lockstep : Lockstep M M' R) {name : Text} {f f' : Func}
    (known : M.function? name = some f) (known' : M'.function? name = some f') (args : List Val)
    (heap : Heap) (n : Nat) :
    M.AgreeOn M' (M.run n (M.start f args heap)) (M'.run n (M'.start f' args heap)) := by
  have callee := lockstep.enter name
  rw [known, known'] at callee
  cases callee with
  | some enters => exact lockstep.agreeOn (lockstep.run n ⟨enters args, .nil, rfl⟩)

/-- The machines end in the same outcomes. -/
theorem ends_iff (lockstep : Lockstep M M' R) {name : Text} {args : List Val} {heap : Heap}
    {o : Outcome} : M.Ends name args heap o ↔ M'.Ends name args heap o := by
  have callee := lockstep.enter name
  unfold Ends
  cases known : M.function? name <;> cases known' : M'.function? name <;>
    rw [known, known'] at callee <;> cases callee
  case none.none => simp
  case some.some f f' enters =>
    simp only [Option.some.injEq, exists_eq_left']
    refine exists_congr fun n => ?_
    have agree := lockstep.agreeOn_run known known' args heap n
    cases reached : M.run n (M.start f args heap) <;>
      cases reached' : M'.run n (M'.start f' args heap) <;> rw [reached, reached'] at agree
    case ended.ended => simp [show _ = _ from agree]
    case running.running => simp
    all_goals exact agree.elim

end Lockstep

end Machine

end ImpCompiler
