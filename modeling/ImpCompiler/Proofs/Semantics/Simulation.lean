import ImpCompiler.Proofs.Semantics.Machine

/-!
# Proofs.Semantics.Simulation — machines that carry out computations

`Machine.Sim` says that a machine, from a state on, does what a computation does: if
the computation has an answer, the machine gets to a state that fits the answer; if it
ends with a fault, so does the machine; and if it was given up, the machine does not
end soon either. The last is what makes simulation work in both directions: a machine
that ends cannot be simulating a computation that is given up however long it may
take. Simulations are put together as computations are (`Sim.bind`).
-/

namespace ImpCompiler

set_option autoImplicit false

namespace Machine

variable {κ : Type} [DecidableEq κ] {M : Machine κ} {s s' : State κ}

/-! ## Runs -/

theorem run_add (m n : Nat) (s : State κ) : M.run (m + n) s = M.run n (M.run m s) := by
  induction m generalizing s with
  | zero => simp [run]
  | succ m ih => rw [Nat.succ_add, run, run, ih]

theorem run_ended (n : Nat) (o : Outcome) : M.run n (.ended o) = .ended o := by
  induction n with
  | zero => rfl
  | succ n ih => exact ih

/-- A run that has not ended had not ended before. -/
theorem isRunning_of_run {m n : Nat} (le : m ≤ n) (goesOn : (M.run n s).isRunning = true) :
    (M.run m s).isRunning = true := by
  obtain ⟨k, rfl⟩ := Nat.exists_eq_add_of_le le
  rw [run_add] at goesOn
  cases reached : M.run m s with
  | running => rfl
  | ended o => simp [reached, run_ended, State.isRunning] at goesOn

/-- A run has one end. -/
theorem ended_unique {m n : Nat} {o o' : Outcome} (first : M.run m s = .ended o)
    (second : M.run n s = .ended o') : o = o' := by
  have later : ∀ {m n : Nat} {o o' : Outcome}, m ≤ n → M.run m s = .ended o →
      M.run n s = .ended o' → o = o' := by
    intro m n o o' le first second
    obtain ⟨k, rfl⟩ := Nat.exists_eq_add_of_le le
    rw [run_add, first, run_ended] at second
    cases second
    rfl
  rcases Nat.le_total m n with le | le
  · exact later le first second
  · exact (later le second first).symm

/-! ## Simulation -/

/-- From the state `s` on the machine does what a computation with the result `r`
does, and takes at least `n` steps if the computation was given up. -/
def Sim {α : Type} (M : Machine κ) (n : Nat) (s : State κ) (r : Result α)
    (post : α → World → State κ → Prop) : Prop :=
  match r with
  | .done a w => ∃ k, post a w (M.run k s)
  | .fault f w => ∃ k, M.run k s = .ended ⟨.error f, w⟩
  | .unfinished => (M.run n s).isRunning = true

namespace Sim

variable {α β : Type} {m n : Nat} {w : World} {post post' : α → World → State κ → Prop}

theorem pure {a : α} (fits : post a w s) : M.Sim n s ((pure a : Comp α) w) post := ⟨0, fits⟩

/-- Where the computation has its answer, the machine may still go on. -/
theorem andThen {r : Result α} (sim : M.Sim n s r post)
    (goesOn : ∀ a w s, post a w s → ∃ j, post' a w (M.run j s)) : M.Sim n s r post' := by
  cases r with
  | done a w =>
    obtain ⟨k, fits⟩ := sim
    obtain ⟨j, fits⟩ := goesOn _ _ _ fits
    exact ⟨k + j, by rwa [run_add]⟩
  | fault f w => exact sim
  | unfinished => exact sim

theorem imp {r : Result α} (sim : M.Sim n s r post)
    (weaker : ∀ a w s, post a w s → post' a w s) : M.Sim n s r post' :=
  sim.andThen fun a w s fits => ⟨0, weaker a w s fits⟩

theorem mono {r : Result α} (sim : M.Sim n s r post) (le : m ≤ n) : M.Sim m s r post := by
  cases r with
  | done a w => exact sim
  | fault f w => exact sim
  | unfinished => exact isRunning_of_run le sim

/-- Steps before a simulation count. -/
theorem after {r : Result α} {k : Nat} (sim : M.Sim n (M.run k s) r post) :
    M.Sim (k + n) s r post := by
  cases r with
  | done a w =>
    obtain ⟨j, fits⟩ := sim
    exact ⟨k + j, by rwa [run_add]⟩
  | fault f w =>
    obtain ⟨j, ended⟩ := sim
    exact ⟨k + j, by rwa [run_add]⟩
  | unfinished =>
    change (M.run (k + n) s).isRunning = true
    rwa [run_add]

theorem step {r : Result α} (sim : M.Sim n (M.step s) r post) : M.Sim (n + 1) s r post := by
  rw [Nat.add_comm]
  exact after (k := 1) sim

/-- Simulations of two parts are one of the whole. -/
theorem bind {x : Comp α} {f : α → Comp β} {post' : β → World → State κ → Prop}
    (first : M.Sim n s (x w) post)
    (second : ∀ a w s, post a w s → M.Sim n s (f a w) post') : M.Sim n s ((x >>= f) w) post' := by
  change M.Sim n s (Comp.bind x f w) post'
  unfold Comp.bind
  cases answer : x w with
  | done a w' =>
    rw [answer] at first
    obtain ⟨k, fits⟩ := first
    exact (after (second a w' _ fits)).mono (Nat.le_add_left n k)
  | fault e w' =>
    rw [answer] at first
    exact first
  | unfinished =>
    rw [answer] at first
    exact first

/-- A machine that simulates a computation however long that may take ends as the
computation does. -/
theorem ended_iff {run : Nat → Result Val} {o : Outcome}
    (sim : ∀ n, M.Sim n s (run n) fun v w s' => s' = .ended ⟨.ok v, w⟩) :
    (∃ n, (run n).outcome? = some o) ↔ ∃ n, M.run n s = .ended o := by
  have ends : ∀ {n : Nat} {o : Outcome}, (run n).outcome? = some o → ∃ k, M.run k s = .ended o := by
    intro n o ended
    have sim := sim n
    cases result : run n with
    | done v w =>
      rw [result] at sim ended
      cases ended
      exact sim
    | fault f w =>
      rw [result] at sim ended
      cases ended
      exact sim
    | unfinished => simp [result, Result.outcome?] at ended
  constructor
  · rintro ⟨n, ended⟩
    exact ends ended
  · rintro ⟨k, ended⟩
    refine ⟨k, ?_⟩
    cases found : (run k).outcome? with
    | some o' =>
      obtain ⟨j, ended'⟩ := ends found
      rw [ended_unique ended ended']
    | none =>
      -- A computation that is given up after `k` would keep the machine running then.
      have sim := sim k
      cases result : run k with
      | done v w => simp [result, Result.outcome?] at found
      | fault f w => simp [result, Result.outcome?] at found
      | unfinished =>
        rw [result] at sim
        have goesOn : (M.run k s).isRunning = true := sim
        simp [ended, State.isRunning] at goesOn

end Sim

/-- The machine carries out calls as `call` does: from a call it gets behind the call
with the answer. -/
def Answers (M : Machine κ) (n : Nat) (call : Text → List Val → Comp Val) : Prop :=
  ∀ fr callers w name vs, M.effect fr w = .call name vs →
    M.Sim n (.running fr callers w) (call name vs w) fun v w' s =>
      s = .running (M.resume fr v) callers w'

section Calls

variable {n : Nat} {fr : Frame κ} {callers : List (Frame κ)} {w : World} {name : Text} {vs : List Val}

theorem step_call (effect : M.effect fr w = .call name vs) {f : Func}
    (known : M.function? name = some f) :
    M.step (.running fr callers w) = .running (M.enter f vs) (fr :: callers) w := by
  simp only [step, effect, perform, known]

theorem builtin_sim (effect : M.effect fr w = .call name vs) (unknown : M.function? name = none) :
    M.Sim n (.running fr callers w) (Comp.builtin M.oracle name vs w) fun v w' s =>
      s = .running (M.resume fr v) callers w' := by
  refine ⟨1, ?_⟩
  simp only [run, step, effect, perform, unknown]

end Calls

end Machine

end ImpCompiler
