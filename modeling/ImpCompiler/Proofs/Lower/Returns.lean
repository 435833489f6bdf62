import ImpCompiler.Proofs.Lower.Programs

/-!
# Proofs.Lower.Returns — where control runs off the end of a body

Where a body has not come to its end, it is marked: a void function returns, and in any
other function control is taken never to get there. The check that a function always
returns looks at the statements alone. Both agree: the mark is left when dead code is
removed exactly if the statements do not always return, so no function of a checked
program has a mark that control is said never to reach.
-/

namespace ImpCompiler

set_option autoImplicit false

namespace Lower

/-- The number of the instruction that marks the end of a body, if the body has not come
to its end before. -/
def implicitEnd? (f : FuncDef) : Option Nat :=
  match statements f ⟨Func.empty f.name .void [], 0⟩ with
  | .ok (_, c) => if (c.func.terminator? c.block).isSome then none else some c.func.arena.size
  | .error _ => none

def endOp (ret : Ty) : Op := if ret = Ty.void then .ret else .unreachable

variable {f : FuncDef} {c c' : Cursor} {g : Func}

theorem endOp_isTerminator (ret : Ty) : (endOp ret).isTerminator = true := by
  unfold endOp
  split <;> rfl

theorem endOp_targets (ret : Ty) : (endOp ret).targets = [] := by
  unfold endOp
  split <;> rfl

/-- The end of a body: there is a mark in the block of the cursor, or there is none. -/
theorem Closes.cases {t : Ty} {ret : DataType} (known : t.data? = some ret)
    (closed : Closes ret c c') :
    ((c.func.terminator? c.block).isSome = true ∧ c' = c) ∨
      ((c.func.terminator? c.block).isSome = false ∧ c' = c.emitted (endOp t) .void []) := by
  rcases closed with ended | ⟨goesOn, n, ran⟩
  · exact .inl ended
  · refine .inr ⟨goesOn, ?_⟩
    obtain ⟨op, d, args, planned, -, rfl⟩ := emit_ok.1 ran
    by_cases void : t = Ty.void
    · have none : ret = .void := Option.some.inj (known.symm.trans (Ty.data?_eq_void.2 void))
      rw [endRequest, if_pos none] at planned
      cases planned
      rw [endOp, if_pos void]
      rfl
    · have some : ret ≠ .void := fun none => void (Ty.data?_eq_void.1 (none ▸ known))
      rw [endRequest, if_neg some] at planned
      cases planned
      rw [endOp, if_neg void]
      rfl

section Mark

variable {R : Nat → Prop}

/-- A mark goes nowhere, so control reaches what it reached before. -/
theorem Charted.reaches_marked (charted : Charted R [] c) (t : Ty) (b : Nat) :
    (c.emitted (endOp t) .void []).func.Reaches b ↔ c.func.Reaches b := by
  constructor
  · intro reaches
    refine reaches.mono fun b' goal goes => ?_
    by_cases here : b' = c.block
    · subst here
      rcases (charted.laid.exits_append charted.inside _ _ _).1 goes with old | ⟨-, target⟩
      · exact old
      · simp [endOp_targets] at target
    · obtain ⟨n, i, exit, known, target⟩ := Func.mem_exits.1 goes
      have exit' : c.func.exit? b' = some n :=
        (charted.laid.exit?_append_ne _ _ _ here).symm.trans exit
      obtain ⟨j, known'⟩ := charted.laid.known (Func.exit?_mem exit')
      have same := (Func.Grows.of_append c.func c.block (endOp t) .void []).instr known'
      rw [show (c.emitted (endOp t) .void []).func.arena[n]? = some j from same] at known
      cases known
      exact Func.mem_exits.2 ⟨n, _, exit', known', target⟩
  · exact fun reaches => reaches.grows charted.laid (.of_append ..)

/-- Control reaches the mark exactly if it gets to the cursor. -/
theorem Charted.mark_left (charted : Charted R [] c) (t : Ty) {g : Func}
    (trims : (c.emitted (endOp t) .void []).func.Trims g) :
    (∃ b, c.func.arena.size ∈ (g.block b).instrs) ↔ Live R c := by
  have grows : c.func.Grows (c.emitted (endOp t) .void []).func := .of_append ..
  have notCopy : endOp t ≠ .copy := by
    unfold endOp
    split <;> decide
  have laid : (c.emitted (endOp t) .void []).func.Laid :=
    show (c.func.append c.block _ _ (([] : List ValueRef).map fun v => (v.number : Value))).Laid from
      charted.laid.append charted.inside .void (by simp [endOp_targets]) (by simp)
        (fun copy => absurd copy notCopy)
  have whole : ((c.emitted (endOp t) .void []).func.block c.block).instrs =
      (c.func.block c.block).instrs ++ c.func.arena.size :: [] := by
    simp [Cursor.emitted, Func.append_block _ _ _ _ charted.inside]
  rw [trims.mem_instrs laid whole, charted.reaches_marked t, Live, Func.exit?_eq_none]
  refine and_congr ⟨fun reaches => reaches.within charted.entry charted.closed,
    fun charts => charted.reached _ charted.inside charts (by simp)⟩ (forall₂_congr fun m member => ?_)
  rw [charted.laid.isTerminatorAt_grows grows member]

end Mark

/-- A function that was lowered is what is left of its statements and of the mark behind them,
if there is one. -/
theorem function_closes (lowered : function f = .ok g) :
    ∃ ret c R, statements f ⟨Func.empty f.name .void [], 0⟩ = .ok (ret, c) ∧ Charted R [] c ∧
      (Live R c ↔ Stmt.anyReturns f.body = false) ∧
      (((c.func.terminator? c.block).isSome = true ∧ c.func.Trims g) ∨
        ((c.func.terminator? c.block).isSome = false ∧
          (c.emitted (endOp f.ret) .void []).func.Trims g)) := by
  obtain ⟨c', ran, flow⟩ := function_ok.1 lowered
  obtain ⟨ret, c, run, closed⟩ := body_closes.1 ran
  obtain ⟨R, charted, live⟩ := statements_charted run
  obtain ⟨_, _, _, _, -, known, -, -⟩ := statements_ok.1 run
  have trims := (body_laid ran).trims flow
  refine ⟨ret, c, R, run, charted, live, ?_⟩
  rcases closed.cases known with ⟨ended, rfl⟩ | ⟨goesOn, rfl⟩
  · exact .inl ⟨ended, trims⟩
  · exact .inr ⟨goesOn, trims⟩

/-- The mark at the end of a body is left exactly if its statements do not always return. -/
theorem implicitEnd?_left (lowered : function f = .ok g) :
    (∃ n b, implicitEnd? f = some n ∧ n ∈ (g.block b).instrs) ↔ Stmt.anyReturns f.body = false := by
  obtain ⟨ret, c, R, run, charted, live, closed⟩ := function_closes lowered
  rw [← live, implicitEnd?, run]
  rcases closed with ⟨ended, -⟩ | ⟨goesOn, trims⟩
  · have exit := Func.exit?_isSome_of_terminator? ended
    simp only [ended, if_true, reduceCtorEq, false_and, exists_false, false_iff]
    rintro ⟨-, none⟩
    simp [none] at exit
  · simp only [goesOn, Bool.false_eq_true, if_false, Option.some.injEq, exists_and_left,
      exists_eq_left']
    exact charted.mark_left f.ret trims

/-- The mark at the end of a body returns from a void function, and otherwise says that
control never gets there. Where it is left, it ends its block. -/
theorem implicitEnd?_code (lowered : function f = .ok g) {n : Nat}
    (marked : implicitEnd? f = some n) :
    g.arena[n]?.map Instr.code = some (endOp f.ret, .void, []) ∧
      ∀ b, n ∈ (g.block b).instrs → b ∈ g.layout ∧ (g.block b).instrs.getLast? = some n := by
  obtain ⟨ret, c, -, run, -, -, closed⟩ := function_closes lowered
  rw [implicitEnd?, run] at marked
  rcases closed with ⟨ended, -⟩ | ⟨goesOn, trims⟩
  · simp [ended] at marked
  · simp only [goesOn, Bool.false_eq_true, if_false, Option.some.injEq] at marked
    subst marked
    have code : g.arena[c.func.arena.size]?.map Instr.code = some (endOp f.ret, .void, []) := by
      rw [trims.code]
      simp [Cursor.emitted, Instr.code]
    refine ⟨code, fun b member => ?_⟩
    have left : b ∈ g.layout := by
      by_contra gone
      simp [trims.dropped b gone] at member
    obtain ⟨i, known, same⟩ := Option.map_eq_some_iff.1 code
    have isEnd : g.isTerminatorAt c.func.arena.size = true := by
      have op : i.op = endOp f.ret := congrArg Prod.fst same
      simp [Func.isTerminatorAt, known, Instr.isTerminator, op, endOp_isTerminator]
    obtain ⟨body, last, _, whole, -, -, -, plain⟩ := trims.formed.ends b left
    rw [whole, List.mem_append, List.mem_singleton] at member
    rcases member with inner | rfl
    · rw [plain _ inner] at isEnd
      cases isEnd
    · exact ⟨left, by rw [whole, List.getLast?_concat]⟩

/-- In a function that returns where it has to, nothing says that control never gets there. -/
theorem unmarked_of_returns (lowered : function f = .ok g)
    (returns : f.ret ≠ Ty.void → Stmt.anyReturns f.body = true) {b n : Nat} {i : Instr}
    (left : b ∈ g.layout) (last : (g.block b).instrs.getLast? = some n) (known : g.arena[n]? = some i) :
    i.op ≠ .unreachable := by
  intro mark
  obtain ⟨ret, c, R, run, charted, -, closed⟩ := function_closes lowered
  have leaves : ∀ {h : Func}, h.Trims g → h.exit? b = some n ∧ h.arena[n]? = some i := by
    intro h trims
    obtain ⟨body, m, whole, exit⟩ := trims.exit? left
    rw [whole, List.getLast?_concat] at last
    cases last
    exact ⟨exit, by rw [← trims.stays b n (by simp [whole]), known]⟩
  -- Where control leaves a block, the statements put no mark, so it is the one at the end.
  rcases closed with ⟨-, trims⟩ | ⟨goesOn, trims⟩
  · obtain ⟨exit, known⟩ := leaves trims
    exact charted.unmarked b n i exit known mark
  · obtain ⟨exit, known'⟩ := leaves trims
    have new : n = c.func.arena.size := by
      by_contra other
      have old : c.func.arena[n]? = some i := by
        rwa [Cursor.emitted, Func.append_arena, Array.getElem?_push, if_neg other] at known'
      have exit' : c.func.exit? b = some n := by
        by_cases here : b = c.block
        · subst here
          rw [Cursor.emitted, charted.laid.exit?_append charted.inside] at exit
          cases before : c.func.exit? c.block with
          | some k => simpa [before] using exit
          | none =>
            rw [before, endOp_isTerminator] at exit
            exact absurd (Option.some.inj exit).symm other
        · exact (charted.laid.exit?_append_ne _ _ _ here).symm.trans exit
      exact charted.unmarked b n i exit' old mark
    have marked : implicitEnd? f = some n := by
      rw [implicitEnd?, run]
      simp [goesOn, new]
    have falls : Stmt.anyReturns f.body = false :=
      (implicitEnd?_left lowered).1 ⟨n, b, marked, List.mem_of_getLast? last⟩
    obtain ⟨code, -⟩ := implicitEnd?_code lowered marked
    have op : i.op = endOp f.ret := by
      rw [known] at code
      exact congrArg Prod.fst (Option.some.inj code)
    by_cases void : f.ret = Ty.void
    · rw [op, endOp, if_pos void] at mark
      cases mark
    · rw [returns void] at falls
      cases falls

end Lower

namespace Typing

/-- The statements of a function of a program pass the check, which makes `body` of them. That
they return is not part of it. -/
def BodyPasses (p : Program) (f : FuncDef) (body : List Stmt) : Prop :=
  ∃ env env₁ env₂, declareFunctions initial p.functions = .ok env ∧
    env.enterFunction f.name f.pos = .ok env₁ ∧ declareParams env₁.enter f.params = .ok env₂ ∧
    (checkStmts env₂ f.body).stop = none ∧ (checkStmts env₂ f.body).tree = body

/-- What the check makes of the statements of a function, if they pass it. -/
def passedBody? (p : Program) (f : FuncDef) : Option (List Stmt) := do
  let env ← (declareFunctions initial p.functions).toOption
  let env ← (env.enterFunction f.name f.pos).toOption
  let env ← (declareParams env.enter f.params).toOption
  if (checkStmts env f.body).stop.isNone then return (checkStmts env f.body).tree else none

theorem passedBody?_some {p : Program} {f : FuncDef} {body : List Stmt}
    (passed : passedBody? p f = some body) : BodyPasses p f body := by
  simp only [passedBody?, Option.bind_eq_bind, Option.bind_eq_some_iff, Except.toOption_eq_some] at passed
  obtain ⟨env, declared, env₁, entered, env₂, params, passed⟩ := passed
  split at passed
  · rename_i ended
    exact ⟨env, env₁, env₂, declared, entered, params, Option.isNone_iff_eq_none.1 ended,
      Option.some.inj passed⟩
  · cases passed

/-- A function of a program, what the check makes of its statements, its code, and the mark
at its end. -/
def markedFunction? (p : Program) (k : Nat) : Option (FuncDef × List Stmt × Func × Nat) := do
  let f ← p.functions[k]?
  let body ← passedBody? p f
  let g ← (Lower.function { f with body }).toOption
  let n ← Lower.implicitEnd? { f with body }
  return (f, body, g, n)

theorem markedFunction?_some {p : Program} {k n : Nat} {f : FuncDef} {body : List Stmt} {g : Func}
    (marked : markedFunction? p k = some (f, body, g, n)) :
    f ∈ p.functions ∧ BodyPasses p f body ∧ Lower.function { f with body } = .ok g ∧
      Lower.implicitEnd? { f with body } = some n := by
  simp only [markedFunction?, Option.bind_eq_bind, Option.bind_eq_some_iff, Except.toOption_eq_some]
    at marked
  obtain ⟨f, known, body, passed, g, made, n, mark, same⟩ := marked
  cases same
  exact ⟨List.mem_of_getElem? known, passedBody?_some passed, made, mark⟩

namespace BodyPasses

variable {p : Program} {f : FuncDef} {body : List Stmt} (passes : BodyPasses p f body)

include passes

theorem erase : Stmt.eraseAll body = Stmt.eraseAll f.body := by
  obtain ⟨_, _, _, -, -, -, -, rfl⟩ := passes
  exact checkStmts_erase f.body

theorem params : ∀ f ∈ p.functions, ∀ q ∈ f.params, q.type ≠ Ty.void := by
  obtain ⟨_, _, _, declared, -⟩ := passes
  exact ((declareFunctions_ok p.functions).1 declared).1

/-- The function is well typed but for the returns. -/
theorem fits (member : f ∈ p.functions) : FitsFunction p.signatures { f with body } := by
  obtain ⟨env, env₁, env₂, declared, entered, params, ended, rfl⟩ := passes
  obtain ⟨nonvoid, distinct, -, rfl⟩ := (declareFunctions_ok p.functions).1 declared
  have known : p.signatures.lookup f.name = some f.signature := signatures_lookup distinct member
  rw [enterFunction_eq (show _ = _ from known)] at entered
  cases entered
  obtain ⟨-, rfl⟩ := declareParams_function.1 params
  obtain ⟨Δ, -, all⟩ := checkStmts_sound f.body ended
  have fits : FitsAll p.signatures f.ret (paramContext f ++ []) _ (Δ ++ []) := all.fits
  rw [List.append_nil] at fits
  exact ⟨nonvoid f member, _, fits⟩

end BodyPasses

end Typing

open Typing

/-- The check that a function returns and its control flow agree. Whether or not it always
returns, a function whose statements pass the check is lowered if the types of the program
are plain; the mark where control can run off its end is left exactly if its statements do not
always return. So no block of the code of a checked program ends where control is said never
to get. -/
theorem returns_agree_with_flow (p : Program) :
    (∀ f ∈ p.functions, ∀ body, BodyPasses p f body →
      ((∀ t ∈ p.types, t.IsPlain) → ∃ g, Lower.function { f with body } = .ok g) ∧
      ∀ g, Lower.function { f with body } = .ok g →
        ((∃ n b, Lower.implicitEnd? { f with body } = some n ∧ n ∈ (g.block b).instrs) ↔
          Stmt.anyReturns f.body = false) ∧
        ∀ n, Lower.implicitEnd? { f with body } = some n →
          g.arena[n]?.map Instr.code = some (if f.ret = Ty.void then .ret else .unreachable, .void, []) ∧
          ∀ b, n ∈ (g.block b).instrs → b ∈ g.layout ∧ (g.block b).instrs.getLast? = some n) ∧
    (p.check.2 = none → ∀ threads path m, p.check.1.lower threads path = .ok m →
      ∀ g ∈ m.functions, ∀ b ∈ g.layout, ∀ n i, (g.block b).instrs.getLast? = some n →
        g.arena[n]? = some i → i.op ≠ .unreachable) := by
  refine ⟨fun f member body passes => ⟨fun named => ?_, fun g lowered => ⟨?_, fun n marked => ?_⟩⟩, ?_⟩
  · have plain := Program.signatures_plain named passes.params
    refine Lower.function_total plain (fun t used => ?_) (passes.fits member)
    refine named t (List.mem_flatMap.2 ⟨f, member, ?_⟩)
    rwa [FuncDef.types, ← Stmt.typesOfAll_eraseAll, passes.erase, Stmt.typesOfAll_eraseAll] at used
  · rw [Lower.implicitEnd?_left lowered, ← Stmt.anyReturns_eraseAll, passes.erase,
      Stmt.anyReturns_eraseAll]
  · exact Lower.implicitEnd?_code lowered marked
  · intro checked threads path m lowered g member b left n i last known
    obtain ⟨f, source, lowered⟩ := Program.lower_mem lowered member
    have admits := (Program.check_admits checked).functions f source
    exact Lower.unmarked_of_returns lowered
      (fun some => (anyReturns_iff f.body).2 (admits.returns some)) left last known

def leapsText : Text :=
  "int early(int x) \x7b return x; while (x > 0) \x7b x--; if (x == 3) return 3; \x7d \x7d " ++
  "void round() \x7b while (true) \x7b return; \x7d \x7d " ++
  "int main() \x7b round(); return early(2); \x7d"

def leaps : Program :=
  match Program.parse leapsText with
  | .ok p => p
  | .error _ => ⟨[]⟩

/-- The mark behind the loop that `early` never comes to is removed with the loop, and the mark
behind the loop of `round`, whose body returns, is left. -/
theorem leaps_keep_one_mark :
    leaps.check.2 = none ∧
    (∃ f ∈ leaps.functions, ∃ body g n, BodyPasses leaps f body ∧
      Lower.function { f with body } = .ok g ∧ Lower.implicitEnd? { f with body } = some n ∧
      ∀ b, n ∉ (g.block b).instrs) ∧
    (∃ f ∈ leaps.functions, ∃ body g n b, BodyPasses leaps f body ∧
      Lower.function { f with body } = .ok g ∧ Lower.implicitEnd? { f with body } = some n ∧
      b ∈ g.layout ∧ (g.block b).instrs.getLast? = some n ∧
      g.arena[n]?.map Instr.code = some (.ret, .void, [])) ∧
    ∃ m, leaps.check.1.lower 2 "leaps" = .ok m ∧ ∀ g ∈ m.functions, ∀ b ∈ g.layout, ∀ n i,
      (g.block b).instrs.getLast? = some n → g.arena[n]? = some i → i.op ≠ .unreachable := by
  obtain ⟨marks, unmarked⟩ := returns_agree_with_flow leaps
  have checked : leaps.check.2 = none := Option.isNone_iff_eq_none.1 (by decide +kernel)
  have early : (markedFunction? leaps 0).any (fun r => Stmt.anyReturns r.1.body) = true := by
    decide +kernel
  have round : (markedFunction? leaps 1).any
      (fun r => !Stmt.anyReturns r.1.body && r.1.ret == Ty.void) = true := by
    decide +kernel
  have lowered : (leaps.check.1.lower 2 "leaps").toOption.isSome = true := by decide +kernel
  refine ⟨checked, ?_, ?_, ?_⟩
  · obtain ⟨⟨f, body, g, n⟩, known, returns⟩ := (Option.any_eq_true _ _).1 early
    obtain ⟨member, passes, made, mark⟩ := markedFunction?_some known
    refine ⟨f, member, body, g, n, passes, made, mark, fun b left => ?_⟩
    have falls := ((marks f member body passes).2 g made).1.1 ⟨n, b, mark, left⟩
    rw [show Stmt.anyReturns f.body = true from returns] at falls
    cases falls
  · obtain ⟨⟨f, body, g, n⟩, known, returns⟩ := (Option.any_eq_true _ _).1 round
    obtain ⟨member, passes, made, mark⟩ := markedFunction?_some known
    simp only [Bool.and_eq_true, Bool.not_eq_true', beq_iff_eq] at returns
    obtain ⟨agrees, last⟩ := (marks f member body passes).2 g made
    obtain ⟨n', b, mark', left⟩ := agrees.2 returns.1
    cases mark.symm.trans mark'
    obtain ⟨code, place⟩ := last n mark
    rw [if_pos returns.2] at code
    exact ⟨f, member, body, g, n, b, passes, made, mark, (place b left).1, (place b left).2, code⟩
  · obtain ⟨m, made⟩ := Option.isSome_iff_exists.1 lowered
    have made := Except.toOption_eq_some.1 made
    exact ⟨m, made, unmarked checked 2 "leaps" m made⟩

end ImpCompiler
