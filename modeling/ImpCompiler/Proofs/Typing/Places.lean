import ImpCompiler.Proofs.Tree.Places
import ImpCompiler.Proofs.Typing.Sound

/-!
# Proofs.Typing.Places — where type errors are

The places of a tree are those of its nodes. A check that stops at an error names a place of
the tree it was given: `FailsAt` says this of an answer and goes along with the way checks
are made of checks, and `Checked.StopsAt` says it of what a check leaves behind. A statement
is always checked inside a scope, so no check stops for want of one.
-/

namespace ImpCompiler

set_option autoImplicit false

namespace Typing

/-! ## Expressions -/

section Answers

variable {α β : Type}

/-- An error in the answer is at one of `places`. -/
def FailsAt (x : Except TypeError α) (places : List Pos) : Prop :=
  ∀ e, x = .error e → e.pos ∈ places

namespace FailsAt

variable {x : Except TypeError α} {places places' : List Pos}

theorem pure {a : α} : FailsAt (Pure.pure a) places := by
  intro e failed
  cases failed

theorem throw {e : TypeError} (member : e.pos ∈ places) :
    FailsAt (MonadExcept.throw e : Except TypeError α) places := by
  intro e' failed
  cases failed
  exact member

theorem mono (fails : FailsAt x places) (subset : places ⊆ places') : FailsAt x places' :=
  fun e failed => subset (fails e failed)

/-- Steps that fail at places of a tree fail there one after the other. -/
theorem bind {f : α → Except TypeError β} (first : FailsAt x places)
    (rest : ∀ a, FailsAt (f a) places) : FailsAt (x >>= f) places := by
  intro e failed
  cases ran : x with
  | error e' =>
    rw [ran] at failed
    cases failed
    exact first e ran
  | ok a =>
    rw [ran] at failed
    exact rest a e failed

theorem ite {c : Prop} [Decidable c] {y : Except TypeError α} (yes : FailsAt x places)
    (no : FailsAt y places) : FailsAt (if c then x else y) places := by
  split
  · exact yes
  · exact no

/-- A demand that is not met stops the check; otherwise it goes on with `x`. -/
theorem demand {c : Prop} [Decidable c] {e : TypeError} (member : e.pos ∈ places)
    (rest : FailsAt x places) :
    FailsAt (if c then (MonadExcept.throw e : Except TypeError PUnit) >>= fun _ => x else x)
      places :=
  .ite (.bind (.throw member) fun _ => rest) rest

end FailsAt

end Answers

variable {env : Env} {places : List Pos}

theorem typeOf_failsAt {name : Text} {p : Pos} (member : p ∈ places) :
    FailsAt (env.typeOf name p) places := by
  unfold Env.typeOf
  split
  · exact .pure
  · exact .throw member

theorem callee_failsAt {p : Pos} {name : Text} {n : Nat} (member : p ∈ places) :
    FailsAt (callee env p name n) places := by
  refine .bind ?_ fun s => .ite .pure (.throw member)
  unfold Env.signatureOf
  split
  · exact .pure
  · exact .throw member

theorem constructible_failsAt {p : Pos} {elem : Ty} {n : Nat} (member : p ∈ places) :
    FailsAt (constructible p elem n) places :=
  .ite (.throw member) (.ite .pure (.throw member))

mutual

/-- An expression is refused at one of its places. -/
theorem infer_failsAt : ∀ (e : Expr), FailsAt (infer env e) e.places
  | .typed x _ => by
    rw [infer]
    exact infer_failsAt x
  | .int .. | .double .. | .bool .. | .string .. => by
    rw [infer]
    exact .pure
  | .ident .. => by
    rw [infer]
    exact .bind (typeOf_failsAt (by simp)) fun t => .pure
  | .unary _ _ x => by
    rw [infer]
    exact .bind ((infer_failsAt x).mono (by simp)) fun _ => .ite .pure (.throw (by simp))
  | .binary _ _ x y => by
    rw [infer]
    refine .bind ((infer_failsAt x).mono (by simp)) fun _ => ?_
    refine .bind ((infer_failsAt y).mono (by simp)) fun _ => ?_
    exact .ite (.throw (by simp)) (.ite (.throw (by simp)) (.ite .pure (.throw (by simp))))
  | .call _ _ args => by
    rw [infer]
    refine .bind (callee_failsAt (by simp)) fun s => ?_
    exact .bind ((inferArguments_failsAt args).mono (by simp)) fun _ => .pure
  | .length _ x _ => by
    rw [infer]
    refine .bind ((infer_failsAt x).mono (by simp)) fun _ => ?_
    exact .ite (.throw (by simp)) (.ite .pure (.throw (by simp)))
  | .index _ x i => by
    rw [infer]
    refine .bind ((infer_failsAt i).mono (by simp)) fun _ => ?_
    refine .demand (by simp) (.bind ((inferChain_failsAt x).mono (by simp)) fun _ => ?_)
    exact .ite (.throw (by simp)) .pure
  | .new _ _ sizes => by
    rw [infer]
    refine .bind (constructible_failsAt (by simp)) fun _ => ?_
    exact .bind ((inferSizes_failsAt sizes).mono (by simp)) fun _ => .pure

/-- Errors in an indexing are at places of its tree. -/
theorem inferChain_failsAt : ∀ (e : Expr), FailsAt (inferChain env e) e.places
  | .typed x _ => by
    rw [inferChain]
    exact inferChain_failsAt x
  | .index _ x i => by
    rw [inferChain]
    refine .bind ((infer_failsAt i).mono (by simp)) fun _ => ?_
    exact .demand (by simp) (.bind ((inferChain_failsAt x).mono (by simp)) fun _ => .pure)
  | .ident .. => by
    rw [inferChain]
    exact .bind (typeOf_failsAt (by simp)) fun t => .pure
  | .call _ _ args => by
    rw [inferChain]
    refine .bind (callee_failsAt (by simp)) fun s => ?_
    exact .bind ((inferArguments_failsAt args).mono (by simp)) fun _ => .pure
  | .new _ _ sizes => by
    rw [inferChain]
    refine .bind (constructible_failsAt (by simp)) fun _ => ?_
    exact .bind ((inferSizes_failsAt sizes).mono (by simp)) fun _ => .pure
  | .int .. | .double .. | .bool .. | .string .. | .unary .. | .binary .. | .length .. =>
    .throw (Expr.pos_mem_places _)

theorem inferArguments_failsAt : ∀ (es : List Expr) {name : Text} {k : Nat} {ts : List Ty},
    FailsAt (inferArguments env name k ts es) (Expr.placesOfAll es)
  | [], _, _, ts => by
    cases ts <;> exact .pure
  | e :: es, _, _, [] => .pure
  | e :: es, _, _, t :: ts => by
    rw [inferArguments]
    refine .bind ((infer_failsAt e).mono (by simp)) fun _ => ?_
    exact .demand (by simp) (.bind ((inferArguments_failsAt es).mono (by simp)) fun _ => .pure)

theorem inferSizes_failsAt : ∀ (es : List Expr), FailsAt (inferSizes env es) (Expr.placesOfAll es)
  | [] => .pure
  | e :: es => by
    rw [inferSizes]
    refine .bind ((infer_failsAt e).mono (by simp)) fun _ => ?_
    exact .demand (by simp) (.bind ((inferSizes_failsAt es).mono (by simp)) fun _ => .pure)

end

/-! ## Statements -/

theorem inferCondition_failsAt (c : Expr) : FailsAt (inferCondition env c) c.places :=
  .bind (infer_failsAt c) fun _ => .ite .pure (.throw (by simp))

theorem inferInit_failsAt (t : Ty) (item : DeclItem) :
    FailsAt (inferInit env t item) item.places := by
  obtain ⟨p, name, init⟩ := item
  cases init with
  | none => exact .pure
  | some e =>
    refine .bind ((infer_failsAt e).mono (by simp [DeclItem.places])) fun _ => ?_
    exact .ite .pure (.throw (by simp [DeclItem.places]))

theorem inferAssignment_failsAt (p : Pos) (target value : Expr) :
    FailsAt (inferAssignment env p target value) (Stmt.assign p target value).places := by
  have sides : FailsAt (do
      let left ← infer env target
      let right ← infer env value
      if left.1 = right.1 then return (left.2, right.2)
      else throw ⟨.assignment right.1 left.1, p⟩ :
        Except TypeError (Expr × Expr)) (Stmt.assign p target value).places := by
    refine .bind ((infer_failsAt target).mono (by simp)) fun _ => ?_
    refine .bind ((infer_failsAt value).mono (by simp)) fun _ => ?_
    exact .ite .pure (.throw (by simp))
  unfold inferAssignment
  split
  · exact sides
  · exact sides
  · exact .bind (.throw (by simp)) fun _ => sides

theorem inferIteration_failsAt (p : Pos) (elem : Ty) (name : Text) (array : Expr) :
    FailsAt (inferIteration env p elem name array) (p :: array.places) := by
  refine .bind ((infer_failsAt array).mono (by simp)) fun r => ?_
  dsimp only
  split
  · exact .throw (by simp)
  · exact .ite .pure (.throw (by simp))

theorem inferReturn_failsAt (p : Pos) (value : Expr) :
    FailsAt (inferReturn env p value) (p :: value.places) := by
  refine .demand (by simp) (.bind ((infer_failsAt value).mono (by simp)) fun _ => ?_)
  exact .ite .pure (.throw (by simp))

theorem inferEffect_failsAt (p : Pos) (e : Expr) :
    FailsAt (inferEffect env p e) (p :: e.places) :=
  .bind ((infer_failsAt e).mono (by simp)) fun _ => .ite .pure (.throw (by simp))

theorem checkCounter_failsAt (p : Pos) (name : Text) : FailsAt (checkCounter env p name) [p] :=
  .bind (typeOf_failsAt (by simp)) fun _ => .ite .pure (.throw (by simp))

end Typing

/-- What a check stops for is an error at one of `places`. -/
def Stop.IsAt (places : List Pos) (stop : Stop) : Prop :=
  ∃ e, stop = .error e ∧ e.pos ∈ places

namespace Checked

variable {α β : Type}

/-- If the check stopped, then at an error at one of `places`. -/
def StopsAt (r : Checked α) (places : List Pos) : Prop :=
  ∀ stop, r.stop = some stop → stop.IsAt places

namespace StopsAt

variable {r : Checked α} {places places' : List Pos} {env : Env} {tree : α}

theorem done : (Checked.done env tree).StopsAt places := by
  intro stop stopped
  cases stopped

theorem failed {e : TypeError} (member : e.pos ∈ places) :
    (Checked.failed env tree e).StopsAt places := by
  intro stop stopped
  cases stopped
  exact ⟨e, rfl, member⟩

theorem map (stops : r.StopsAt places) (f : α → β) : (r.map f).StopsAt places := stops

theorem leave (stops : r.StopsAt places) : r.leave.StopsAt places := by
  intro stop stopped
  exact stops stop (r.leave_stop ▸ stopped)

theorem mono (stops : r.StopsAt places) (subset : places ⊆ places') : r.StopsAt places' := by
  intro stop stopped
  obtain ⟨e, error, member⟩ := stops stop stopped
  exact ⟨e, error, subset member⟩

end StopsAt

end Checked

theorem Env.declare_isAt {env : Env} {Δ : Scope} {name : Text} {t : Ty} {p : Pos} {stop : Stop}
    (stopped : (env.withScope Δ).declare name t p = .error stop) : stop.IsAt [p] := by
  simp only [declare, withScope] at stopped
  split at stopped
  · cases stopped
    exact ⟨_, rfl, by simp⟩
  · cases stopped

namespace Typing

/-- Errors in declarations are at places of their trees. -/
theorem checkItems_stopsAt {t : Ty} : ∀ (items : List DeclItem) {env : Env} {Δ : Scope},
    (checkItems (env.withScope Δ) t items).StopsAt (items.flatMap DeclItem.places)
  | [], _, _ => .done
  | item :: rest, env, Δ => by
    rw [checkItems]
    cases started : inferInit (env.withScope Δ) t item with
    | error e =>
      have member := inferInit_failsAt t item e started
      exact .failed (by simp [member])
    | ok item' =>
      cases declared : (env.withScope Δ).declare item.name t item.pos with
      | error stop =>
        obtain ⟨e, rfl, member⟩ := Env.declare_isAt declared
        refine .failed ?_
        simp only [List.mem_singleton] at member
        simp [member, DeclItem.places]
      | ok env' =>
        obtain ⟨-, rfl⟩ := Env.declare_ok.1 declared
        exact ((checkItems_stopsAt rest).map _).mono (by simp)

mutual

/-- A statement is refused at one of its places. -/
theorem checkStmt_stopsAt : ∀ (s : Stmt) {env : Env} {Δ : Scope},
    (checkStmt (env.withScope Δ) s).StopsAt s.places
  | .block p body, env, Δ => by
    rw [checkStmt]
    exact ((checkStmts_stopsAt body).leave.map _).mono (by simp)
  | .decl p t items, env, Δ => by
    rw [checkStmt]
    split
    · exact .failed (by simp)
    · exact ((checkItems_stopsAt items).map _).mono (by simp)
  | .assign p target value, env, Δ => by
    rw [checkStmt]
    cases ran : inferAssignment (env.withScope Δ) p target value with
    | error e => exact .failed (inferAssignment_failsAt p target value e ran)
    | ok both => exact .done
  | .incr p name decrement, env, Δ => by
    rw [checkStmt]
    cases ran : checkCounter (env.withScope Δ) p name with
    | error e => exact .failed (checkCounter_failsAt p name e ran)
    | ok u => exact .done
  | .ifThen p c yes, env, Δ => by
    rw [checkStmt]
    cases ran : inferCondition (env.withScope Δ) c with
    | error e => exact .failed (by simp [inferCondition_failsAt c e ran])
    | ok c' => exact ((checkStmt_stopsAt yes).leave.map _).mono (by simp)
  | .ifElse p c yes no, env, Δ => by
    rw [checkStmt]
    cases ran : inferCondition (env.withScope Δ) c with
    | error e => exact .failed (by simp [inferCondition_failsAt c e ran])
    | ok c' =>
      dsimp only
      split
      · exact ((checkStmt_stopsAt yes).leave.map _).mono fun q member => by simp [member]
      · rename_i ended
        -- The second branch is checked where the first one left the scopes as they were.
        rw [Checked.leave_stop, Env.enter_eq] at ended
        obtain ⟨Δ', left, -⟩ := checkStmt_sound yes ended
        rw [Env.enter_eq (env.withScope Δ), leave_withScope ended left]
        exact ((checkStmt_stopsAt no).leave.map _).mono fun q member => by simp [member]
  | .while p c body, env, Δ => by
    rw [checkStmt]
    cases ran : inferCondition (env.withScope Δ) c with
    | error e => exact .failed (by simp [inferCondition_failsAt c e ran])
    | ok c' => exact ((checkStmt_stopsAt body).leave.map _).mono (by simp)
  | .forEach p elem name array body, env, Δ => by
    rw [checkStmt]
    cases ran : inferIteration (env.withScope Δ) p elem name array with
    | error e =>
      have member := inferIteration_failsAt p elem name array e ran
      exact .failed (List.cons_subset_cons p (by simp) member)
    | ok array' =>
      dsimp only
      cases declared : (env.withScope Δ).enter.declare name elem p with
      | error stop =>
        obtain ⟨e, rfl, member⟩ := Env.declare_isAt declared
        exact .failed (List.cons_subset_cons p (by simp) member)
      | ok env' =>
        obtain ⟨-, rfl⟩ := Env.declare_ok.1 declared
        exact ((checkStmt_stopsAt body).leave.leave.map _).mono (by simp)
  | .ret p value, env, Δ => by
    rw [checkStmt]
    cases ran : inferReturn (env.withScope Δ) p value with
    | error e => exact .failed (inferReturn_failsAt p value e ran)
    | ok value' => exact .done
  | .retVoid p, env, Δ => by
    rw [checkStmt]
    split
    · exact .done
    · exact .failed (by simp)
  | .expr p e, env, Δ => by
    rw [checkStmt]
    cases ran : inferEffect (env.withScope Δ) p e with
    | error err => exact .failed (inferEffect_failsAt p e err ran)
    | ok e' => exact .done
  | .empty p, _, _ => .done

/-- Errors in statements are at places of their trees. -/
theorem checkStmts_stopsAt : ∀ (ss : List Stmt) {env : Env} {Δ : Scope},
    (checkStmts (env.withScope Δ) ss).StopsAt (Stmt.placesOfAll ss)
  | [], _, _ => .done
  | s :: rest, env, Δ => by
    rw [checkStmts]
    split
    · exact ((checkStmt_stopsAt s).map _).mono (by simp)
    · rename_i ended
      obtain ⟨Δ', left, -⟩ := checkStmt_sound s ended
      rw [left]
      exact ((checkStmts_stopsAt rest).map _).mono (by simp)

end

/-! ## Functions and programs -/

theorem declareParams_isAt : ∀ (ps : List Param) {env : Env} {Δ : Scope} {stop : Stop},
    declareParams (env.withScope Δ) ps = .error stop → stop.IsAt (ps.map Param.pos)
  | [], _, _, _, stopped => by cases stopped
  | q :: rest, env, Δ, stop, stopped => by
    rw [declareParams] at stopped
    cases declared : (env.withScope Δ).declare q.name q.type q.pos with
    | error stop' =>
      simp only [declared, Except.error.injEq] at stopped
      subst stopped
      obtain ⟨e, rfl, member⟩ := Env.declare_isAt declared
      exact ⟨e, rfl, List.cons_subset_cons q.pos (by simp) member⟩
    | ok env' =>
      obtain ⟨-, rfl⟩ := Env.declare_ok.1 declared
      simp only [declared] at stopped
      obtain ⟨e, error, member⟩ := declareParams_isAt rest stopped
      exact ⟨e, error, List.mem_cons_of_mem q.pos member⟩

/-- A function is refused at one of its places. -/
theorem checkFunction_stopsAt {env : Env} {f : FuncDef}
    (known : env.signatures.lookup f.name = some f.signature) :
    (checkFunction env f).StopsAt f.places := by
  have body : Stmt.placesOfAll f.body ⊆ f.places := fun q member => by
    simp [FuncDef.places, member]
  unfold checkFunction
  rw [enterFunction_eq known]
  dsimp only
  cases declared : declareParams (env.inFunction f).enter f.params with
  | error stop =>
    obtain ⟨e, rfl, member⟩ := declareParams_isAt f.params declared
    exact .failed (by simp [FuncDef.places, member])
  | ok env' =>
    obtain ⟨-, rfl⟩ := declareParams_function.1 declared
    dsimp only
    split
    · exact ((checkStmts_stopsAt f.body).leave.map _).mono body
    · split
      · exact .failed (by simp [FuncDef.places])
      · exact ((checkStmts_stopsAt f.body).leave.map _).mono body

/-- Functions are refused in one of them, at one of its places. -/
theorem checkFunctions_refused : ∀ (fs : List FuncDef) {env : Env} {r : Refusal}, env.scopes = [] →
    (∀ f ∈ fs, env.signatures.lookup f.name = some f.signature) →
    (∀ f ∈ fs, ∀ q ∈ f.params, q.type ≠ Ty.void) → (checkFunctions env fs).2 = some r →
    ∃ f ∈ fs, r.function = some f.name ∧ r.stop.IsAt f.places
  | [], _, _, _, _, _, refused => by cases refused
  | f :: rest, env, r, closed, known, params, refused => by
    rw [checkFunctions] at refused
    cases first : (checkFunction env f).stop with
    | some stop =>
      simp only [first, Option.some.injEq] at refused
      subst refused
      exact ⟨f, by simp, rfl, checkFunction_stopsAt (known f (by simp)) stop first⟩
    | none =>
      obtain ⟨-, left⟩ :=
        checkFunction_sound closed (known f (by simp)) (params f (by simp)) first
      simp only [first, left] at refused
      obtain ⟨g, member, named, isAt⟩ :=
        checkFunctions_refused rest (show (env.inFunction f).scopes = [] from closed)
          (fun g member => known g (by simp [member]))
          (fun g member => params g (by simp [member])) refused
      exact ⟨g, by simp [member], named, isAt⟩

/-- Errors in signatures are at places of the functions. -/
theorem declareFunctions_failsAt : ∀ (fs : List FuncDef) {env : Env},
    FailsAt (declareFunctions env fs) (fs.flatMap FuncDef.places)
  | [], _ => .pure
  | f :: rest, env => by
    rw [declareFunctions]
    split
    · rename_i q void
      have member := List.mem_map_of_mem (f := Param.pos) (List.mem_of_find?_eq_some void)
      exact .throw (by simp [FuncDef.places, member])
    · unfold Env.addFunction
      by_cases taken : (env.signatures.lookup f.name).isSome
      · rw [if_pos taken]
        exact .throw (by simp [FuncDef.places])
      · rw [if_neg taken]
        exact (declareFunctions_failsAt rest).mono (by simp)

/-- The functions of a program are made known, or one of their places is wrong, or there is no
function to start with. -/
theorem globalEnv_fails {p : Program} {e : TypeError} (failed : globalEnv p = .error e) :
    e.cause.kind = .missingMain ∨ ∃ f ∈ p.functions, e.pos ∈ f.places := by
  unfold globalEnv at failed
  cases declared : declareFunctions initial p.functions with
  | error e' =>
    rw [declared] at failed
    cases failed
    exact .inr (List.mem_flatMap.1 (declareFunctions_failsAt p.functions e declared))
  | ok env =>
    rw [declared] at failed
    dsimp only [bind, Except.bind] at failed
    split at failed
    · cases failed
      exact .inl rfl
    · cases failed

end Typing

/-- Why a program is refused: there is no function to start with, or else an error at a place
of one of its functions; that function is the one that is named, if one is, and no other
function has its name. -/
theorem Program.check_refused {p : Program} {r : Typing.Refusal} (refused : p.check.2 = some r) :
    ∃ e, r.stop = .error e ∧ (e.cause.kind = .missingMain ∨ ∃ f ∈ p.functions, e.pos ∈ f.places ∧
      ∀ name, r.function = some name → name = f.name ∧ (p.functions.map FuncDef.name).Nodup) := by
  unfold check at refused
  cases global : Typing.globalEnv p with
  | error e =>
    simp only [global, Option.some.injEq] at refused
    subst refused
    refine ⟨e, rfl, (Typing.globalEnv_fails global).imp_right ?_⟩
    rintro ⟨f, member, inside⟩
    exact ⟨f, member, inside, fun name named => by cases named⟩
  | ok env =>
    simp only [global] at refused
    obtain ⟨params, distinct, -, -, rfl⟩ := Typing.globalEnv_ok.1 global
    obtain ⟨f, member, named, e, error, inside⟩ := Typing.checkFunctions_refused p.functions rfl
      (fun f member => Typing.signatures_lookup distinct member) params refused
    refine ⟨e, error, .inr ⟨f, member, inside, fun name named' => ⟨?_, distinct⟩⟩⟩
    exact Option.some.inj (named'.symm.trans named)

/-! ## Programs that were read -/

theorem Typing.Refusal.message_eq {r : Typing.Refusal} {e : TypeError} (error : r.stop = .error e)
    (line : 1 ≤ e.pos.line) :
    r.message = r.function.elim ([] : Text) (fun name => ("in function " ++ name ++ ": " : Text)) ++
      ("line " ++ e.pos.text ++ ": " ++ e.cause.message : Text) := by
  have located : r.stop.message = ("line " ++ e.pos.text ++ ": " ++ e.cause.message : Text) := by
    rw [error, Stop.message, TypeError.message, Pos.locate, if_neg (by omega)]
  unfold message
  rw [located]
  cases r.function with
  | none => rfl
  | some name => rfl

open Grammar in
/-- Type errors point into the source. A program that was read is refused for an error, and
unless a function `main` is missing, the error has the place of a token of the source and
names it in its message. Where the message names a function, there is one function of that
name, and the token is one of its tokens. -/
theorem type_errors_point_into_the_source {src : Text} {p : Program} {r : Typing.Refusal}
    (parsed : Program.parse src = .ok p) (refused : p.check.2 = some r) :
    ∃ ts d e, Reading src ts d p ∧ r.stop = .error e ∧ (e.cause.kind ≠ .missingMain →
      ∃ t ∈ ts, t.pos = e.pos ∧ 1 ≤ e.pos.line ∧
        r.message =
          r.function.elim ([] : Text) (fun name => ("in function " ++ name ++ ": " : Text)) ++
          ("line " ++ e.pos.text ++ ": " ++ e.cause.message : Text) ∧
        ∀ name, r.function = some name → ∃ before f after, d = before ++ f :: after ∧
          f.name.value = name ∧ (∀ g ∈ before ++ after, g.name.value ≠ name) ∧
            t ∈ FunctionPhrase.yield f) := by
  obtain ⟨ts, d, reading⟩ := Program.parse_reading parsed
  obtain ⟨e, error, why⟩ := Program.check_refused refused
  refine ⟨ts, d, e, reading, error, fun other => ?_⟩
  obtain ⟨f, member, inside, named⟩ := why.resolve_left other
  obtain ⟨g, known, rfl, t, part, whole, place⟩ := reading.token_at member inside
  have line : 1 ≤ e.pos.line := place ▸ reading.one_le_line whole
  refine ⟨t, reading.mem_tokens whole, place, line, Typing.Refusal.message_eq error line, ?_⟩
  intro name found
  obtain ⟨rfl, distinct⟩ := named name found
  obtain ⟨before, after, rfl⟩ := List.append_of_mem known
  refine ⟨before, g, after, rfl, rfl, ?_, part⟩
  rw [← reading.tree, ProgramPhrase.tree, List.map_map] at distinct
  have apart := List.nodup_cons.1 ((List.perm_middle.map _).nodup_iff.1 distinct)
  intro h others same
  exact apart.1 (List.mem_map.2 ⟨h, others, same⟩)

/-- A call with one argument too many, in the second of two functions. -/
def extraArgumentText : Text :=
  "int half(int n)\x7breturn n/2;\x7d\nint main()\x7bint n=half(8);\nreturn half(n,1);\x7d"

theorem extraArgument_is_located : ∃ p r, Program.parse extraArgumentText = .ok p ∧
    p.check.2 = some r ∧
    r.message = "in function main: line 3:8: function half expects 1 arguments, got 2" ∧
    ∃ ts d t, Reading extraArgumentText ts d p ∧ t ∈ ts ∧ t.pos = ⟨3, 8⟩ ∧
      ∃ f ∈ d, f.name.value = "main" ∧ t ∈ f.yield := by
  have facts : (Program.parse extraArgumentText).toOption.bind (fun p => p.check.2.map fun r =>
      (r.function, r.stop)) =
      some (some ("main" : Text), Stop.error ⟨.arity "half" 1 2, ⟨3, 8⟩⟩) := by
    decide +kernel
  cases parsed : Program.parse extraArgumentText with
  | error e => simp [parsed, Except.toOption] at facts
  | ok p =>
    simp only [parsed, Except.toOption, Option.bind_some, Option.map_eq_some_iff] at facts
    obtain ⟨⟨function, stop⟩, refused, same⟩ := facts
    cases same
    obtain ⟨ts, d, e, reading, error, points⟩ :=
      type_errors_point_into_the_source parsed refused
    cases error
    obtain ⟨t, token, place, -, -, inside⟩ := points (by decide)
    obtain ⟨before, f, after, rfl, name, -, part⟩ := inside "main" rfl
    exact ⟨p, _, rfl, refused, by decide, ts, _, t, reading, token, place, f, by simp, name, part⟩

end ImpCompiler
