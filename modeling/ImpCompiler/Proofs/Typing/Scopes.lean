import ImpCompiler.Proofs.Typing.Runs

/-!
# Proofs.Typing.Scopes — what a check does to the scopes

A check that ends well leaves the scopes as it found them, with the names that the statement itself
declares added to the innermost one. A check that stops leaves the scopes open that it had opened,
on top of those that were there (`Checked.Keeps`). Nothing else of an environment changes. The
type of an expression is asked for in the scope of its statement (`Asks`), and where there is none
the environment stays as it was then.
-/

namespace ImpCompiler

set_option autoImplicit false

/-- The names that a statement declares in the scope it stands in, in their order. -/
def Stmt.declared : Stmt → List (Text × Ty)
  | .decl _ t items => items.map fun item => (item.name, t)
  | _ => []

/-- Whether a statement consists of expressions only. -/
def Stmt.isPlain : Stmt → Bool
  | .assign .. | .incr .. | .ret .. | .retVoid .. | .expr .. | .empty .. => true
  | _ => false

/-- The environment with scopes on top of its own, the innermost first. -/
def Env.withScopes (env : Env) (Δs : List Scope) : Env := { env with scopes := Δs ++ env.scopes }

namespace Checked

variable {α β : Type}

/-- A check that started in the scope `Δ` on top of `env` and declares `names` there. -/
structure Keeps (r : Checked α) (env : Env) (Δ : Scope) (names : List (Text × Ty)) : Prop where
  done : r.stop = none → r.env = env.withScope (names.reverse ++ Δ)
  stopped : ∀ stop, r.stop = some stop → ∃ above added, added <+: names ∧
    r.env = env.withScopes (above ++ [added.reverse ++ Δ])

namespace Keeps

variable {r : Checked α} {env : Env} {Δ Δ' : Scope} {names : List (Text × Ty)}

theorem of_done (env : Env) (Δ : Scope) (tree : α) :
    (Checked.done (env.withScope Δ) tree).Keeps env Δ [] where
  done _ := rfl
  stopped _ stopped := by cases stopped

theorem of_stop (env : Env) (Δ : Scope) (tree : α) (stop : Stop) (names : List (Text × Ty)) :
    Keeps ⟨env.withScope Δ, tree, some stop⟩ env Δ names where
  done ended := by cases ended
  stopped _ _ := ⟨[], [], List.nil_prefix, rfl⟩

theorem map (keeps : r.Keeps env Δ names) (f : α → β) : (r.map f).Keeps env Δ names :=
  ⟨keeps.done, keeps.stopped⟩

/-- A scope of its own is closed, or stays open on top of the scope around it. -/
theorem leave (keeps : r.Keeps (env.withScope Δ) Δ' names) : r.leave.Keeps env Δ [] where
  done ended := by
    rw [leave_stop] at ended
    rw [leave_env r ended, keeps.done ended]
    rfl
  stopped stop stopped := by
    rw [leave_stop] at stopped
    obtain ⟨above, added, -, left⟩ := keeps.stopped stop stopped
    refine ⟨above ++ [added.reverse ++ Δ'], [], List.nil_prefix, ?_⟩
    rw [Checked.leave, stopped, left]
    simp [Env.withScopes, Env.withScope]

/-- The names that were declared before are among those of the whole. -/
theorem after (first : List (Text × Ty)) (keeps : r.Keeps env (first.reverse ++ Δ) names) :
    r.Keeps env Δ (first ++ names) where
  done ended := by rw [keeps.done ended, List.reverse_append, List.append_assoc]
  stopped stop stopped := by
    obtain ⟨above, added, goesOn, left⟩ := keeps.stopped stop stopped
    refine ⟨above, first ++ added, (List.prefix_append_right_inj first).2 goesOn, ?_⟩
    rw [left, List.reverse_append, List.append_assoc]

end Keeps

end Checked

namespace Typing

/-- Declarations open and close no scope. -/
theorem checkItems_keeps {t : Ty} : ∀ (items : List DeclItem) (env : Env) (Δ : Scope),
    (checkItems (env.withScope Δ) t items).Keeps env Δ (items.map fun item => (item.name, t))
  | [], env, Δ => .of_done env Δ []
  | item :: rest, env, Δ => by
    rw [checkItems]
    cases inferInit (env.withScope Δ) t item with
    | error e => exact .of_stop env Δ _ _ _
    | ok item' =>
      cases declared : (env.withScope Δ).declare item.name t item.pos with
      | error stop => exact .of_stop env Δ _ _ _
      | ok env' =>
        obtain ⟨-, rfl⟩ := Env.declare_ok.1 declared
        have others := checkItems_keeps (t := t) rest env ((item.name, t) :: Δ)
        exact (others.map (item' :: ·)).after [(item.name, t)]

mutual

/-- A statement leaves the scopes around it as they were, also where it stops. -/
theorem checkStmt_keeps : ∀ (s : Stmt) (env : Env) (Δ : Scope),
    (checkStmt (env.withScope Δ) s).Keeps env Δ s.declared
  | .block _ body, env, Δ => by
    rw [checkStmt]
    exact (checkStmts_keeps body (env.withScope Δ) []).leave.map _
  | .decl _ t items, env, Δ => by
    rw [checkStmt]
    split
    · exact .of_stop env Δ _ _ _
    · exact (checkItems_keeps items env Δ).map _
  | .assign p target value, env, Δ => by
    rw [checkStmt]
    cases inferAssignment (env.withScope Δ) p target value with
    | error e => exact .of_stop env Δ _ _ _
    | ok both => exact .of_done env Δ _
  | .incr p name _, env, Δ => by
    rw [checkStmt]
    cases checkCounter (env.withScope Δ) p name with
    | error e => exact .of_stop env Δ _ _ _
    | ok _ => exact .of_done env Δ _
  | .ifThen _ c yes, env, Δ => by
    rw [checkStmt]
    cases inferCondition (env.withScope Δ) c with
    | error e => exact .of_stop env Δ _ _ _
    | ok c' => exact (checkStmt_keeps yes (env.withScope Δ) []).leave.map _
  | .ifElse _ c yes no, env, Δ => by
    rw [checkStmt]
    cases inferCondition (env.withScope Δ) c with
    | error e => exact .of_stop env Δ _ _ _
    | ok c' =>
      have first := (checkStmt_keeps yes (env.withScope Δ) []).leave
      rw [← Env.enter_eq] at first
      dsimp only
      split
      · exact first.map _
      · -- the second branch is checked in the scopes that the first one was checked in
        rename_i ended
        rw [first.done ended]
        exact (checkStmt_keeps no (env.withScope Δ) []).leave.map _
  | .while _ c body, env, Δ => by
    rw [checkStmt]
    cases inferCondition (env.withScope Δ) c with
    | error e => exact .of_stop env Δ _ _ _
    | ok c' => exact (checkStmt_keeps body (env.withScope Δ) []).leave.map _
  | .forEach p elem name array body, env, Δ => by
    rw [checkStmt]
    cases inferIteration (env.withScope Δ) p elem name array with
    | error e => exact .of_stop env Δ _ _ _
    | ok array' =>
      have declared : (env.withScope Δ).enter.declare name elem p =
          .ok ((env.withScope Δ).withScope [(name, elem)]) :=
        Env.declare_ok.2 ⟨rfl, rfl⟩
      simp only [declared]
      have inner := checkStmt_keeps body ((env.withScope Δ).withScope [(name, elem)]) []
      exact inner.leave.leave.map _
  | .ret p value, env, Δ => by
    rw [checkStmt]
    cases inferReturn (env.withScope Δ) p value with
    | error e => exact .of_stop env Δ _ _ _
    | ok value' => exact .of_done env Δ _
  | .retVoid _, env, Δ => by
    rw [checkStmt]
    split
    · exact .of_done env Δ _
    · exact .of_stop env Δ _ _ _
  | .expr p e, env, Δ => by
    rw [checkStmt]
    cases inferEffect (env.withScope Δ) p e with
    | error err => exact .of_stop env Δ _ _ _
    | ok e' => exact .of_done env Δ _
  | .empty _, env, Δ => .of_done env Δ _

theorem checkStmts_keeps : ∀ (ss : List Stmt) (env : Env) (Δ : Scope),
    (checkStmts (env.withScope Δ) ss).Keeps env Δ (ss.flatMap Stmt.declared)
  | [], env, Δ => .of_done env Δ []
  | s :: rest, env, Δ => by
    have first := checkStmt_keeps s env Δ
    rw [checkStmts, List.flatMap_cons]
    split
    · rename_i stop stopped
      refine ⟨fun ended => ?_, fun stop' _ => ?_⟩
      · rw [Checked.map_stop, stopped] at ended
        cases ended
      · obtain ⟨above, added, goesOn, left⟩ := first.stopped stop stopped
        exact ⟨above, added, goesOn.trans (List.prefix_append _ _), left⟩
    · rename_i ended
      rw [first.done ended]
      exact ((checkStmts_keeps rest env _).map _).after s.declared

end

/-- What is declared is new in its scope. -/
theorem checkItems_new {t : Ty} : ∀ (items : List DeclItem) {env : Env} {Δ : Scope},
    (checkItems (env.withScope Δ) t items).stop = none →
      (items.map DeclItem.name).Nodup ∧ ∀ item ∈ items, Δ.lookup item.name = none
  | [], _, _, _ => by simp
  | item :: rest, env, Δ, ended => by
    rw [checkItems] at ended
    cases started : inferInit (env.withScope Δ) t item with
    | error e => simp [started, Checked.failed] at ended
    | ok item' =>
      simp only [started] at ended
      cases declared : (env.withScope Δ).declare item.name t item.pos with
      | error stop => simp [declared] at ended
      | ok env' =>
        simp only [declared] at ended
        obtain ⟨new, rfl⟩ := Env.declare_ok.1 declared
        obtain ⟨distinct, others⟩ := checkItems_new rest ended
        refine ⟨List.nodup_cons.2 ⟨fun again => ?_, distinct⟩,
          List.forall_mem_cons.2 ⟨new, fun later known => ?_⟩⟩
        · obtain ⟨later, known, same⟩ := List.mem_map.1 again
          have unseen := others later known
          rw [same, List.lookup_cons_self] at unseen
          cases unseen
        · have unseen := others later known
          rw [List.lookup_cons] at unseen
          split at unseen
          · cases unseen
          · exact unseen

/-- The names that a statement declares are new in its scope. -/
theorem declared_new {env : Env} {Δ : Scope} : ∀ (s : Stmt),
    (checkStmt (env.withScope Δ) s).stop = none →
      (s.declared.map Prod.fst).Nodup ∧ ∀ b ∈ s.declared, Δ.lookup b.1 = none
  | .decl _ t items, ended => by
    rw [checkStmt] at ended
    split at ended
    · cases ended
    · obtain ⟨distinct, new⟩ := checkItems_new items ended
      refine ⟨?_, List.forall_mem_map.2 new⟩
      rw [Stmt.declared, List.map_map]
      exact distinct
  | .block .., _ | .assign .., _ | .incr .., _ | .ifThen .., _ | .ifElse .., _ | .while .., _
  | .forEach .., _ | .ret .., _ | .retVoid .., _ | .expr .., _ | .empty .., _ => by
    simp [Stmt.declared]

/-- Inferring an expression declares nothing and opens no scope, whether or not it has a type. -/
theorem checkStmt_plain (env : Env) : ∀ s : Stmt, s.isPlain = true → (checkStmt env s).env = env
  | .assign p target value, _ => by
    rw [checkStmt]
    cases inferAssignment env p target value <;> rfl
  | .incr p name _, _ => by
    rw [checkStmt]
    cases checkCounter env p name <;> rfl
  | .ret p value, _ => by
    rw [checkStmt]
    cases inferReturn env p value <;> rfl
  | .retVoid _, _ => by
    rw [checkStmt]
    split <;> rfl
  | .expr p e, _ => by
    rw [checkStmt]
    cases inferEffect env p e <;> rfl
  | .empty _, _ => rfl

/-- The statement asks for the type of an expression, in the environment that what stands in
front of the expression leaves: a side of an assignment, a condition, the array of a loop, what
is returned or computed, or what a name starts with. -/
inductive Asks (env : Env) : Stmt → Env → Expr → Prop
  | target {p : Pos} {target value : Expr} (assignable : Assignable target) :
      Asks env (.assign p target value) env target
  | value {p : Pos} {target value target' : Expr} {t : Ty} (assignable : Assignable target)
      (known : infer env target = .ok (t, target')) : Asks env (.assign p target value) env value
  | ifThen {p : Pos} {c : Expr} {yes : Stmt} : Asks env (.ifThen p c yes) env c
  | ifElse {p : Pos} {c : Expr} {yes no : Stmt} : Asks env (.ifElse p c yes no) env c
  | while {p : Pos} {c : Expr} {body : Stmt} : Asks env (.while p c body) env c
  | array {p : Pos} {elem : Ty} {name : Text} {array : Expr} {body : Stmt} :
      Asks env (.forEach p elem name array body) env array
  | ret {p : Pos} {value : Expr} (some : env.currentType.ret ≠ Ty.void) :
      Asks env (.ret p value) env value
  | effect {p : Pos} {e : Expr} : Asks env (.expr p e) env e
  | init {p : Pos} {t : Ty} {before rest : List DeclItem} {item : DeclItem} {e : Expr}
      (some : t ≠ Ty.void) (passed : (checkItems env t before).stop = none)
      (starts : item.init = .some e) :
      Asks env (.decl p t (before ++ item :: rest)) (checkItems env t before).env e

/-- Declarations are checked one after the other. -/
theorem checkItems_append {t : Ty} {rest : List DeclItem} : ∀ (before : List DeclItem) {env : Env},
    (checkItems env t before).stop = none →
      (checkItems env t (before ++ rest)).stop =
          (checkItems (checkItems env t before).env t rest).stop ∧
        (checkItems env t (before ++ rest)).env =
          (checkItems (checkItems env t before).env t rest).env
  | [], _, _ => ⟨rfl, rfl⟩
  | item :: before, env, ended => by
    rw [checkItems] at ended
    rw [List.cons_append, checkItems, checkItems]
    cases started : inferInit env t item with
    | error e => simp [started, Checked.failed] at ended
    | ok item' =>
      cases declared : env.declare item.name t item.pos with
      | error stop => simp [started, declared] at ended
      | ok env' =>
        simp only [started, declared, Checked.map_stop] at ended
        exact checkItems_append before ended

/-- Where the type of an expression is asked for and it has none, the check stops and leaves the
environment in which it was asked. -/
theorem Asks.stops {env env' : Env} {s : Stmt} {e : Expr} {err : TypeError} (asks : Asks env s env' e)
    (refused : infer env' e = .error err) :
    (checkStmt env s).stop = some (.error err) ∧ (checkStmt env s).env = env' := by
  have bind : ∀ {α : Type} (k : Ty × Expr → Except TypeError α), (infer env' e >>= k) = .error err := by
    intro α k
    rw [refused]
    rfl
  cases asks with
  | @target p _ value assignable =>
    have failed : inferAssignment env p e value = .error err := by
      rcases assignable with ⟨_, _, same⟩ | ⟨_, _, _, same⟩ <;>
        · rw [inferAssignment, same]
          exact bind _
    rw [checkStmt, failed]
    exact ⟨rfl, rfl⟩
  | @value p target _ target' t assignable known =>
    have failed : inferAssignment env p target e = .error err := by
      rcases assignable with ⟨_, _, same⟩ | ⟨_, _, _, same⟩ <;>
        · rw [inferAssignment, same, known]
          exact bind _
    rw [checkStmt, failed]
    exact ⟨rfl, rfl⟩
  | ifThen | ifElse | «while» =>
    rw [checkStmt, inferCondition, bind]
    exact ⟨rfl, rfl⟩
  | array =>
    rw [checkStmt, inferIteration, bind]
    exact ⟨rfl, rfl⟩
  | @ret p _ some =>
    have failed : inferReturn env p e = .error err := by
      simp only [inferReturn, if_neg some]
      exact bind _
    rw [checkStmt, failed]
    exact ⟨rfl, rfl⟩
  | effect =>
    rw [checkStmt, inferEffect, bind]
    exact ⟨rfl, rfl⟩
  | @init p t before rest item _ some passed starts =>
    have failed : inferInit (checkItems env t before).env t item = .error err := by
      simp only [inferInit, starts]
      exact bind _
    have here : checkItems (checkItems env t before).env t (item :: rest) =
        .failed (checkItems env t before).env (item :: rest) err := by
      rw [checkItems, failed]
    obtain ⟨stop, left⟩ := @checkItems_append t (item :: rest) before env passed
    rw [checkStmt, if_neg some]
    exact ⟨stop.trans (by rw [here]; rfl), left.trans (by rw [here]; rfl)⟩

/-- The type of an expression is asked for in the scopes of the statement, with the names that
the statement declares in front of the expression. -/
theorem Asks.scopes {env env' : Env} {Δ : Scope} {s : Stmt} {e : Expr}
    (asks : Asks (env.withScope Δ) s env' e) :
    ∃ added, added <+: s.declared ∧ env' = env.withScope (added.reverse ++ Δ) := by
  cases asks with
  | @init p t before rest item _ some passed starts =>
    refine ⟨before.map fun item => (item.name, t), ?_, (checkItems_keeps before env Δ).done passed⟩
    simp [Stmt.declared]
  | _ => exact ⟨[], List.nil_prefix, rfl⟩

/-- Checking a statement keeps the shape of the environment. If it ends well, the innermost scope
has the names that the statement itself declares, which were not there before, and nothing else
has changed. If it stops, the scopes that were there are still at the bottom, and of these at
most the innermost has grown, by the first few of those names. Expressions change nothing: the
type of one is asked for in the scopes of the statement, with the names that the statement
declares in front of it, and if it has none that is the environment which is left. -/
theorem checking_keeps_the_shape_of_scopes {env : Env} {Δ : Scope} {outer : List Scope}
    (scopes : env.scopes = Δ :: outer) (s : Stmt) :
    ((checkStmt env s).stop = none →
      (checkStmt env s).env = { env with scopes := (s.declared.reverse ++ Δ) :: outer } ∧
      (s.declared.map Prod.fst).Nodup ∧ ∀ b ∈ s.declared, Δ.lookup b.1 = none) ∧
    (∀ stop, (checkStmt env s).stop = some stop → ∃ above added, added <+: s.declared ∧
      (checkStmt env s).env =
        { env with scopes := above ++ (added.reverse ++ Δ) :: outer }) ∧
    (s.isPlain = true → (checkStmt env s).env = env) ∧
    ∀ env' e, Asks env s env' e →
      (∃ added, added <+: s.declared ∧ env' = { env with scopes := (added.reverse ++ Δ) :: outer }) ∧
      ∀ err, infer env' e = .error err →
        (checkStmt env s).stop = some (.error err) ∧ (checkStmt env s).env = env' := by
  have same : env = Env.withScope { env with scopes := outer } Δ := by rw [Env.withScope, ← scopes]
  have keeps := checkStmt_keeps s { env with scopes := outer } Δ
  rw [← same] at keeps
  refine ⟨fun ended => ⟨keeps.done ended, declared_new s (same ▸ ended)⟩, fun stop stopped => ?_,
    checkStmt_plain env s, fun env' e asks => ⟨?_, fun err => asks.stops⟩⟩
  · obtain ⟨above, added, goesOn, left⟩ := keeps.stopped stop stopped
    refine ⟨above, added, goesOn, left.trans ?_⟩
    simp [Env.withScopes]
  · rw [same] at asks
    exact asks.scopes

/-- A loop over `xs` that stops in its body at the second of three names. -/
def stoppingLoop : Stmt :=
  .forEach ⟨1, 0⟩ Ty.int "x" (.ident ⟨1, 8⟩ "xs")
    (.decl ⟨2, 0⟩ Ty.int
      [⟨⟨2, 4⟩, "y", some (.ident ⟨2, 8⟩ "x")⟩, ⟨⟨2, 11⟩, "y", none⟩, ⟨⟨2, 14⟩, "z", none⟩])

/-- A declaration of two names, of which the second starts with a name that is not known. -/
def stoppingNames : Stmt :=
  .decl ⟨1, 0⟩ Ty.int [⟨⟨1, 4⟩, "y", none⟩, ⟨⟨1, 7⟩, "z", some (.ident ⟨1, 11⟩ "w")⟩]

def loopEnv : Env := ⟨[[("xs", Ty.int.arrayOf 1)], []], [], "main", ⟨[], Ty.int⟩⟩

theorem stoppingLoop_leaves_its_scopes :
    ((checkStmt loopEnv stoppingLoop).stop = some (.error ⟨.duplicateVariable "y", ⟨2, 11⟩⟩) ∧
      ∃ above, (checkStmt loopEnv stoppingLoop).env =
        { loopEnv with scopes := above ++ loopEnv.scopes }) ∧
    (checkStmt loopEnv stoppingNames).stop = some (.error ⟨.undeclaredVariable "w", ⟨1, 11⟩⟩) ∧
      (checkStmt loopEnv stoppingNames).env =
        { loopEnv with scopes := [("y", Ty.int), ("xs", Ty.int.arrayOf 1)] :: [[]] } := by
  have stopped : (checkStmt loopEnv stoppingLoop).stop =
      some (.error ⟨.duplicateVariable "y", ⟨2, 11⟩⟩) := by
    decide +kernel
  obtain ⟨above, added, goesOn, left⟩ :=
    (checking_keeps_the_shape_of_scopes rfl stoppingLoop).2.1 _ stopped
  rw [List.prefix_nil.1 goesOn] at left
  have asks : Asks loopEnv stoppingNames
      { loopEnv with scopes := [("y", Ty.int), ("xs", Ty.int.arrayOf 1)] :: [[]] }
      (.ident ⟨1, 11⟩ "w") :=
    @Asks.init loopEnv ⟨1, 0⟩ Ty.int [⟨⟨1, 4⟩, "y", none⟩] [] _ _ (by decide) (by decide +kernel) rfl
  exact ⟨⟨stopped, above, left⟩,
    ((checking_keeps_the_shape_of_scopes rfl stoppingNames).2.2.2 _ _ asks).2 _ rfl⟩

end Typing

end ImpCompiler
