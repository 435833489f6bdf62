import ImpCompiler.Proofs.Tree.Fold

/-!
# Proofs.Tree.Expressions — the expressions of a statement

The expressions of a statement from left to right, those of the statements inside of it in their
places. Folding puts another expression in the place of each of them and leaves everything else of
a statement as it is (`Fold.stmt_eq`), so what is true of the expressions of a folded tree is told
from the expressions one by one.
-/

namespace ImpCompiler

set_option autoImplicit false

open Typing

def DeclItem.mapExprs (g : Expr → Expr) (item : DeclItem) : DeclItem :=
  { item with init := item.init.map g }

namespace Stmt

mutual

def expressions : Stmt → List Expr
  | .block _ body => expressionsOfAll body
  | .decl _ _ items => items.filterMap DeclItem.init
  | .assign _ target value => [target, value]
  | .ifThen _ c yes => c :: yes.expressions
  | .ifElse _ c yes no => c :: (yes.expressions ++ no.expressions)
  | .while _ c body => c :: body.expressions
  | .forEach _ _ _ array body => array :: body.expressions
  | .ret _ e | .expr _ e => [e]
  | .incr .. | .retVoid _ | .empty _ => []

def expressionsOfAll : List Stmt → List Expr
  | [] => []
  | s :: ss => s.expressions ++ expressionsOfAll ss

end

mutual

/-- The statement with other expressions in the places of its own. -/
def mapExprs (g : Expr → Expr) : Stmt → Stmt
  | .block p body => .block p (mapAll g body)
  | .decl p t items => .decl p t (items.map (DeclItem.mapExprs g))
  | .assign p target value => .assign p (g target) (g value)
  | .incr p name decrement => .incr p name decrement
  | .ifThen p c yes => .ifThen p (g c) (yes.mapExprs g)
  | .ifElse p c yes no => .ifElse p (g c) (yes.mapExprs g) (no.mapExprs g)
  | .while p c body => .while p (g c) (body.mapExprs g)
  | .forEach p elem name array body => .forEach p elem name (g array) (body.mapExprs g)
  | .ret p e => .ret p (g e)
  | .retVoid p => .retVoid p
  | .expr p e => .expr p (g e)
  | .empty p => .empty p

def mapAll (g : Expr → Expr) : List Stmt → List Stmt
  | [] => []
  | s :: ss => s.mapExprs g :: mapAll g ss

end

variable {g : Expr → Expr}

mutual

/-- Mapping the expressions maps their list. -/
theorem expressions_mapExprs : ∀ (s : Stmt), (s.mapExprs g).expressions = s.expressions.map g
  | .block _ body => by rw [mapExprs, expressions, expressions, expressionsOfAll_mapAll body]
  | .decl _ _ items => by
    simp only [mapExprs, expressions, List.filterMap_map, List.map_filterMap]
    rfl
  | .assign .. | .ret .. | .expr .. | .incr .. | .retVoid _ | .empty _ => by
    simp only [mapExprs, expressions, List.map_cons, List.map_nil]
  | .ifThen _ _ yes => by simp only [mapExprs, expressions, List.map_cons, expressions_mapExprs yes]
  | .ifElse _ _ yes no => by
    simp only [mapExprs, expressions, List.map_cons, List.map_append, expressions_mapExprs yes,
      expressions_mapExprs no]
  | .while _ _ body | .forEach _ _ _ _ body => by
    simp only [mapExprs, expressions, List.map_cons, expressions_mapExprs body]

theorem expressionsOfAll_mapAll : ∀ (ss : List Stmt),
    expressionsOfAll (mapAll g ss) = (expressionsOfAll ss).map g
  | [] => by simp only [mapAll, expressionsOfAll, List.map_nil]
  | s :: ss => by
    simp only [mapAll, expressionsOfAll, List.map_append, expressions_mapExprs s,
      expressionsOfAll_mapAll ss]

end

mutual

/-- Other expressions do not change where a statement returns. -/
theorem returns_mapExprs : ∀ (s : Stmt), (s.mapExprs g).returns = s.returns
  | .block _ body => by rw [mapExprs, returns, returns, anyReturns_mapAll body]
  | .ifElse _ _ yes no => by
    rw [mapExprs, returns, returns, returns_mapExprs yes, returns_mapExprs no]
  | .decl .. | .assign .. | .incr .. | .ifThen .. | .while .. | .forEach .. | .ret .. | .retVoid ..
  | .expr .. | .empty .. => rfl

theorem anyReturns_mapAll : ∀ (ss : List Stmt), anyReturns (mapAll g ss) = anyReturns ss
  | [] => rfl
  | s :: ss => by rw [mapAll, anyReturns, anyReturns, returns_mapExprs s, anyReturns_mapAll ss]

end

mutual

theorem mapExprs_eq_self : ∀ (s : Stmt), (∀ e ∈ s.expressions, g e = e) → s.mapExprs g = s
  | .block _ body, same => by rw [mapExprs, mapAll_eq_self body same]
  | .decl p t items, same => by
    have each : ∀ item ∈ items, item.mapExprs g = item := by
      intro item member
      cases init : item.init with
      | none => rw [DeclItem.mapExprs, init, Option.map_none, ← init]
      | some e =>
        have here := same e (List.mem_filterMap.2 ⟨item, member, init⟩)
        rw [DeclItem.mapExprs, init, Option.map_some, here, ← init]
    rw [mapExprs, List.map_congr_left each, List.map_id']
  | .assign .., same | .ret .., same | .expr .., same | .incr .., same | .retVoid _, same
  | .empty _, same => by simp_all [mapExprs, expressions]
  | .ifThen _ _ yes, same => by
    obtain ⟨cond, inner⟩ := List.forall_mem_cons.1 same
    rw [mapExprs, cond, mapExprs_eq_self yes inner]
  | .ifElse _ _ yes no, same => by
    obtain ⟨cond, inner⟩ := List.forall_mem_cons.1 same
    obtain ⟨first, second⟩ := List.forall_mem_append.1 inner
    rw [mapExprs, cond, mapExprs_eq_self yes first, mapExprs_eq_self no second]
  | .while _ _ body, same | .forEach _ _ _ _ body, same => by
    obtain ⟨head, inner⟩ := List.forall_mem_cons.1 same
    rw [mapExprs, head, mapExprs_eq_self body inner]

theorem mapAll_eq_self : ∀ (ss : List Stmt), (∀ e ∈ expressionsOfAll ss, g e = e) →
    mapAll g ss = ss
  | [], _ => rfl
  | s :: ss, same => by
    obtain ⟨first, others⟩ := List.forall_mem_append.1 same
    rw [mapAll, mapExprs_eq_self s first, mapAll_eq_self ss others]

end

end Stmt

def FuncDef.expressions (f : FuncDef) : List Expr := Stmt.expressionsOfAll f.body

def FuncDef.mapExprs (g : Expr → Expr) (f : FuncDef) : FuncDef :=
  { f with body := Stmt.mapAll g f.body }

theorem FuncDef.expressions_mapExprs (g : Expr → Expr) (f : FuncDef) :
    (f.mapExprs g).expressions = f.expressions.map g :=
  Stmt.expressionsOfAll_mapAll f.body

theorem FuncDef.mapExprs_eq_self {g : Expr → Expr} {f : FuncDef}
    (same : ∀ e ∈ f.expressions, g e = e) : f.mapExprs g = f := by
  rw [mapExprs, Stmt.mapAll_eq_self f.body same]

/-! ## Typing -/

namespace Typing

variable {σ : Signatures} {ret : Ty}

mutual

/-- The expressions of a statement are typed, each with the variables in scope at it. -/
theorem Fits.expressions {Γ Γ' : Context} {s : Stmt} (fits : Fits σ ret Γ s Γ') :
    ∀ e ∈ s.expressions, ∃ Γ₁ t, HasType σ Γ₁ e t := by
  match fits with
  | .block inner => exact inner.expressions
  | .decl _ declares =>
    intro e member
    obtain ⟨Γ₁, typed⟩ := declares.heads e member
    exact ⟨Γ₁, _, typed⟩
  | .assign _ left right => simpa [Stmt.expressions] using ⟨⟨Γ, _, left⟩, Γ, _, right⟩
  | .ifThen cond inner | .while cond inner =>
    exact List.forall_mem_cons.2 ⟨⟨Γ, _, cond⟩, inner.expressions⟩
  | .ifElse cond inner inner' =>
    exact List.forall_mem_cons.2 ⟨⟨Γ, _, cond⟩,
      List.forall_mem_append.2 ⟨inner.expressions, inner'.expressions⟩⟩
  | .forEach whole _ inner => exact List.forall_mem_cons.2 ⟨⟨Γ, _, whole⟩, inner.expressions⟩
  | .ret _ typed | .expr typed => simpa [Stmt.expressions] using ⟨Γ, _, typed⟩
  | .incr _ | .retVoid _ | .empty => simp [Stmt.expressions]

theorem FitsAll.expressions {Γ Γ' : Context} {ss : List Stmt} (fits : FitsAll σ ret Γ ss Γ') :
    ∀ e ∈ Stmt.expressionsOfAll ss, ∃ Γ₁ t, HasType σ Γ₁ e t := by
  match fits with
  | .nil => simp [Stmt.expressionsOfAll]
  | .cons first others =>
    exact List.forall_mem_append.2 ⟨first.expressions, others.expressions⟩

end

section Maps

variable {J K : Context → Expr → Ty → Prop} {g : Expr → Expr}

theorem Introduces.mapExprs (typed : ∀ Γ e t, J Γ e t → K Γ (g e) t) {t : Ty} {Γ : Context}
    {Δ Δ' : Scope} {items : List DeclItem} (introduces : Introduces J t Γ Δ items Δ') :
    Introduces K t Γ Δ (items.map (DeclItem.mapExprs g)) Δ' := by
  induction introduces with
  | nil => exact .nil
  | cons start new _ ih =>
    refine .cons (fun e init => ?_) new ih
    obtain ⟨x, known, rfl⟩ := Option.map_eq_some_iff.1 init
    exact typed _ _ _ (start x known)

mutual

/-- A statement is still admitted with expressions that have the types of its own. -/
theorem Admits.mapExprs (typed : ∀ Γ e t, J Γ e t → K Γ (g e) t)
    (assigned : ∀ Γ e t, J Γ e t → Assignable e → Assignable (g e)) {Γ : Context} {Δ Δ' : Scope}
    {s : Stmt} (admits : Admits J ret Γ Δ s Δ') : Admits K ret Γ Δ (s.mapExprs g) Δ' := by
  match admits with
  | .block inner => exact .block (inner.mapAll typed assigned)
  | .decl value introduces => exact .decl value (introduces.mapExprs typed)
  | .assign assignable left right =>
    exact .assign (assigned _ _ _ left assignable) (typed _ _ _ left) (typed _ _ _ right)
  | .incr known => exact .incr known
  | .ifThen cond inner => exact .ifThen (typed _ _ _ cond) (inner.mapExprs typed assigned)
  | .ifElse cond inner inner' =>
    exact .ifElse (typed _ _ _ cond) (inner.mapExprs typed assigned)
      (inner'.mapExprs typed assigned)
  | .while cond inner => exact .while (typed _ _ _ cond) (inner.mapExprs typed assigned)
  | .forEach whole elems inner =>
    exact .forEach (typed _ _ _ whole) elems (inner.mapExprs typed assigned)
  | .ret value answer => exact .ret value (typed _ _ _ answer)
  | .retVoid void => exact .retVoid void
  | .expr effect => exact .expr (typed _ _ _ effect)
  | .empty => exact .empty

theorem AdmitsAll.mapAll (typed : ∀ Γ e t, J Γ e t → K Γ (g e) t)
    (assigned : ∀ Γ e t, J Γ e t → Assignable e → Assignable (g e)) {Γ : Context} {Δ Δ' : Scope}
    {ss : List Stmt} (admits : AdmitsAll J ret Γ Δ ss Δ') :
    AdmitsAll K ret Γ Δ (Stmt.mapAll g ss) Δ' := by
  match admits with
  | .nil => exact .nil
  | .cons first others => exact .cons (first.mapExprs typed assigned) (others.mapAll typed assigned)

end

/-- A map that keeps types keeps programs well typed. -/
theorem AdmitsProgram.mapExprs (typed : ∀ Γ e t, J Γ e t → K Γ (g e) t)
    (assigned : ∀ Γ e t, J Γ e t → Assignable e → Assignable (g e)) {p : Program}
    (admits : AdmitsProgram J p) : AdmitsProgram K ⟨p.functions.map (FuncDef.mapExprs g)⟩ := by
  obtain ⟨names, own, ⟨f, member, main⟩, functions⟩ := admits
  refine ⟨?_, ?_, ⟨f.mapExprs g, List.mem_map_of_mem member, main⟩, ?_⟩
  · rw [List.map_map]
    exact names
  · intro f member
    obtain ⟨h, known, rfl⟩ := List.mem_map.1 member
    exact own h known
  · intro f member
    obtain ⟨h, known, rfl⟩ := List.mem_map.1 member
    obtain ⟨params, distinct, ⟨Δ, all⟩, returns⟩ := functions h known
    refine ⟨params, distinct, ⟨Δ, all.mapAll typed assigned⟩, fun value => ?_⟩
    have still := (anyReturns_iff _).2 (returns value)
    rw [← Stmt.anyReturns_mapAll (g := g)] at still
    exact (anyReturns_iff _).1 still

end Maps

end Typing

/-! ## Folding -/

namespace Fold

def folded (e : Expr) : Expr := (expr e).tree

theorem expr_eq {e : Expr} (through : (expr e).stop = none) : expr e = ⟨folded e, none⟩ := by
  rw [folded, ← through]

theorem items_eq : ∀ (is : List DeclItem),
    (∀ e ∈ is.filterMap DeclItem.init, (expr e).stop = none) →
      items is = ⟨is.map (DeclItem.mapExprs folded), none⟩
  | [], _ => rfl
  | item :: rest, through => by
    obtain ⟨p, name, init⟩ := item
    cases init with
    | none =>
      rw [items, items_eq rest through]
      rfl
    | some e =>
      obtain ⟨first, others⟩ := List.forall_mem_cons.1 through
      simp only [items, expr_eq first, items_eq rest others]
      rfl

mutual

/-- Folding puts other expressions in the places of those of a statement. -/
theorem stmt_eq : ∀ (s : Stmt), (∀ e ∈ s.expressions, (expr e).stop = none) →
    stmt s = ⟨s.mapExprs folded, none⟩
  | .block _ body, through => by
    rw [stmt, stmts_eq body through]
    rfl
  | .decl _ _ is, through => by
    rw [stmt, items_eq is through]
    rfl
  | .assign _ target value, through => by
    obtain ⟨first, others⟩ := List.forall_mem_cons.1 through
    rw [stmt, expr_eq first, expr_eq (others value (by simp))]
    rfl
  | .ret _ e, through | .expr _ e, through => by
    rw [stmt, expr_eq (through e (by simp [Stmt.expressions]))]
    rfl
  | .incr .., _ | .retVoid _, _ | .empty _, _ => by rw [stmt, Stmt.mapExprs]
  | .ifThen _ _ yes, through => by
    obtain ⟨cond, inner⟩ := List.forall_mem_cons.1 through
    rw [stmt, expr_eq cond, stmt_eq yes inner]
    rfl
  | .ifElse _ _ yes no, through => by
    obtain ⟨cond, inner⟩ := List.forall_mem_cons.1 through
    obtain ⟨first, second⟩ := List.forall_mem_append.1 inner
    rw [stmt, expr_eq cond, stmt_eq yes first, stmt_eq no second]
    rfl
  | .while _ _ body, through | .forEach _ _ _ _ body, through => by
    obtain ⟨head, inner⟩ := List.forall_mem_cons.1 through
    rw [stmt, expr_eq head, stmt_eq body inner]
    rfl

theorem stmts_eq : ∀ (ss : List Stmt), (∀ e ∈ Stmt.expressionsOfAll ss, (expr e).stop = none) →
    stmts ss = ⟨Stmt.mapAll folded ss, none⟩
  | [], _ => rfl
  | s :: ss, through => by
    obtain ⟨first, others⟩ := List.forall_mem_append.1 through
    rw [stmts, stmt_eq s first, stmts_eq ss others]
    rfl

end

end Fold

/-- Folding puts other expressions in the places of those of a program. -/
theorem Program.fold_eq_map {p : Program}
    (through : ∀ f ∈ p.functions, ∀ e ∈ f.expressions, (Fold.expr e).stop = none) (threads : Int) :
    p.fold threads = ⟨⟨p.functions.map (FuncDef.mapExprs Fold.folded)⟩, none⟩ := by
  have each : ∀ f ∈ p.functions, Fold.function f = ⟨f.mapExprs Fold.folded, none⟩ := by
    intro f member
    rw [Fold.function, Fold.stmts_eq f.body (through f member)]
    rfl
  rw [Program.fold, Jobs.run_eq threads fun f member => by rw [each f member]]
  simp only [Folded.mk.injEq, Program.mk.injEq, and_true]
  exact List.map_congr_left fun f member => by rw [each f member]

end ImpCompiler
