import ImpCompiler.Proofs.Typing.Language

/-!
# Proofs.Tree.Types — the types that a tree names

The types that stand in a program: those of its parameters, results, declarations and
loop variables, and those of the arrays it constructs. Annotations do not count.
-/

namespace ImpCompiler

set_option autoImplicit false

namespace Ty

/-- An array with nothing in it that has a value. -/
def IsVoidArray (t : Ty) : Prop := t.base = .void ∧ t.isArray = true

instance (t : Ty) : Decidable t.IsVoidArray := inferInstanceAs (Decidable (_ ∧ _))

end Ty

namespace Expr

mutual

def types : Expr → List Ty
  | .int .. | .double .. | .bool .. | .string .. | .ident .. => []
  | .unary _ _ x | .length _ x _ | .typed x _ => x.types
  | .binary _ _ x y | .index _ x y => x.types ++ y.types
  | .call _ _ args => typesOfAll args
  | .new _ elem sizes => elem :: typesOfAll sizes

def typesOfAll : List Expr → List Ty
  | [] => []
  | e :: es => e.types ++ typesOfAll es

end

mutual

theorem types_erase : ∀ (e : Expr), e.erase.types = e.types
  | .int .. | .double .. | .bool .. | .string .. | .ident .. => rfl
  | .unary _ _ x | .length _ x _ | .typed x _ => by simp only [erase, types, types_erase x]
  | .binary _ _ x y | .index _ x y => by simp only [erase, types, types_erase x, types_erase y]
  | .call _ _ es | .new _ _ es => by simp only [erase, types, typesOfAll_eraseAll es]

theorem typesOfAll_eraseAll : ∀ (es : List Expr), typesOfAll (eraseAll es) = typesOfAll es
  | [] => rfl
  | e :: es => by simp only [eraseAll, typesOfAll, types_erase e, typesOfAll_eraseAll es]

end

end Expr

def DeclItem.types (item : DeclItem) : List Ty := (item.init.map Expr.types).getD []

theorem DeclItem.types_erase (item : DeclItem) : item.erase.types = item.types := by
  obtain ⟨p, name, init⟩ := item
  cases init with
  | none => rfl
  | some e => exact e.types_erase

namespace Stmt

mutual

def types : Stmt → List Ty
  | .block _ body => typesOfAll body
  | .decl _ t items => t :: items.flatMap DeclItem.types
  | .assign _ target value => target.types ++ value.types
  | .incr .. | .retVoid _ | .empty _ => []
  | .ifThen _ c yes => c.types ++ yes.types
  | .ifElse _ c yes no => c.types ++ (yes.types ++ no.types)
  | .while _ c body => c.types ++ body.types
  | .forEach _ elem _ array body => elem :: (array.types ++ body.types)
  | .ret _ value => value.types
  | .expr _ e => e.types

def typesOfAll : List Stmt → List Ty
  | [] => []
  | s :: ss => s.types ++ typesOfAll ss

end

mutual

theorem types_erase : ∀ (s : Stmt), s.erase.types = s.types
  | .block _ body => by simp only [erase, types, typesOfAll_eraseAll body]
  | .decl _ _ items => by
    simp only [erase, types, List.flatMap_map, DeclItem.types_erase]
  | .assign _ target value => by simp only [erase, types, Expr.types_erase]
  | .incr .. | .retVoid _ | .empty _ => rfl
  | .ifThen _ _ yes => by simp only [erase, types, Expr.types_erase, types_erase yes]
  | .ifElse _ _ yes no => by
    simp only [erase, types, Expr.types_erase, types_erase yes, types_erase no]
  | .while _ _ body => by simp only [erase, types, Expr.types_erase, types_erase body]
  | .forEach _ _ _ _ body => by simp only [erase, types, Expr.types_erase, types_erase body]
  | .ret _ value => by simp only [erase, types, Expr.types_erase]
  | .expr _ e => by simp only [erase, types, Expr.types_erase]

theorem typesOfAll_eraseAll : ∀ (ss : List Stmt), typesOfAll (eraseAll ss) = typesOfAll ss
  | [] => rfl
  | s :: ss => by simp only [eraseAll, typesOfAll, types_erase s, typesOfAll_eraseAll ss]

end

end Stmt

def FuncDef.types (f : FuncDef) : List Ty :=
  f.ret :: (f.params.map Param.type ++ Stmt.typesOfAll f.body)

theorem FuncDef.types_erase (f : FuncDef) : f.erase.types = f.types := by
  simp only [types, erase, Stmt.typesOfAll_eraseAll]

def Program.types (p : Program) : List Ty := p.functions.flatMap FuncDef.types

theorem Program.types_erase (p : Program) : p.erase.types = p.types := by
  simp only [types, erase, List.flatMap_map, FuncDef.types_erase]

end ImpCompiler
