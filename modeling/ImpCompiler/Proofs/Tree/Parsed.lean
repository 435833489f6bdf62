import ImpCompiler.Proofs.Tree.Places
import ImpCompiler.Proofs.Tree.Types

/-!
# Proofs.Tree.Parsed — the types in a program that was read

Every type in a program that was read comes from a keyword, so none of them is `error`. The
program is derived from its tokens, and a derivation has types in it only where it has a
`TypePhrase`.
-/

namespace ImpCompiler

set_option autoImplicit false

namespace Grammar

def AllNamed (ts : List Ty) : Prop := ∀ t ∈ ts, t.base ≠ .error

namespace AllNamed

variable {ts us : List Ty}

theorem nil : AllNamed [] := nofun

theorem cons {t : Ty} (first : t.base ≠ .error) (rest : AllNamed ts) : AllNamed (t :: ts) :=
  List.forall_mem_cons.2 ⟨first, rest⟩

theorem append (first : AllNamed ts) (second : AllNamed us) : AllNamed (ts ++ us) :=
  List.forall_mem_append.2 ⟨first, second⟩

theorem flatMap {α : Type} {xs : List α} {types : α → List Ty} (each : ∀ x ∈ xs, AllNamed (types x)) :
    AllNamed (xs.flatMap types) := by
  intro t member
  obtain ⟨x, there, inside⟩ := List.mem_flatMap.1 member
  exact each x there t inside

end AllNamed

theorem TypePhrase.named (t : TypePhrase) : t.tree.base ≠ .error := by
  obtain ⟨word, base, names, pairs⟩ := t
  show base ≠ .error
  generalize word.kind = kind at names
  cases names <;> decide

/-- The types in what a symbol stands for are named; those in what it makes of an expression
are, if those in the expression are. -/
def Sym.Named : (s : Sym) → s.Tree → Prop
  | .level _, e | .operand, e | .primary, e => AllNamed (Expr.types e)
  | .links _ _, f | .suffixes _, f => ∀ x : Expr, AllNamed x.types → AllNamed (Expr.types (f x))
  | .args, es | .moreArgs, es | .sizes, es => AllNamed (Expr.typesOfAll es)

/-- The trees of phrases have no type that stands for an error. -/
theorem Phrase.named {s : Sym} (d : Phrase s) : s.Named d.tree := by
  induction d with
  | chain x more ihx ihmore | operand x more ihx ihmore => exact ihmore _ ihx
  | noLinks | noSuffix => exact fun x known => known
  | @link l t op _ y more ihy ihmore =>
    intro x known
    rw [tree]
    -- Operators nest to the right or to the left.
    split
    · exact .append known (ihmore _ ihy)
    all_goals exact ihmore _ (.append known ihy)
  | unsigned x ih | signed t op _ x ih | call name opening x ih | paren opening x closing ih =>
    exact ih
  | creation word elem sizes more ihsizes ihmore => exact ihmore _ (.cons elem.named ihsizes)
  | index opening i closing more ihi ihmore => exact fun x known => ihmore _ (.append known ihi)
  | member dot name more ihmore => exact fun x known => ihmore _ known
  | literal t e known => cases known <;> exact .nil
  | var name | noArgs closing | lastArg closing => exact .nil
  | firstArg x more ihx ihmore | nextArg comma x more ihx ihmore
  | nextSize opening x closing more ihx ihmore => exact .append ihx ihmore
  | lastSize opening x closing ih => exact .append ih .nil

theorem ItemPhrase.named (i : ItemPhrase) : AllNamed i.tree.types := by
  obtain ⟨name, init⟩ := i
  cases init with
  | none => exact .nil
  | some start => exact start.2.named

theorem Listed.forall_mem_tree {α β : Type} {tree : α → β} {P : β → Prop} (each : ∀ x, P (tree x))
    (xs : Listed α) : ∀ b ∈ xs.tree tree, P b := by
  refine List.forall_mem_cons.2 ⟨each xs.first, ?_⟩
  exact List.forall_mem_map.2 fun p _ => each p.2

def StmtSym.Named : (s : StmtSym) → s.Tree → Prop
  | .stmt _, s => AllNamed (Stmt.types s)
  | .body, ss => AllNamed (Stmt.typesOfAll ss)

theorem StmtPhrase.named {s : StmtSym} (d : StmtPhrase s) : s.Named d.tree := by
  induction d with
  | empty mark | closed closing => exact .nil
  | block opening body ih => exact ih
  | decl type items mark =>
    have each := Listed.forall_mem_tree (P := fun i : DeclItem => AllNamed i.types)
      ItemPhrase.named items
    exact .cons type.named (.flatMap each)
  | ret word value mark =>
    cases value with
    | none => exact .nil
    | some x => exact x.named
  | ifThen word cond body ih | «while» word cond body ih => exact .append cond.x.named ih
  | ifElse word cond yes alternative no ihyes ihno =>
    exact .append cond.x.named (.append ihyes ihno)
  | forEach word opening elem name colon array closing body ih =>
    exact .cons elem.named (.append array.named ih)
  | simple x tail mark =>
    cases tail with
    | assign target mark value => exact .append x.named value.named
    | count p name is mark down known => exact .nil
    | none => exact x.named
  | inner s rest ihs ihrest => exact .append ihs ihrest

theorem ParamPhrase.named (q : ParamPhrase) : q.tree.type.base ≠ .error := q.type.named

theorem FunctionPhrase.named (f : FunctionPhrase) : AllNamed f.tree.types := by
  obtain ⟨ret, name, opening, params, closing, brace, body⟩ := f
  refine .cons ret.named (.append ?_ body.named)
  cases params with
  | none => exact .nil
  | some qs =>
    have each := Listed.forall_mem_tree (P := fun q : Param => q.type.base ≠ .error)
      ParamPhrase.named qs
    exact List.forall_mem_map.2 each

end Grammar

/-- No type in a program that was read is `error`. -/
theorem Program.parse_types {src : Text} {p : Program} (read : Program.parse src = .ok p) :
    ∀ t ∈ p.types, t.base ≠ .error := by
  obtain ⟨ts, d, reading⟩ := Program.parse_reading read
  rw [← reading.tree]
  exact Grammar.AllNamed.flatMap (List.forall_mem_map.2 fun f _ => f.named)

end ImpCompiler
