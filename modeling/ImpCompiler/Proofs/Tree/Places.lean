import ImpCompiler.Proofs.Tree.Derives

/-!
# Proofs.Tree.Places — the places of a tree

The places of a tree are those of its nodes. In a program that was read each of them is the
place of a token, and a place of a function is the place of a token of that function
(`FunctionPhrase.places_subset`). Operators and suffixes stand for functions on trees, so
what is shown of a phrase depends on its symbol (`Sym.Within`).
-/

namespace ImpCompiler

set_option autoImplicit false

/-! ## Places of trees -/

namespace Expr

mutual

def places : Expr → List Pos
  | .int p _ | .double p _ | .bool p _ | .string p _ | .ident p _ => [p]
  | .unary p _ x | .length p x _ => p :: x.places
  | .binary p _ x y | .index p x y => p :: (x.places ++ y.places)
  | .call p _ es | .new p _ es => p :: placesOfAll es
  | .typed x _ => x.places

def placesOfAll : List Expr → List Pos
  | [] => []
  | e :: es => e.places ++ placesOfAll es

end

attribute [simp] places placesOfAll

@[simp] theorem pos_mem_places (e : Expr) : e.pos ∈ e.places := by
  induction e using Expr.pos.induct with
  | case12 x t ih => exact ih
  | _ => exact List.mem_cons_self

end Expr

def DeclItem.places (item : DeclItem) : List Pos :=
  item.pos :: (item.init.map Expr.places).getD []

namespace Stmt

mutual

def places : Stmt → List Pos
  | .block p body => p :: placesOfAll body
  | .decl p _ items => p :: items.flatMap DeclItem.places
  | .assign p target value => p :: (target.places ++ value.places)
  | .incr p _ _ | .retVoid p | .empty p => [p]
  | .ifThen p c yes => p :: (c.places ++ yes.places)
  | .ifElse p c yes no => p :: (c.places ++ (yes.places ++ no.places))
  | .while p c body => p :: (c.places ++ body.places)
  | .forEach p _ _ array body => p :: (array.places ++ body.places)
  | .ret p value => p :: value.places
  | .expr p e => p :: e.places

def placesOfAll : List Stmt → List Pos
  | [] => []
  | s :: ss => s.places ++ placesOfAll ss

end

attribute [simp] places placesOfAll

end Stmt

def FuncDef.places (f : FuncDef) : List Pos :=
  f.pos :: (f.params.map Param.pos ++ f.bodyPos :: Stmt.placesOfAll f.body)

namespace Grammar

/-! ## Places of phrases -/

/-- What a symbol stands for has no places but `qs`; what it makes of an expression has no
others if the expression has none. -/
def Sym.Within (qs : List Pos) : (s : Sym) → s.Tree → Prop
  | .level _, e | .operand, e | .primary, e => Expr.places e ⊆ qs
  | .links _ _, f | .suffixes _, f => ∀ x : Expr, x.places ⊆ qs → Expr.places (f x) ⊆ qs
  | .args, es | .moreArgs, es | .sizes, es => Expr.placesOfAll es ⊆ qs

theorem Literal.places {t : Token} {e : Expr} (known : Literal t e) : e.places = [t.pos] := by
  cases known <;> rfl

variable {qs : List Pos}

/-- The places of a phrase are those of its tokens. -/
theorem Phrase.within {s : Sym} (d : Phrase s) (tokens : ∀ t ∈ d.yield, t.pos ∈ qs) :
    s.Within qs d.tree := by
  induction d with
  | chain x more ihx ihmore =>
    obtain ⟨left, right⟩ := List.forall_mem_append.1 tokens
    exact ihmore right _ (ihx left)
  | noLinks => exact fun x inside => inside
  | @link l t op known y more ihy ihmore =>
    obtain ⟨here, rest⟩ := List.forall_mem_cons.1 tokens
    obtain ⟨left, right⟩ := List.forall_mem_append.1 rest
    have behind := ihmore right
    intro x inside
    rw [tree]
    split
    · have nested : Expr.places (more.tree y.tree) ⊆ qs := behind _ (ihy left)
      exact List.cons_subset.2 ⟨here, List.append_subset.2 ⟨inside, nested⟩⟩
    all_goals
      refine behind _ ?_
      exact List.cons_subset.2 ⟨here, List.append_subset.2 ⟨inside, ihy left⟩⟩
  | unsigned x ih => exact ih tokens
  | signed t op known x ih =>
    obtain ⟨here, rest⟩ := List.forall_mem_cons.1 tokens
    exact List.cons_subset.2 ⟨here, ih rest⟩
  | operand x more ihx ihmore =>
    obtain ⟨left, right⟩ := List.forall_mem_append.1 tokens
    exact ihmore right _ (ihx left)
  | creation word elem sizes more ihsizes ihmore =>
    obtain ⟨here, rest⟩ := List.forall_mem_cons.1 tokens
    obtain ⟨-, rest⟩ := List.forall_mem_append.1 rest
    obtain ⟨left, right⟩ := List.forall_mem_append.1 rest
    exact ihmore right _ (List.cons_subset.2 ⟨here, ihsizes left⟩)
  | noSuffix => exact fun x inside => inside
  | index opening i closing more ihi ihmore =>
    obtain ⟨here, rest⟩ := List.forall_mem_cons.1 tokens
    obtain ⟨left, right⟩ := List.forall_mem_append.1 rest
    intro x inside
    refine ihmore (List.forall_mem_cons.1 right).2 _ ?_
    exact List.cons_subset.2 ⟨here, List.append_subset.2 ⟨inside, ihi left⟩⟩
  | member dot name more ihmore =>
    obtain ⟨here, rest⟩ := List.forall_mem_cons.1 tokens
    intro x inside
    exact ihmore (List.forall_mem_cons.1 rest).2 _ (List.cons_subset.2 ⟨here, inside⟩)
  | literal t e known =>
    show e.places ⊆ qs
    rw [known.places]
    simpa using tokens
  | var name => simpa [Sym.Within, Tok.pos] using tokens
  | call name opening args ih =>
    obtain ⟨here, rest⟩ := List.forall_mem_cons.1 tokens
    exact List.cons_subset.2 ⟨here, ih (List.forall_mem_cons.1 rest).2⟩
  | paren opening x closing ih =>
    obtain ⟨-, rest⟩ := List.forall_mem_cons.1 tokens
    exact ih (List.forall_mem_append.1 rest).1
  | noArgs closing => exact List.nil_subset qs
  | firstArg x more ihx ihmore =>
    obtain ⟨left, right⟩ := List.forall_mem_append.1 tokens
    exact List.append_subset.2 ⟨ihx left, ihmore right⟩
  | lastArg closing => exact List.nil_subset qs
  | nextArg comma x more ihx ihmore =>
    obtain ⟨-, rest⟩ := List.forall_mem_cons.1 tokens
    obtain ⟨left, right⟩ := List.forall_mem_append.1 rest
    exact List.append_subset.2 ⟨ihx left, ihmore right⟩
  | lastSize opening x closing ih =>
    obtain ⟨-, rest⟩ := List.forall_mem_cons.1 tokens
    have size := ih (List.forall_mem_append.1 rest).1
    exact List.append_subset.2 ⟨size, List.nil_subset qs⟩
  | nextSize opening x closing more ihx ihmore =>
    obtain ⟨-, rest⟩ := List.forall_mem_cons.1 tokens
    obtain ⟨left, right⟩ := List.forall_mem_append.1 rest
    exact List.append_subset.2 ⟨ihx left, ihmore (List.forall_mem_cons.1 right).2⟩

/-- An expression starts with a token. -/
theorem Phrase.startOf_mem (x : Phrase .expr) (tokens : ∀ t ∈ x.yield, t.pos ∈ qs) :
    startOf x.yield ∈ qs := by
  obtain ⟨t, rest, yields, -⟩ := x.first rfl
  rw [yields] at tokens ⊢
  exact tokens t List.mem_cons_self

/-- What holds of the tokens of all listed phrases holds of those of each. -/
theorem Listed.forall_tree {α β : Type} {yield : α → List Token} {tree : α → β} {P : β → Prop}
    (each : ∀ x : α, (∀ t ∈ yield x, t.pos ∈ qs) → P (tree x)) (xs : Listed α)
    (tokens : ∀ t ∈ xs.yield yield, t.pos ∈ qs) : ∀ b ∈ xs.tree tree, P b := by
  obtain ⟨first, others⟩ := List.forall_mem_append.1 tokens
  refine List.forall_mem_cons.2 ⟨each xs.first first, ?_⟩
  intro b member
  obtain ⟨p, listed, rfl⟩ := List.mem_map.1 member
  refine each p.2 fun t inside => others t ?_
  exact List.mem_flatMap.2 ⟨p, listed, List.mem_cons_of_mem _ inside⟩

theorem ItemPhrase.within (i : ItemPhrase) (tokens : ∀ t ∈ i.yield, t.pos ∈ qs) :
    i.tree.places ⊆ qs := by
  obtain ⟨name, init⟩ := i
  obtain ⟨here, rest⟩ := List.forall_mem_cons.1 tokens
  refine List.cons_subset.2 ⟨here, ?_⟩
  cases init with
  | none => exact List.nil_subset qs
  | some start => exact start.2.within (List.forall_mem_cons.1 rest).2

theorem Tail.within {e : Expr} {p : Pos} (tail : Tail e) (inside : e.places ⊆ qs) (start : p ∈ qs)
    (tokens : ∀ t ∈ tail.yield, t.pos ∈ qs) : (tail.tree p).places ⊆ qs := by
  cases tail with
  | assign target mark value =>
    have right := value.within (List.forall_mem_cons.1 tokens).2
    exact List.cons_subset.2 ⟨start, List.append_subset.2 ⟨inside, right⟩⟩
  | count q name is mark down known => exact List.cons_subset.2 ⟨start, List.nil_subset qs⟩
  | none => exact List.cons_subset.2 ⟨start, inside⟩

theorem Condition.within (c : Condition) (tokens : ∀ t ∈ c.yield, t.pos ∈ qs) :
    Expr.places c.x.tree ⊆ qs :=
  c.x.within (List.forall_mem_append.1 (List.forall_mem_cons.1 tokens).2).1

/-- What a symbol stands for has no places but `qs`. -/
def StmtSym.Within (qs : List Pos) : (s : StmtSym) → s.Tree → Prop
  | .stmt _, s => Stmt.places s ⊆ qs
  | .body, ss => Stmt.placesOfAll ss ⊆ qs

/-- The places in the tree of a statement are places of its tokens. -/
theorem StmtPhrase.within {s : StmtSym} (d : StmtPhrase s) (tokens : ∀ t ∈ d.yield, t.pos ∈ qs) :
    s.Within qs d.tree := by
  induction d with
  | empty mark => simpa [StmtSym.Within, Tok.pos] using tokens
  | block opening body ih =>
    obtain ⟨here, rest⟩ := List.forall_mem_cons.1 tokens
    exact List.cons_subset.2 ⟨here, ih rest⟩
  | decl type items mark =>
    obtain ⟨word, rest⟩ := List.forall_mem_append.1 tokens
    refine List.cons_subset.2 ⟨(List.forall_mem_cons.1 word).1, ?_⟩
    have each := Listed.forall_tree (P := fun i : DeclItem => i.places ⊆ qs) ItemPhrase.within
      items (List.forall_mem_append.1 rest).1
    intro p member
    obtain ⟨i, listed, inside⟩ := List.mem_flatMap.1 member
    exact each i listed inside
  | ret word value mark =>
    obtain ⟨here, rest⟩ := List.forall_mem_cons.1 tokens
    cases value with
    | none => exact List.cons_subset.2 ⟨here, List.nil_subset qs⟩
    | some x => exact List.cons_subset.2 ⟨here, x.within (List.forall_mem_append.1 rest).1⟩
  | ifThen word cond yes ih =>
    obtain ⟨here, rest⟩ := List.forall_mem_cons.1 tokens
    obtain ⟨left, right⟩ := List.forall_mem_append.1 rest
    exact List.cons_subset.2 ⟨here, List.append_subset.2 ⟨cond.within left, ih right⟩⟩
  | ifElse word cond yes alternative no ihyes ihno =>
    obtain ⟨here, rest⟩ := List.forall_mem_cons.1 tokens
    obtain ⟨left, branches⟩ := List.forall_mem_append.1 rest
    obtain ⟨first, second⟩ := List.forall_mem_append.1 branches
    have both := List.append_subset.2 ⟨ihyes first, ihno (List.forall_mem_cons.1 second).2⟩
    exact List.cons_subset.2 ⟨here, List.append_subset.2 ⟨cond.within left, both⟩⟩
  | «while» word cond body ih =>
    obtain ⟨here, rest⟩ := List.forall_mem_cons.1 tokens
    obtain ⟨left, right⟩ := List.forall_mem_append.1 rest
    exact List.cons_subset.2 ⟨here, List.append_subset.2 ⟨cond.within left, ih right⟩⟩
  | forEach word opening elem name colon array closing body ih =>
    obtain ⟨here, rest⟩ := List.forall_mem_cons.1 tokens
    obtain ⟨-, rest⟩ := List.forall_mem_append.1 (List.forall_mem_cons.1 rest).2
    obtain ⟨-, rest⟩ := List.forall_mem_cons.1 (List.forall_mem_cons.1 rest).2
    obtain ⟨left, right⟩ := List.forall_mem_append.1 rest
    have inner := ih (List.forall_mem_cons.1 right).2
    exact List.cons_subset.2 ⟨here, List.append_subset.2 ⟨array.within left, inner⟩⟩
  | simple x tail mark =>
    obtain ⟨left, rest⟩ := List.forall_mem_append.1 tokens
    exact tail.within (x.within left) (x.startOf_mem left) (List.forall_mem_append.1 rest).1
  | closed closing => exact List.nil_subset qs
  | inner s rest ihs ihrest =>
    obtain ⟨left, right⟩ := List.forall_mem_append.1 tokens
    exact List.append_subset.2 ⟨ihs left, ihrest right⟩

theorem ParamPhrase.within (q : ParamPhrase) (tokens : ∀ t ∈ q.yield, t.pos ∈ qs) :
    q.tree.pos ∈ qs :=
  (List.forall_mem_cons.1 (List.forall_mem_append.1 tokens).1).1

/-- The places of a function are those of its tokens. -/
theorem FunctionPhrase.places_subset (f : FunctionPhrase) :
    f.tree.places ⊆ f.yield.map Token.pos := by
  have tokens : ∀ t ∈ f.yield, t.pos ∈ f.yield.map Token.pos := fun t => List.mem_map_of_mem
  -- The list of places is kept apart from the tokens while these are taken to pieces.
  generalize f.yield.map Token.pos = qs at tokens ⊢
  obtain ⟨ret, name, opening, params, closing, brace, body⟩ := f
  obtain ⟨type, rest⟩ := List.forall_mem_append.1 tokens
  obtain ⟨-, rest⟩ := List.forall_mem_cons.1 (List.forall_mem_cons.1 rest).2
  obtain ⟨listed, rest⟩ := List.forall_mem_append.1 rest
  obtain ⟨here, inner⟩ := List.forall_mem_cons.1 (List.forall_mem_cons.1 rest).2
  refine List.cons_subset.2 ⟨(List.forall_mem_cons.1 type).1, List.append_subset.2 ⟨?_, ?_⟩⟩
  · cases params with
    | none => exact List.nil_subset qs
    | some ps =>
      have each := Listed.forall_tree (P := fun q : Param => q.pos ∈ qs) ParamPhrase.within
        ps listed
      intro p member
      obtain ⟨q, known, rfl⟩ := List.mem_map.1 member
      exact each q known
  · exact List.cons_subset.2 ⟨here, body.within inner⟩

end Grammar

/-! ## Programs that were read -/

open Grammar

/-- The source is made of the tokens `ts`, which stand there in their order, and `p` is
derived from all of them but the last, the end of the file. -/
structure Reading (src : Text) (ts : List Token) (d : ProgramPhrase) (p : Program) : Prop where
  tokens : Lexer.tokens src = .ok ts
  ended : ∃ last, Lexer.Ended ts d.yield last
  stand : ∃ offsets, offsets.Pairwise (· < ·) ∧
    List.Forall₂ (Lexer.StandsAt src Pos.start) d.yield offsets
  tree : d.tree = p

/-- A parsed text has tokens and a derivation. -/
theorem Program.parse_reading {src : Text} {p : Program} (parsed : Program.parse src = .ok p) :
    ∃ ts d, Reading src ts d p := by
  unfold parse at parsed
  cases read : Lexer.tokens src with
  | error e =>
    rw [read] at parsed
    cases parsed
  | ok ts =>
    simp only [read] at parsed
    cases ran : ofTokens ts with
    | error e =>
      rw [ran] at parsed
      cases parsed
    | ok p' =>
      rw [ran] at parsed
      cases parsed
      obtain ⟨body, last, offsets, ended, increasing, stand⟩ := (Lexer.scan_scanned read).stand
      obtain ⟨d, rfl, trees⟩ := Parser.ofTokens_derived ended ran
      exact ⟨ts, d, read, ⟨last, ended⟩, ⟨offsets, increasing, stand⟩, trees⟩

/-- Lines are counted from 1. -/
theorem Lexer.one_le_line {src : Text} {body : List Token} {offsets : List Nat}
    (stand : List.Forall₂ (StandsAt src Pos.start) body offsets) : ∀ t ∈ body, 1 ≤ t.pos.line := by
  induction stand with
  | nil => simp
  | cons first _ ih =>
    refine List.forall_mem_cons.2 ⟨?_, ih⟩
    rw [first.2, Pos.start_advance]
    exact Int.le_add_of_nonneg_right (Int.natCast_nonneg _)

namespace Reading

variable {src : Text} {ts : List Token} {d : ProgramPhrase} {p : Program}

theorem mem_tokens (reading : Reading src ts d p) {t : Token} (member : t ∈ d.yield) : t ∈ ts := by
  obtain ⟨last, ended⟩ := reading.ended
  rw [ended.tokens]
  exact List.mem_append_left [last] member

theorem one_le_line (reading : Reading src ts d p) {t : Token} (member : t ∈ d.yield) :
    1 ≤ t.pos.line := by
  obtain ⟨offsets, -, stand⟩ := reading.stand
  exact Lexer.one_le_line stand t member

/-- A place of a function of the program is the place of a token of that function. -/
theorem token_at (reading : Reading src ts d p) {f : FuncDef} (member : f ∈ p.functions) {q : Pos}
    (inside : q ∈ f.places) : ∃ g ∈ d, g.tree = f ∧ ∃ t ∈ g.yield, t ∈ d.yield ∧ t.pos = q := by
  rw [← reading.tree] at member
  obtain ⟨g, known, rfl⟩ := List.mem_map.1 member
  obtain ⟨t, part, place⟩ := List.mem_map.1 (g.places_subset inside)
  exact ⟨g, known, rfl, t, part, List.mem_flatMap.2 ⟨g, known, part⟩, place⟩

end Reading

end ImpCompiler
