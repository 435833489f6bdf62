import ImpCompiler.Proofs.Tree.Grammar
import Mathlib.Data.List.Basic
import Mathlib.Tactic.Common

/-!
# Proofs.Tree.Unambiguous — no tokens have two derivations

A phrase at the start of some tokens is the only one there, if what stands behind it cannot go
on with it (`Phrase.unique`). What can go on with an expression is told by the first token
alone: the tokens that bind to what stands before them are ranked by how tightly they do
(`binds`), and a phrase ends where a token binds less tightly than the phrase goes.
-/

namespace ImpCompiler.Grammar

set_option autoImplicit false

variable {k : TokenKind} {t : Token} {r r' : List Token} {l : Level} {hanging : Bool}
  {cond : Condition}

/-! ## Tokens -/

theorem BaseWord.unique {a b : Base} (one : BaseWord k a) (other : BaseWord k b) : a = b := by
  cases one <;> cases other <;> rfl

theorem Operator.unique {a b : BinOp} (one : Operator l k a) (other : Operator l k b) : a = b := by
  cases one <;> cases other <;> rfl

theorem Sign.unique {a b : UnOp} (one : Sign k a) (other : Sign k b) : a = b := by
  cases one <;> cases other <;> rfl

theorem Counter.unique {a b : Bool} (one : Counter k a) (other : Counter k b) : a = b := by
  cases one <;> cases other <;> rfl

theorem Numeral.value {t : Text} {n : Nat} (numeral : Numeral t n) : n = Double.digitsValue t := by
  induction numeral with
  | digit => simp [Double.digitsValue]
  | more _ _ _ ih => simp [Double.digitsValue, List.foldl_append, ih]

theorem Numeral.digits {t : Text} {n : Nat} (numeral : Numeral t n) :
    ∀ b ∈ t, 0x30 ≤ b ∧ b ≤ 0x39 := by
  induction numeral with
  | digit low high => simpa using ⟨low, high⟩
  | more _ low high ih => simpa [or_imp, forall_and, low, high] using ih

/-- A text spells one integer. -/
theorem Integer.unique {t : Text} {a b : Int} (one : Integer t a) (other : Integer t b) :
    a = b := by
  have unsigned : ∀ {c : UInt8} {t : Text} {n : Nat}, Numeral (c :: t) n → 0x30 ≤ c :=
    fun numeral => (numeral.digits _ (by simp)).1
  cases one with
  | plain numeral =>
    cases other with
    | plain numeral' => rw [numeral.value, numeral'.value]
    | plus => exact absurd (unsigned numeral) (by decide)
    | minus => exact absurd (unsigned numeral) (by decide)
  | plus numeral =>
    cases other with
    | plain numeral' => exact absurd (unsigned numeral') (by decide)
    | plus numeral' => rw [numeral.value, numeral'.value]
  | minus numeral =>
    cases other with
    | plain numeral' => exact absurd (unsigned numeral') (by decide)
    | minus numeral' => rw [numeral.value, numeral'.value]

theorem Literal.unique {a b : Expr} (one : Literal t a) (other : Literal t b) : a = b := by
  cases one with
  | integer kind value =>
    cases other with
    | integer _ value' => rw [Int64.toInt_inj.1 (value.unique value')]
    | _ => simp_all
  | double kind value => cases other <;> simp_all
  | yes kind => cases other <;> simp_all
  | no kind => cases other <;> simp_all
  | string kind value => cases other <;> simp_all

theorem Literal.kind_ne_ident {e : Expr} (literal : Literal t e) : t.kind ≠ .ident := by
  cases literal <;> simp_all

theorem Literal.kind_ne_punct {e : Expr} (literal : Literal t e) (p : Punct) :
    t.kind ≠ .punct p := by
  cases literal <;> simp_all

theorem Tok.cons_ne {k k' : TokenKind} (a : Tok k) (b : Tok k') (other : k ≠ k')
    {ts us : List Token} : a.token :: ts ≠ b.token :: us := by
  intro same
  apply other
  rw [← a.kind, ← b.kind, (List.cons.inj same).1]

/-! ## Types -/

def NoPair : List Token → Prop
  | a :: b :: _ => ¬ (a.kind = .punct .lbracket ∧ b.kind = .punct .rbracket)
  | _ => True

/-- Brackets are split off in one way. -/
theorem pairs_unique {ps qs : List (Mark .lbracket × Mark .rbracket)}
    (same : TypePhrase.yieldPairs ps ++ r = TypePhrase.yieldPairs qs ++ r') (ends : NoPair r)
    (ends' : NoPair r') : ps = qs ∧ r = r' := by
  induction ps generalizing qs with
  | nil =>
    cases qs with
    | nil => exact ⟨rfl, same⟩
    | cons q qs =>
      cases same
      exact absurd ⟨q.1.kind, q.2.kind⟩ ends
  | cons p ps ih =>
    cases qs with
    | nil =>
      cases same
      exact absurd ⟨p.1.kind, p.2.kind⟩ ends'
    | cons q qs =>
      obtain ⟨opening, closing, rest⟩ : p.1.token = q.1.token ∧ p.2.token = q.2.token ∧
          TypePhrase.yieldPairs ps ++ r = TypePhrase.yieldPairs qs ++ r' := by
        simpa [TypePhrase.yieldPairs] using same
      obtain ⟨rfl, rfl⟩ := ih rest
      exact ⟨by rw [Prod.ext (Tok.ext opening) (Tok.ext closing)], rfl⟩

theorem TypePhrase.unique {a b : TypePhrase}
    (same : a.yield ++ r = b.yield ++ r') (ends : NoPair r) (ends' : NoPair r') :
    a = b ∧ r = r' := by
  obtain ⟨word, base, names, pairs⟩ := a
  obtain ⟨word', base', names', pairs'⟩ := b
  obtain ⟨rfl, rest⟩ := List.cons.inj same
  obtain ⟨rfl, rfl⟩ := pairs_unique rest ends ends'
  obtain rfl := names.unique names'
  exact ⟨rfl, rfl⟩

/-! ## Where expressions start and end -/

/-- How tightly a token binds to an expression before it, if it does. -/
def binds : TokenKind → Nat
  | .punct .or => 1
  | .punct .and => 2
  | .punct .less | .punct .le | .punct .greater | .punct .ge | .punct .eq | .punct .ne => 3
  | .punct .plus | .punct .minus => 4
  | .punct .star | .punct .slash | .punct .percent => 5
  | .punct .dot => 6
  | .punct .lbracket => 7
  | .punct .lparen => 8
  | _ => 0

def Level.rank : Level → Nat
  | .disjunction => 1
  | .conjunction => 2
  | .comparison => 3
  | .sum => 4
  | .product => 5

/-- A phrase goes on with what binds at least as tightly as this. -/
def Sym.rank : Sym → Nat
  | .level (some l) | .links l _ => l.rank
  | .level none | .operand | .suffixes _ => 6
  | .sizes => 7
  | .primary => 8
  | .args | .moreArgs => 9

theorem rank_tighter (l : Level) : (Sym.level l.tighter).rank = l.rank + 1 := by
  cases l <;> rfl

theorem Operator.binds {op : BinOp} (known : Operator l k op) : binds k = l.rank := by
  cases known <;> rfl

/-- Nothing comes first that a phrase from the symbol goes on with. -/
def Stops (s : Sym) : List Token → Prop
  | [] => True
  | t :: _ => binds t.kind < s.rank

theorem Stops.mono {s s' : Sym} {r : List Token} (stops : Stops s r) (le : s.rank ≤ s'.rank) :
    Stops s' r := by
  cases r with
  | nil => trivial
  | cons t r => exact Nat.lt_of_lt_of_le stops le

def startsPrimary : TokenKind → Bool
  | .integer | .double | .string | .ident | .keyword .trueWord | .keyword .falseWord
  | .punct .lparen => true
  | _ => false

def startsExpr (k : TokenKind) : Bool :=
  startsPrimary k || k == .keyword .newWord || k == .punct .minus || k == .punct .bang

def Sym.starts : Sym → TokenKind → Bool
  | .level _, k => startsExpr k
  | .links l linked, k => linked && binds k == l.rank
  | .operand, k => startsPrimary k || k == .keyword .newWord
  | .suffixes indexed, k => k == .punct .dot || indexed && k == .punct .lbracket
  | .primary, k => startsPrimary k
  | .args, k => k == .punct .rparen || startsExpr k
  | .moreArgs, k => k == .punct .rparen || k == .punct .comma
  | .sizes, k => k == .punct .lbracket

theorem Sign.not_operand {op : UnOp} (known : Sign k op) : Sym.operand.starts k = false := by
  cases known <;> rfl

/-- Whether there are phrases without tokens from the symbol. -/
def Sym.nullable : Sym → Bool
  | .links _ _ | .suffixes _ => true
  | _ => false

def Begins (s : Sym) : List Token → Prop
  | [] => s.nullable = true
  | t :: _ => s.starts t.kind = true

theorem Begins.append {s s' : Sym} {ts : List Token} (begins : Begins s ts)
    (some : s.nullable = false) (starts : ∀ k, s.starts k = true → s'.starts k = true)
    (r : List Token) : Begins s' (ts ++ r) := by
  cases ts with
  | nil => exact absurd begins (by simp [Begins, some])
  | cons t ts => exact starts _ begins

/-- A phrase is empty or begins with a token that its symbol may start with. -/
theorem Phrase.begins {s : Sym} (d : Phrase s) : Begins s d.yield := by
  induction d with
  | chain x more ihx _ => exact ihx.append rfl (fun _ => id) _
  | noLinks => rfl
  | link t op known _ _ _ _ => simpa [yield, Begins, Sym.starts] using known.binds
  | unsigned x ih =>
    rw [yield, ← List.append_nil x.yield]
    refine ih.append rfl (fun k starts => ?_) []
    simp only [Sym.starts, startsExpr, Bool.or_eq_true] at starts ⊢
    tauto
  | signed t op known _ _ =>
    show startsExpr t.kind = true
    generalize t.kind = k at known
    cases known <;> rfl
  | operand x more ihx _ => exact ihx.append rfl (fun k starts => by simp_all [Sym.starts]) _
  | creation word => simp [yield, Begins, Sym.starts, word.kind]
  | noSuffix => rfl
  | index opening => simp [yield, Begins, Sym.starts, opening.kind]
  | member dot => simp [yield, Begins, Sym.starts, dot.kind]
  | literal t e known => cases known <;> simp_all [yield, Begins, Sym.starts, startsPrimary]
  | var name => simp [yield, Begins, Sym.starts, startsPrimary, name.kind]
  | call name => simp [yield, Begins, Sym.starts, startsPrimary, name.kind]
  | paren opening => simp [yield, Begins, Sym.starts, startsPrimary, opening.kind]
  | noArgs closing => simp [yield, Begins, Sym.starts, closing.kind]
  | firstArg x more ihx _ => exact ihx.append rfl (fun k starts => by simp_all [Sym.starts]) _
  | lastArg closing => simp [yield, Begins, Sym.starts, closing.kind]
  | nextArg comma => simp [yield, Begins, Sym.starts, comma.kind]
  | lastSize opening => simp [yield, Begins, Sym.starts, opening.kind]
  | nextSize opening => simp [yield, Begins, Sym.starts, opening.kind]

theorem Begins.stops {s s' : Sym} {ts r : List Token} (begins : Begins s ts)
    (less : ∀ k, s.starts k = true → binds k < s'.rank) (stops : Stops s' r) :
    Stops s' (ts ++ r) := by
  cases ts with
  | nil => exact stops
  | cons t ts => exact less _ begins

section Ends

variable {l : Level} {linked : Bool} {r : List Token}

theorem stops_links (more : Phrase (.links l linked)) (stops : Stops (.level (some l)) r) :
    Stops (.level l.tighter) (more.yield ++ r) := by
  have next := rank_tighter l
  refine more.begins.stops (fun k starts => ?_) (stops.mono ?_)
  · simp only [Sym.starts, Bool.and_eq_true, beq_iff_eq] at starts
    omega
  · show l.rank ≤ _
    omega

theorem stops_suffixes (more : Phrase (.suffixes true)) (stops : Stops .operand r) :
    Stops .primary (more.yield ++ r) := by
  refine more.begins.stops (fun k starts => ?_) (stops.mono (by decide))
  simp only [Sym.starts, Bool.true_and, Bool.or_eq_true, beq_iff_eq] at starts
  rcases starts with rfl | rfl <;> decide

theorem stops_members (more : Phrase (.suffixes false)) (stops : Stops .operand r) :
    Stops .sizes (more.yield ++ r) := by
  refine more.begins.stops (fun k starts => ?_) (stops.mono (by decide))
  simp only [Sym.starts, Bool.false_and, Bool.or_false, beq_iff_eq] at starts
  subst starts
  decide

theorem Tok.stops_iff {s : Sym} {k : TokenKind} (t : Tok k) :
    Stops s (t.token :: r) ↔ binds k < s.rank := by
  rw [Stops, t.kind]

/-- A phrase of a symbol that is never empty has a first token. -/
theorem Phrase.first {s : Sym} (d : Phrase s) (some : s.nullable = false) :
    ∃ t rest, d.yield = t :: rest ∧ s.starts t.kind = true := by
  have begins := d.begins
  cases known : d.yield with
  | nil =>
    rw [known] at begins
    exact absurd begins (by simp [Begins, some])
  | cons t rest =>
    rw [known] at begins
    exact ⟨t, rest, rfl, begins⟩

theorem Phrase.yield_ne {s : Sym} (d : Phrase s) (some : s.nullable = false) {t : Token}
    (other : s.starts t.kind = false) {ts : List Token} : d.yield ++ r ≠ t :: ts := by
  obtain ⟨u, rest, yields, starts⟩ := d.first some
  rw [yields]
  rintro ⟨⟩
  exact Bool.noConfusion (other.symm.trans starts)

theorem stops_moreArgs (more : Phrase .moreArgs) : Stops .expr (more.yield ++ r) := by
  obtain ⟨t, rest, yields, starts⟩ := more.first rfl
  rw [yields]
  show binds t.kind < 1
  simp only [Sym.starts, Bool.or_eq_true, beq_iff_eq] at starts
  rcases starts with closing | comma
  · rw [closing]
    decide
  · rw [comma]
    decide

theorem not_stops_sizes (more : Phrase .sizes) : ¬ Stops .sizes (more.yield ++ r) := by
  obtain ⟨t, rest, yields, starts⟩ := more.first rfl
  simp only [Sym.starts, beq_iff_eq] at starts
  rw [yields]
  show ¬ binds t.kind < 7
  rw [starts]
  decide

/-- Sizes do not start with an empty pair of brackets. -/
theorem noPair_sizes (d : Phrase .sizes) : NoPair (d.yield ++ r) := by
  have inside : ∀ (opening : Mark .lbracket) (x : Phrase .expr) (rest : List Token),
      NoPair (opening.token :: (x.yield ++ rest)) := by
    intro opening x rest
    obtain ⟨t, others, known, starts⟩ := x.first rfl
    rw [known]
    rintro ⟨-, closed⟩
    rw [closed] at starts
    cases starts
  cases d with
  | lastSize opening x closing =>
    rw [Phrase.yield, List.cons_append, List.append_assoc]
    exact inside opening x _
  | nextSize opening x closing more =>
    rw [Phrase.yield, List.cons_append, List.append_assoc]
    exact inside opening x _

end Ends

/-! ## Expressions -/

/-- Where the phrase stands at the start of some tokens it is the only one from its symbol, if
what stands behind it does not go on with it. -/
def Phrase.IsOnly {s : Sym} (d : Phrase s) : Prop :=
  ∀ ⦃d' : Phrase s⦄ ⦃r r' : List Token⦄, d.yield ++ r = d'.yield ++ r' → Stops s r → Stops s r' →
    d = d' ∧ r = r'

/-- An expression in brackets is found out with both of them. -/
theorem Phrase.IsOnly.enclosed {p q : Punct} {a a' : Mark p} {b b' : Mark q} {x x' : Phrase .expr}
    {ts ts' : List Token} (only : x.IsOnly) (closes : binds (.punct q) = 0)
    (same : a.token :: (x.yield ++ b.token :: ts) = a'.token :: (x'.yield ++ b'.token :: ts')) :
    a = a' ∧ x = x' ∧ b = b' ∧ ts = ts' := by
  obtain ⟨opens, inside⟩ := List.cons.inj same
  have stops : ∀ (c : Mark q) (us : List Token), Stops .expr (c.token :: us) :=
    fun c us => c.stops_iff.2 (by rw [closes]; decide)
  obtain ⟨rfl, behind⟩ := only inside (stops b ts) (stops b' ts')
  obtain ⟨closing, rest⟩ := List.cons.inj behind
  exact ⟨Tok.ext opens, rfl, Tok.ext closing, rest⟩

theorem Phrase.IsOnly.chain {x : Phrase (.level l.tighter)}
    {more : Phrase (.links l true)} (first : x.IsOnly) (last : more.IsOnly) :
    (Phrase.chain x more).IsOnly := by
  intro d' r r' same stops stops'
  cases d' with
  | chain x' more' =>
    simp only [yield, List.append_assoc] at same
    obtain ⟨rfl, rest⟩ := first same (stops_links more stops) (stops_links more' stops')
    obtain ⟨rfl, rfl⟩ := last rest stops stops'
    exact ⟨rfl, rfl⟩

theorem Phrase.IsOnly.noLinks {linked : Bool} : (@Phrase.noLinks l linked).IsOnly := by
  intro d' r r' same stops stops'
  cases d' with
  | noLinks => exact ⟨rfl, same⟩
  | link t op known y more =>
    cases same
    exact absurd known.binds (Nat.ne_of_lt stops)

theorem Phrase.IsOnly.link {op : BinOp} (known : Operator l t.kind op)
    {y : Phrase (.level l.tighter)} {more : Phrase (.links l l.chains)} (first : y.IsOnly)
    (last : more.IsOnly) : (Phrase.link t op known y more).IsOnly := by
  intro d' r r' same stops stops'
  cases d' with
  | noLinks =>
    cases same
    exact absurd known.binds (Nat.ne_of_lt stops')
  | link t' op' known' y' more' =>
    simp only [yield, List.cons_append, List.append_assoc, List.cons.injEq] at same
    obtain ⟨rfl, same⟩ := same
    obtain rfl := known.unique known'
    obtain ⟨rfl, rest⟩ := first same (stops_links more stops) (stops_links more' stops')
    obtain ⟨rfl, rfl⟩ := last rest stops stops'
    exact ⟨rfl, rfl⟩

theorem Phrase.IsOnly.unsigned {x : Phrase .operand} (only : x.IsOnly) :
    (Phrase.unsigned x).IsOnly := by
  intro d' r r' same stops stops'
  cases d' with
  | unsigned x' =>
    obtain ⟨rfl, rfl⟩ := only same stops stops'
    exact ⟨rfl, rfl⟩
  | signed t op known x' => exact absurd same (x.yield_ne rfl known.not_operand)

theorem Phrase.IsOnly.signed {op : UnOp} (known : Sign t.kind op)
    {x : Phrase (.level none)} (only : x.IsOnly) : (Phrase.signed t op known x).IsOnly := by
  intro d' r r' same stops stops'
  cases d' with
  | unsigned x' => exact absurd same.symm (x'.yield_ne rfl known.not_operand)
  | signed t' op' known' x' =>
    simp only [yield, List.cons_append, List.cons.injEq] at same
    obtain ⟨rfl, rest⟩ := same
    obtain rfl := known.unique known'
    obtain ⟨rfl, rfl⟩ := only rest stops stops'
    exact ⟨rfl, rfl⟩

theorem Phrase.IsOnly.operand {x : Phrase .primary} {more : Phrase (.suffixes true)}
    (first : x.IsOnly) (last : more.IsOnly) : (Phrase.operand x more).IsOnly := by
  intro d' r r' same stops stops'
  cases d' with
  | operand x' more' =>
    simp only [yield, List.append_assoc] at same
    obtain ⟨rfl, rest⟩ := first same (stops_suffixes more stops) (stops_suffixes more' stops')
    obtain ⟨rfl, rfl⟩ := last rest stops stops'
    exact ⟨rfl, rfl⟩
  | creation word elem sizes more' =>
    rw [yield, yield, List.append_assoc] at same
    exact absurd same (x.yield_ne rfl (by rw [word.kind]; rfl))

theorem Phrase.IsOnly.creation {word : Word .newWord} {elem : TypePhrase} {sizes : Phrase .sizes}
    {more : Phrase (.suffixes false)} (inside : sizes.IsOnly) (last : more.IsOnly) :
    (Phrase.creation word elem sizes more).IsOnly := by
  intro d' r r' same stops stops'
  cases d' with
  | operand x' more' =>
    rw [yield, yield, List.append_assoc] at same
    exact absurd same.symm (x'.yield_ne rfl (by rw [word.kind]; rfl))
  | creation word' elem' sizes' more' =>
    simp only [yield, List.cons_append, List.append_assoc, List.cons.injEq] at same
    obtain rfl := Tok.ext same.1
    obtain ⟨rfl, behind⟩ := TypePhrase.unique same.2 (noPair_sizes sizes) (noPair_sizes sizes')
    obtain ⟨rfl, rest⟩ :=
      inside behind (stops_members more stops) (stops_members more' stops')
    obtain ⟨rfl, rfl⟩ := last rest stops stops'
    exact ⟨rfl, rfl⟩

theorem Phrase.IsOnly.noSuffix {indexed : Bool} : (@Phrase.noSuffix indexed).IsOnly := by
  intro d' r r' same stops stops'
  cases d' with
  | noSuffix => exact ⟨rfl, same⟩
  | index opening =>
    cases same
    exact absurd (opening.stops_iff.1 stops) (by decide)
  | member dot =>
    cases same
    exact absurd (dot.stops_iff.1 stops) (Nat.lt_irrefl 6)

theorem Phrase.IsOnly.index {opening : Mark .lbracket} {i : Phrase .expr} {closing : Mark .rbracket}
    {more : Phrase (.suffixes true)} (inside : i.IsOnly) (last : more.IsOnly) :
    (Phrase.index opening i closing more).IsOnly := by
  intro d' r r' same stops stops'
  cases d' with
  | noSuffix =>
    cases same
    exact absurd (opening.stops_iff.1 stops') (by decide)
  | index opening' i' closing' more' =>
    simp only [yield, List.cons_append, List.append_assoc] at same
    obtain ⟨rfl, rfl, rfl, rest⟩ := inside.enclosed rfl same
    obtain ⟨rfl, rfl⟩ := last rest stops stops'
    exact ⟨rfl, rfl⟩
  | member dot => exact absurd same (opening.cons_ne dot (by decide))

theorem Phrase.IsOnly.member {indexed : Bool} {dot : Mark .dot} {name : Tok .ident}
    {more : Phrase (.suffixes true)} (last : more.IsOnly) :
    (@Phrase.member indexed dot name more).IsOnly := by
  intro d' r r' same stops stops'
  cases d' with
  | noSuffix =>
    cases same
    exact absurd (dot.stops_iff.1 stops') (Nat.lt_irrefl 6)
  | index opening => exact absurd same (dot.cons_ne opening (by decide))
  | member dot' name' more' =>
    simp only [yield, List.cons_append, List.cons.injEq] at same
    obtain rfl := Tok.ext same.1
    obtain rfl := Tok.ext same.2.1
    obtain ⟨rfl, rfl⟩ := last same.2.2 stops stops'
    exact ⟨rfl, rfl⟩

theorem Phrase.IsOnly.literal {e : Expr} (known : Literal t e) :
    (Phrase.literal t e known).IsOnly := by
  intro d' r r' same stops stops'
  cases d' with
  | literal t' e' known' =>
    obtain ⟨rfl, rfl⟩ := List.cons.inj same
    obtain rfl := known.unique known'
    exact ⟨rfl, rfl⟩
  | var name => exact absurd name.kind ((List.cons.inj same).1 ▸ known.kind_ne_ident)
  | call name => exact absurd name.kind ((List.cons.inj same).1 ▸ known.kind_ne_ident)
  | paren opening => exact absurd opening.kind ((List.cons.inj same).1 ▸ known.kind_ne_punct _)

theorem Phrase.IsOnly.var {name : Tok .ident} : (Phrase.var name).IsOnly := by
  intro d' r r' same stops stops'
  cases d' with
  | literal t' e' known' =>
    exact absurd name.kind ((List.cons.inj same).1.symm ▸ known'.kind_ne_ident)
  | var name' =>
    obtain ⟨names, rfl⟩ := List.cons.inj same
    obtain rfl := Tok.ext names
    exact ⟨rfl, rfl⟩
  | call name' opening =>
    obtain ⟨-, rfl⟩ := List.cons.inj same
    exact absurd (opening.stops_iff.1 stops) (by decide)
  | paren opening => exact absurd same (name.cons_ne opening (by decide))

theorem Phrase.IsOnly.call {name : Tok .ident} {opening : Mark .lparen} {args : Phrase .args}
    (inside : args.IsOnly) : (Phrase.call name opening args).IsOnly := by
  intro d' r r' same stops stops'
  cases d' with
  | literal t' e' known' =>
    exact absurd name.kind ((List.cons.inj same).1.symm ▸ known'.kind_ne_ident)
  | var name' =>
    obtain ⟨-, rfl⟩ := List.cons.inj same
    exact absurd (opening.stops_iff.1 stops') (by decide)
  | call name' opening' args' =>
    simp only [yield, List.cons_append, List.cons.injEq] at same
    obtain rfl := Tok.ext same.1
    obtain rfl := Tok.ext same.2.1
    obtain ⟨rfl, rfl⟩ := inside same.2.2 (stops.mono (by decide)) (stops'.mono (by decide))
    exact ⟨rfl, rfl⟩
  | paren opening' => exact absurd same (name.cons_ne opening' (by decide))

theorem Phrase.IsOnly.paren {opening : Mark .lparen} {x : Phrase .expr} {closing : Mark .rparen}
    (inside : x.IsOnly) : (Phrase.paren opening x closing).IsOnly := by
  intro d' r r' same stops stops'
  cases d' with
  | literal t' e' known' =>
    exact absurd opening.kind ((List.cons.inj same).1.symm ▸ known'.kind_ne_punct _)
  | var name => exact absurd same (opening.cons_ne name (by decide))
  | call name => exact absurd same (opening.cons_ne name (by decide))
  | paren opening' x' closing' =>
    simp only [yield, List.cons_append, List.append_assoc, List.nil_append] at same
    obtain ⟨rfl, rfl, rfl, rfl⟩ := inside.enclosed rfl same
    exact ⟨rfl, rfl⟩

theorem Phrase.IsOnly.noArgs {closing : Mark .rparen} : (Phrase.noArgs closing).IsOnly := by
  intro d' r r' same stops stops'
  cases d' with
  | noArgs closing' =>
    obtain ⟨closes, rfl⟩ := List.cons.inj same
    obtain rfl := Tok.ext closes
    exact ⟨rfl, rfl⟩
  | firstArg x more =>
    rw [yield, yield, List.append_assoc] at same
    exact absurd same.symm (x.yield_ne rfl (by rw [closing.kind]; rfl))

theorem Phrase.IsOnly.firstArg {x : Phrase .expr} {more : Phrase .moreArgs} (first : x.IsOnly)
    (last : more.IsOnly) : (Phrase.firstArg x more).IsOnly := by
  intro d' r r' same stops stops'
  cases d' with
  | noArgs closing =>
    rw [yield, yield, List.append_assoc] at same
    exact absurd same (x.yield_ne rfl (by rw [closing.kind]; rfl))
  | firstArg x' more' =>
    simp only [yield, List.append_assoc] at same
    obtain ⟨rfl, rest⟩ := first same (stops_moreArgs more) (stops_moreArgs more')
    obtain ⟨rfl, rfl⟩ := last rest stops stops'
    exact ⟨rfl, rfl⟩

theorem Phrase.IsOnly.lastArg {closing : Mark .rparen} : (Phrase.lastArg closing).IsOnly := by
  intro d' r r' same stops stops'
  cases d' with
  | lastArg closing' =>
    obtain ⟨closes, rfl⟩ := List.cons.inj same
    obtain rfl := Tok.ext closes
    exact ⟨rfl, rfl⟩
  | nextArg comma => exact absurd same (closing.cons_ne comma (by decide))

theorem Phrase.IsOnly.nextArg {comma : Mark .comma} {x : Phrase .expr} {more : Phrase .moreArgs}
    (first : x.IsOnly) (last : more.IsOnly) : (Phrase.nextArg comma x more).IsOnly := by
  intro d' r r' same stops stops'
  cases d' with
  | lastArg closing => exact absurd same (comma.cons_ne closing (by decide))
  | nextArg comma' x' more' =>
    simp only [yield, List.cons_append, List.append_assoc, List.cons.injEq] at same
    obtain rfl := Tok.ext same.1
    obtain ⟨rfl, rest⟩ := first same.2 (stops_moreArgs more) (stops_moreArgs more')
    obtain ⟨rfl, rfl⟩ := last rest stops stops'
    exact ⟨rfl, rfl⟩

theorem Phrase.IsOnly.lastSize {opening : Mark .lbracket} {x : Phrase .expr}
    {closing : Mark .rbracket} (inside : x.IsOnly) :
    (Phrase.lastSize opening x closing).IsOnly := by
  intro d' r r' same stops stops'
  cases d' with
  | lastSize opening' x' closing' =>
    simp only [yield, List.cons_append, List.append_assoc, List.nil_append] at same
    obtain ⟨rfl, rfl, rfl, rfl⟩ := inside.enclosed rfl same
    exact ⟨rfl, rfl⟩
  | nextSize opening' x' closing' more' =>
    simp only [yield, List.cons_append, List.append_assoc, List.nil_append] at same
    obtain ⟨-, -, -, rfl⟩ := inside.enclosed rfl same
    exact absurd stops (not_stops_sizes more')

theorem Phrase.IsOnly.nextSize {opening : Mark .lbracket} {x : Phrase .expr}
    {closing : Mark .rbracket} {more : Phrase .sizes} (inside : x.IsOnly) (last : more.IsOnly) :
    (Phrase.nextSize opening x closing more).IsOnly := by
  intro d' r r' same stops stops'
  cases d' with
  | lastSize opening' x' closing' =>
    simp only [yield, List.cons_append, List.append_assoc, List.nil_append] at same
    obtain ⟨-, -, -, rfl⟩ := inside.enclosed rfl same
    exact absurd stops' (not_stops_sizes more)
  | nextSize opening' x' closing' more' =>
    simp only [yield, List.cons_append, List.append_assoc] at same
    obtain ⟨rfl, rfl, rfl, rest⟩ := inside.enclosed rfl same
    obtain ⟨rfl, rfl⟩ := last rest stops stops'
    exact ⟨rfl, rfl⟩

/-- No other phrase has the same tokens. -/
theorem Phrase.isOnly {s : Sym} (d : Phrase s) : d.IsOnly := by
  induction d with
  | chain x more ihx ihmore => exact .chain ihx ihmore
  | noLinks => exact .noLinks
  | link t op known y more ihy ihmore => exact .link known ihy ihmore
  | unsigned x ih => exact .unsigned ih
  | signed t op known x ih => exact .signed known ih
  | operand x more ihx ihmore => exact .operand ihx ihmore
  | creation word elem sizes more ihsizes ihmore => exact .creation ihsizes ihmore
  | noSuffix => exact .noSuffix
  | index opening i closing more ihi ihmore => exact .index ihi ihmore
  | member dot name more ihmore => exact .member ihmore
  | literal t e known => exact .literal known
  | var name => exact .var
  | call name opening args ihargs => exact .call ihargs
  | paren opening x closing ihx => exact .paren ihx
  | noArgs closing => exact .noArgs
  | firstArg x more ihx ihmore => exact .firstArg ihx ihmore
  | lastArg closing => exact .lastArg
  | nextArg comma x more ihx ihmore => exact .nextArg ihx ihmore
  | lastSize opening x closing ihx => exact .lastSize ihx
  | nextSize opening x closing more ihx ihmore => exact .nextSize ihx ihmore

/-! ## Statements -/

/-- A comma comes first, or the mark that ends a list. -/
def Separated (p : Punct) : List Token → Prop
  | t :: _ => t.kind = .punct .comma ∨ t.kind = .punct p
  | [] => False

namespace Listed

variable {α : Type} {yield : α → List Token} {p : Punct}

theorem separated_more (yield : α → List Token) (more : List (Mark .comma × α)) (mark : Mark p)
    (r : List Token) : Separated p (yieldMore yield more ++ mark.token :: r) := by
  cases more with
  | nil => exact .inr mark.kind
  | cons q more => exact .inl q.1.kind

theorem unique (other : p ≠ .comma)
    (each : ∀ ⦃a b : α⦄ ⦃r r' : List Token⦄, yield a ++ r = yield b ++ r' → Separated p r →
      Separated p r' → a = b ∧ r = r') {xs ys : Listed α} {m m' : Mark p} {r r' : List Token}
    (same : xs.yield yield ++ m.token :: r = ys.yield yield ++ m'.token :: r') :
    xs = ys ∧ m = m' ∧ r = r' := by
  obtain ⟨x, xs⟩ := xs
  obtain ⟨y, ys⟩ := ys
  simp only [Listed.yield, List.append_assoc] at same
  obtain ⟨rfl, more⟩ := each same (separated_more yield xs m r) (separated_more yield ys m' r')
  clear same
  suffices all : xs = ys ∧ m = m' ∧ r = r' by
    obtain ⟨rfl, rest⟩ := all
    exact ⟨rfl, rest⟩
  have ends : ∀ (c : Mark .comma) (e : Mark p) (ts us : List Token),
      c.token :: ts ≠ e.token :: us :=
    fun c e ts us => c.cons_ne e fun comma => other (TokenKind.punct.inj comma).symm
  induction xs generalizing ys with
  | nil =>
    cases ys with
    | nil =>
      obtain ⟨marks, rfl⟩ := List.cons.inj more
      exact ⟨rfl, Tok.ext marks, rfl⟩
    | cons q ys => exact absurd more.symm (ends q.1 m _ _)
  | cons q xs ih =>
    cases ys with
    | nil => exact absurd more (ends q.1 m' _ _)
    | cons q' ys =>
      simp only [yieldMore, List.flatMap_cons, List.cons_append, List.append_assoc,
        List.cons.injEq] at more
      obtain ⟨item, rest⟩ := each more.2 (separated_more yield xs m r)
        (separated_more yield ys m' r')
      obtain ⟨rfl, others⟩ := ih ys rest
      exact ⟨by rw [Prod.ext (Tok.ext more.1) item], others⟩

end Listed

theorem Separated.stops {p : Punct} {r : List Token} (separated : Separated p r)
    (closes : binds (.punct p) = 0) : Stops .expr r := by
  cases r with
  | nil => trivial
  | cons t r =>
    show binds t.kind < 1
    rcases separated with comma | mark
    · rw [comma]
      decide
    · rw [mark, closes]
      decide

theorem Separated.not_assign {p : Punct} {mark : Mark .assign} {r : List Token}
    (other : p ≠ .assign) : ¬ Separated p (mark.token :: r) := by
  rw [Separated, mark.kind]
  simpa using other.symm

theorem ItemPhrase.unique ⦃a b : ItemPhrase⦄ ⦃r r' : List Token⦄
    (same : a.yield ++ r = b.yield ++ r') (ends : Separated .semicolon r)
    (ends' : Separated .semicolon r') : a = b ∧ r = r' := by
  obtain ⟨name, init⟩ := a
  obtain ⟨name', init'⟩ := b
  obtain ⟨names, behind⟩ := List.cons.inj same
  obtain rfl := Tok.ext names
  cases init with
  | none =>
    cases init' with
    | none => exact ⟨rfl, behind⟩
    | some q =>
      cases behind
      exact absurd ends (Separated.not_assign (by decide))
  | some q =>
    cases init' with
    | none =>
      cases behind
      exact absurd ends' (Separated.not_assign (by decide))
    | some q' =>
      obtain ⟨marks, rest⟩ := List.cons.inj behind
      obtain ⟨values, rfl⟩ := q.2.isOnly rest (ends.stops rfl) (ends'.stops rfl)
      exact ⟨by rw [Prod.ext (Tok.ext marks) values], rfl⟩

theorem Condition.unique {a b : Condition}
    (same : a.yield ++ r = b.yield ++ r') : a = b ∧ r = r' := by
  obtain ⟨opening, x, closing⟩ := a
  obtain ⟨opening', x', closing'⟩ := b
  simp only [yield, List.cons_append, List.append_assoc, List.nil_append] at same
  obtain ⟨rfl, rfl, rfl, rfl⟩ := x.isOnly.enclosed rfl same
  exact ⟨rfl, rfl⟩

theorem Counter.binds {down : Bool} (known : Counter k down) : binds k = 0 := by
  cases known <;> rfl

theorem Counter.kind_ne {down : Bool} (known : Counter k down) :
    k ≠ .punct .assign ∧ k ≠ .punct .semicolon := by
  cases known <;> exact ⟨nofun, nofun⟩

namespace Tail

variable {e : Expr} {m m' : Mark .semicolon} {r r' : List Token}

theorem stops (tail : Tail e) : Stops .expr (tail.yield ++ m.token :: r) := by
  cases tail with
  | assign place mark value => exact mark.stops_iff.2 (by decide)
  | count p name is mark down known =>
    show Grammar.binds mark.kind < 1
    rw [known.binds]
    decide
  | none => exact m.stops_iff.2 (by decide)

theorem unique {a b : Tail e} (same : a.yield ++ m.token :: r = b.yield ++ m'.token :: r') :
    a = b ∧ m = m' ∧ r = r' := by
  cases a with
  | assign place mark value =>
    cases b with
    | assign place' mark' value' =>
      obtain ⟨marks, rest⟩ := List.cons.inj same
      obtain ⟨rfl, behind⟩ := value.isOnly rest (m.stops_iff.2 (by decide))
        (m'.stops_iff.2 (by decide))
      obtain ⟨ends, rfl⟩ := List.cons.inj behind
      exact ⟨by rw [Tok.ext marks], Tok.ext ends, rfl⟩
    | count p name is mark' down known =>
      exact absurd mark.kind ((List.cons.inj same).1 ▸ known.kind_ne.1)
    | none => exact absurd same (mark.cons_ne m' (by decide))
  | count p name is mark down known =>
    cases b with
    | assign place mark' value =>
      exact absurd mark'.kind ((List.cons.inj same).1 ▸ known.kind_ne.1)
    | count p' name' is' mark' down' known' =>
      obtain ⟨rfl, behind⟩ := List.cons.inj same
      obtain ⟨ends, rfl⟩ := List.cons.inj behind
      obtain ⟨rfl, rfl⟩ := Expr.ident.inj (is.symm.trans is')
      obtain rfl := known.unique known'
      exact ⟨rfl, Tok.ext ends, rfl⟩
    | none => exact absurd m'.kind ((List.cons.inj same).1 ▸ known.kind_ne.2)
  | none =>
    cases b with
    | assign place mark' value => exact absurd same (m.cons_ne mark' (by decide))
    | count p name is mark' down known =>
      exact absurd m.kind ((List.cons.inj same).1 ▸ known.kind_ne.2)
    | none =>
      obtain ⟨ends, rfl⟩ := List.cons.inj same
      exact ⟨rfl, Tok.ext ends, rfl⟩

end Tail

/-- The forms of statements, each with its own first tokens; the end of a block, and what none
of them starts with. -/
inductive Form where
  | empty | block | decl | ret | cond | loop | each | simple | close | stray

def formOf : TokenKind → Form
  | .punct .semicolon => .empty
  | .punct .lbrace => .block
  | .keyword .intWord | .keyword .doubleWord | .keyword .booleanWord | .keyword .voidWord => .decl
  | .keyword .returnWord => .ret
  | .keyword .ifWord => .cond
  | .keyword .whileWord => .loop
  | .keyword .forWord => .each
  | .punct .rbrace => .close
  | k => if startsExpr k then .simple else .stray

theorem formOf_expr (starts : startsExpr k = true) : formOf k = .simple := by
  unfold formOf
  split <;> first | cases starts | exact if_pos starts

theorem BaseWord.form {b : Base} (names : BaseWord k b) : formOf k = .decl := by
  cases names <;> rfl

namespace StmtPhrase

def form : {s : StmtSym} → StmtPhrase s → Form
  | _, .empty _ => .empty
  | _, .block _ _ => .block
  | _, .decl _ _ _ => .decl
  | _, .ret _ _ _ => .ret
  | _, .ifThen _ _ _ | _, .ifElse _ _ _ _ _ => .cond
  | _, .while _ _ _ => .loop
  | _, .forEach _ _ _ _ _ _ _ _ => .each
  | _, .simple _ _ _ => .simple
  | _, .closed _ => .close
  | _, .inner s _ => s.form

/-- The first token tells the form. -/
theorem first {s : StmtSym} (d : StmtPhrase s) :
    ∃ t rest, d.yield = t :: rest ∧ formOf t.kind = d.form := by
  induction d with
  | empty mark => exact ⟨_, _, rfl, by rw [mark.kind]; rfl⟩
  | block opening => exact ⟨_, _, rfl, by rw [opening.kind]; rfl⟩
  | decl type => exact ⟨_, _, rfl, type.names.form⟩
  | ret word => exact ⟨_, _, rfl, by rw [word.kind]; rfl⟩
  | ifThen word => exact ⟨_, _, rfl, by rw [word.kind]; rfl⟩
  | ifElse word => exact ⟨_, _, rfl, by rw [word.kind]; rfl⟩
  | «while» word => exact ⟨_, _, rfl, by rw [word.kind]; rfl⟩
  | forEach word => exact ⟨_, _, rfl, by rw [word.kind]; rfl⟩
  | simple x =>
    obtain ⟨t, rest, yields, starts⟩ := x.first rfl
    exact ⟨t, _, by rw [yield, yields]; rfl, formOf_expr starts⟩
  | closed closing => exact ⟨_, _, rfl, by rw [closing.kind]; rfl⟩
  | inner s rest ih _ =>
    obtain ⟨t, others, yields, form⟩ := ih
    exact ⟨t, _, by rw [yield, yields]; rfl, form⟩

theorem form_eq {s s' : StmtSym} {d : StmtPhrase s} {d' : StmtPhrase s'} {r r' : List Token}
    (same : d.yield ++ r = d'.yield ++ r') : d.form = d'.form := by
  obtain ⟨t, rest, yields, form⟩ := d.first
  obtain ⟨t', rest', yields', form'⟩ := d'.first
  rw [yields, yields'] at same
  rw [← form, ← form', (List.cons.inj same).1]

theorem form_ne_close {hanging : Bool} (d : StmtPhrase (.stmt hanging)) : d.form ≠ .close := by
  cases d <;> nofun

theorem form_ne_stray {s : StmtSym} (d : StmtPhrase s) : d.form ≠ .stray := by
  induction d with
  | inner s rest ih _ => exact ih
  | _ => nofun

end StmtPhrase

def StmtSym.isStmt : StmtSym → Bool
  | .stmt _ => true
  | .body => false

def NoElse : List Token → Prop
  | t :: _ => t.kind ≠ .keyword .elseWord
  | [] => True

/-- An alternative does not come first if it would be part of the statement before it. -/
def StmtStops : StmtSym → List Token → Prop
  | .stmt true, r => NoElse r
  | _, _ => True

theorem NoElse.stops {r : List Token} (none : NoElse r) (s : StmtSym) : StmtStops s r := by
  match s with
  | .stmt true => exact none
  | .stmt false => trivial
  | .body => trivial

theorem StmtPhrase.noElse {s : StmtSym} (d : StmtPhrase s) (r : List Token) :
    NoElse (d.yield ++ r) := by
  obtain ⟨t, rest, yields, form⟩ := d.first
  rw [yields]
  intro alternative
  rw [alternative] at form
  exact d.form_ne_stray form.symm

theorem noPair_ident (name : Tok .ident) {r : List Token} : NoPair (name.token :: r) := by
  cases r with
  | nil => trivial
  | cons t r =>
    rintro ⟨bracket, -⟩
    cases name.kind.symm.trans bracket

theorem noPair_items (items : Listed ItemPhrase) {r : List Token} :
    NoPair (items.yield ItemPhrase.yield ++ r) :=
  noPair_ident items.first.name

theorem value_unique {a b : Option (Phrase .expr)} {m m' : Mark .semicolon}
    (same : StmtPhrase.yieldValue a ++ m.token :: r = StmtPhrase.yieldValue b ++ m'.token :: r') :
    a = b ∧ m = m' ∧ r = r' := by
  have never : ∀ (x : Phrase .expr) (mark : Mark .semicolon) (ts us : List Token),
      x.yield ++ ts ≠ mark.token :: us :=
    fun x mark ts us => x.yield_ne rfl (by rw [mark.kind]; rfl)
  cases a with
  | none =>
    cases b with
    | none =>
      obtain ⟨marks, rfl⟩ := List.cons.inj same
      exact ⟨rfl, Tok.ext marks, rfl⟩
    | some x' => exact absurd same.symm (never x' m _ _)
  | some x =>
    cases b with
    | none => exact absurd same (never x m' _ _)
    | some x' =>
      obtain ⟨rfl, rest⟩ := x.isOnly same (m.stops_iff.2 (by decide))
        (m'.stops_iff.2 (by decide))
      obtain ⟨marks, rfl⟩ := List.cons.inj rest
      exact ⟨rfl, Tok.ext marks, rfl⟩

/-- Where the phrase stands at the start of some tokens it is the only statement, or the only
rest of a block. -/
def StmtPhrase.IsOnly {s : StmtSym} (d : StmtPhrase s) : Prop :=
  ∀ ⦃s' : StmtSym⦄ ⦃d' : StmtPhrase s'⦄ ⦃r r' : List Token⦄, d.yield ++ r = d'.yield ++ r' →
    s.isStmt = s'.isStmt → StmtStops s r → StmtStops s' r' →
    (⟨s, d⟩ : Sigma StmtPhrase) = ⟨s', d'⟩ ∧ r = r'

theorem StmtPhrase.IsOnly.empty {mark : Mark .semicolon} : (StmtPhrase.empty mark).IsOnly := by
  intro s' d' r r' same alike stops stops'
  cases d' with
  | empty mark' =>
    obtain ⟨marks, rfl⟩ := List.cons.inj same
    obtain rfl := Tok.ext marks
    exact ⟨rfl, rfl⟩
  | inner => cases alike
  | _ => cases form_eq same

theorem StmtPhrase.IsOnly.block {opening : Mark .lbrace} {body : StmtPhrase .body}
    (inside : body.IsOnly) : (StmtPhrase.block opening body).IsOnly := by
  intro s' d' r r' same alike stops stops'
  cases d' with
  | block opening' body' =>
    obtain ⟨opens, rest⟩ := List.cons.inj same
    obtain rfl := Tok.ext opens
    obtain ⟨⟨⟩, rfl⟩ := inside rest rfl trivial trivial
    exact ⟨rfl, rfl⟩
  | inner => cases alike
  | _ => cases form_eq same

theorem StmtPhrase.IsOnly.decl {type : TypePhrase} {items : Listed ItemPhrase}
    {mark : Mark .semicolon} : (StmtPhrase.decl type items mark).IsOnly := by
  intro s' d' r r' same alike stops stops'
  cases d' with
  | decl type' items' mark' =>
    simp only [yield, List.append_assoc, List.cons_append, List.nil_append] at same
    obtain ⟨rfl, rest⟩ := type.unique same (noPair_items items) (noPair_items items')
    obtain ⟨rfl, rfl, rfl⟩ := Listed.unique (by decide) ItemPhrase.unique rest
    exact ⟨rfl, rfl⟩
  | inner => cases alike
  | _ => cases form_eq same

theorem StmtPhrase.IsOnly.ret {word : Word .returnWord} {value : Option (Phrase .expr)}
    {mark : Mark .semicolon} : (StmtPhrase.ret word value mark).IsOnly := by
  intro s' d' r r' same alike stops stops'
  cases d' with
  | ret word' value' mark' =>
    simp only [yield, List.append_assoc, List.cons_append, List.nil_append,
      List.cons.injEq] at same
    obtain rfl := Tok.ext same.1
    obtain ⟨rfl, rfl, rfl⟩ := value_unique same.2
    exact ⟨rfl, rfl⟩
  | inner => cases alike
  | _ => cases form_eq same

/-- A condition without `else` cannot be read with one. -/
theorem StmtPhrase.IsOnly.ifThen {word : Word .ifWord}
    {yes : StmtPhrase (.stmt hanging)} (inside : yes.IsOnly) :
    (StmtPhrase.ifThen word cond yes).IsOnly := by
  intro s' d' r r' same alike stops stops'
  cases d' with
  | ifThen word' cond' yes' =>
    simp only [yield, List.append_assoc, List.cons_append, List.cons.injEq] at same
    obtain rfl := Tok.ext same.1
    obtain ⟨rfl, rest⟩ := Condition.unique same.2
    obtain ⟨⟨⟩, rfl⟩ := inside rest rfl (stops.stops _) (stops'.stops _)
    exact ⟨rfl, rfl⟩
  | ifElse word' cond' yes' alternative no =>
    simp only [yield, List.append_assoc, List.cons_append, List.cons.injEq] at same
    obtain ⟨-, rest⟩ := Condition.unique same.2
    -- What the first branch stops before is the alternative, which is refused there.
    obtain ⟨-, rfl⟩ := inside rest rfl (stops.stops _) trivial
    exact absurd alternative.kind stops
  | inner => cases alike
  | _ => cases form_eq same

/-- An `else` belongs to one condition. -/
theorem StmtPhrase.IsOnly.ifElse {word : Word .ifWord}
    {yes : StmtPhrase (.stmt false)} {alternative : Word .elseWord}
    {no : StmtPhrase (.stmt hanging)} (inside : yes.IsOnly) (otherwise : no.IsOnly) :
    (StmtPhrase.ifElse word cond yes alternative no).IsOnly := by
  intro s' d' r r' same alike stops stops'
  cases d' with
  | ifThen word' cond' yes' =>
    simp only [yield, List.append_assoc, List.cons_append, List.cons.injEq] at same
    obtain ⟨-, rest⟩ := Condition.unique same.2
    obtain ⟨-, rfl⟩ := inside rest rfl trivial (stops'.stops _)
    exact absurd alternative.kind stops'
  | ifElse word' cond' yes' alternative' no' =>
    simp only [yield, List.append_assoc, List.cons_append, List.cons.injEq] at same
    obtain rfl := Tok.ext same.1
    obtain ⟨rfl, rest⟩ := Condition.unique same.2
    obtain ⟨⟨⟩, behind⟩ := inside rest rfl trivial trivial
    obtain ⟨alternatives, others⟩ := List.cons.inj behind
    obtain rfl := Tok.ext alternatives
    obtain ⟨⟨⟩, rfl⟩ := otherwise others rfl stops stops'
    exact ⟨rfl, rfl⟩
  | inner => cases alike
  | _ => cases form_eq same

theorem StmtPhrase.IsOnly.while {word : Word .whileWord}
    {body : StmtPhrase (.stmt hanging)} (inside : body.IsOnly) :
    (StmtPhrase.while word cond body).IsOnly := by
  intro s' d' r r' same alike stops stops'
  cases d' with
  | «while» word' cond' body' =>
    simp only [yield, List.append_assoc, List.cons_append, List.cons.injEq] at same
    obtain rfl := Tok.ext same.1
    obtain ⟨rfl, rest⟩ := Condition.unique same.2
    obtain ⟨⟨⟩, rfl⟩ := inside rest rfl stops stops'
    exact ⟨rfl, rfl⟩
  | inner => cases alike
  | _ => cases form_eq same

theorem StmtPhrase.IsOnly.forEach {word : Word .forWord} {opening : Mark .lparen}
    {elem : TypePhrase} {name : Tok .ident} {colon : Mark .colon} {array : Phrase .expr}
    {closing : Mark .rparen} {body : StmtPhrase (.stmt hanging)} (inside : body.IsOnly) :
    (StmtPhrase.forEach word opening elem name colon array closing body).IsOnly := by
  intro s' d' r r' same alike stops stops'
  cases d' with
  | forEach word' opening' elem' name' colon' array' closing' body' =>
    simp only [yield, List.append_assoc, List.cons_append, List.cons.injEq] at same
    obtain rfl := Tok.ext same.1
    obtain rfl := Tok.ext same.2.1
    obtain ⟨rfl, rest⟩ := elem.unique same.2.2 (noPair_ident name) (noPair_ident name')
    simp only [List.cons.injEq] at rest
    obtain rfl := Tok.ext rest.1
    obtain rfl := Tok.ext rest.2.1
    obtain ⟨rfl, behind⟩ := array.isOnly rest.2.2 (closing.stops_iff.2 (by decide))
      (closing'.stops_iff.2 (by decide))
    obtain ⟨closes, others⟩ := List.cons.inj behind
    obtain rfl := Tok.ext closes
    obtain ⟨⟨⟩, rfl⟩ := inside others rfl stops stops'
    exact ⟨rfl, rfl⟩
  | inner => cases alike
  | _ => cases form_eq same

theorem StmtPhrase.IsOnly.simple {x : Phrase .expr} {tail : Tail x.tree} {mark : Mark .semicolon} :
    (StmtPhrase.simple x tail mark).IsOnly := by
  intro s' d' r r' same alike stops stops'
  cases d' with
  | simple x' tail' mark' =>
    simp only [yield, List.append_assoc, List.cons_append, List.nil_append] at same
    obtain ⟨rfl, rest⟩ := x.isOnly same tail.stops tail'.stops
    obtain ⟨rfl, rfl, rfl⟩ := Tail.unique rest
    exact ⟨rfl, rfl⟩
  | inner => cases alike
  | _ => cases form_eq same

theorem StmtPhrase.IsOnly.closed {closing : Mark .rbrace} : (StmtPhrase.closed closing).IsOnly := by
  intro s' d' r r' same alike stops stops'
  cases d' with
  | closed closing' =>
    obtain ⟨closes, rfl⟩ := List.cons.inj same
    obtain rfl := Tok.ext closes
    exact ⟨rfl, rfl⟩
  | inner s rest => exact absurd (form_eq same).symm s.form_ne_close
  | _ => cases alike

theorem StmtPhrase.IsOnly.inner {s : StmtPhrase (.stmt hanging)}
    {rest : StmtPhrase .body} (first : s.IsOnly) (last : rest.IsOnly) :
    (StmtPhrase.inner s rest).IsOnly := by
  intro s' d' r r' same alike stops stops'
  cases d' with
  | closed closing => exact absurd (form_eq same) s.form_ne_close
  | inner t rest' =>
    simp only [yield, List.append_assoc] at same
    obtain ⟨⟨⟩, behind⟩ := first same rfl ((rest.noElse r).stops _) ((rest'.noElse r').stops _)
    obtain ⟨⟨⟩, rfl⟩ := last behind rfl trivial trivial
    exact ⟨rfl, rfl⟩
  | _ => cases alike

/-- No other statement has the same tokens. -/
theorem StmtPhrase.isOnly {s : StmtSym} (d : StmtPhrase s) : d.IsOnly := by
  induction d with
  | empty mark => exact .empty
  | block opening body ih => exact .block ih
  | decl type items mark => exact .decl
  | ret word value mark => exact .ret
  | ifThen word cond yes ih => exact .ifThen ih
  | ifElse word cond yes alternative no ihyes ihno => exact .ifElse ihyes ihno
  | «while» word cond body ih => exact .while ih
  | forEach word opening elem name colon array closing body ih => exact .forEach ih
  | simple x tail mark => exact .simple
  | closed closing => exact .closed
  | inner s rest ihs ihrest => exact .inner ihs ihrest

/-! ## Programs -/

theorem ParamPhrase.unique ⦃a b : ParamPhrase⦄ ⦃r r' : List Token⦄
    (same : a.yield ++ r = b.yield ++ r') : a = b ∧ r = r' := by
  obtain ⟨type, name⟩ := a
  obtain ⟨type', name'⟩ := b
  simp only [yield, List.append_assoc, List.cons_append, List.nil_append] at same
  obtain ⟨rfl, rest⟩ := type.unique same (noPair_ident name) (noPair_ident name')
  obtain ⟨names, rfl⟩ := List.cons.inj rest
  exact ⟨by rw [Tok.ext names], rfl⟩

theorem params_unique {a b : Option (Listed ParamPhrase)} {m m' : Mark .rparen}
    (same : FunctionPhrase.yieldParams a ++ m.token :: r =
      FunctionPhrase.yieldParams b ++ m'.token :: r') : a = b ∧ m = m' ∧ r = r' := by
  have never : ∀ (qs : Listed ParamPhrase) (mark : Mark .rparen) (ts us : List Token),
      qs.yield ParamPhrase.yield ++ ts ≠ mark.token :: us := by
    intro qs mark ts us starts
    have names := qs.first.type.names
    rw [show qs.first.type.word = mark.token from (List.cons.inj starts).1, mark.kind] at names
    cases names
  cases a with
  | none =>
    cases b with
    | none =>
      obtain ⟨marks, rfl⟩ := List.cons.inj same
      exact ⟨rfl, Tok.ext marks, rfl⟩
    | some qs' => exact absurd same.symm (never qs' m _ _)
  | some qs =>
    cases b with
    | none => exact absurd same (never qs m' _ _)
    | some qs' =>
      obtain ⟨rfl, marks, rest⟩ := Listed.unique (by decide)
        (fun _ _ _ _ same _ _ => ParamPhrase.unique same) same
      exact ⟨rfl, marks, rest⟩

/-- A function is split off in one way. -/
theorem FunctionPhrase.unique {f g : FunctionPhrase}
    (same : f.yield ++ r = g.yield ++ r') : f = g ∧ r = r' := by
  obtain ⟨ret, name, opening, params, closing, brace, body⟩ := f
  obtain ⟨ret', name', opening', params', closing', brace', body'⟩ := g
  simp only [yield, List.append_assoc, List.cons_append] at same
  obtain ⟨rfl, behind⟩ := ret.unique same (noPair_ident name) (noPair_ident name')
  simp only [List.cons.injEq] at behind
  obtain rfl := Tok.ext behind.1
  obtain rfl := Tok.ext behind.2.1
  obtain ⟨rfl, rfl, rest⟩ := params_unique behind.2.2
  obtain ⟨braces, inside⟩ := List.cons.inj rest
  obtain rfl := Tok.ext braces
  obtain ⟨⟨⟩, rfl⟩ := body.isOnly inside rfl trivial trivial
  exact ⟨rfl, rfl⟩

/-- Tokens have at most one derivation. -/
theorem ProgramPhrase.unique {p q : ProgramPhrase} (same : p.yield = q.yield) : p = q := by
  induction p generalizing q with
  | nil =>
    cases q with
    | nil => rfl
    | cons g q => cases same
  | cons f p ih =>
    cases q with
    | nil => cases same
    | cons g q =>
      simp only [yield, List.flatMap_cons] at same
      obtain ⟨rfl, rest⟩ := FunctionPhrase.unique same
      rw [ih rest]

end ImpCompiler.Grammar
