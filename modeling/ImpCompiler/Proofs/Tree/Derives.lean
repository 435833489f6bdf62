import ImpCompiler.Proofs.Token.Layout
import ImpCompiler.Proofs.Tree.Accepts

/-!
# Proofs.Tree.Derives — the parser answers derivations only

What the parser reads is a phrase of the grammar, and it answers the tree of the phrase. The
bounds have to leave room for all tokens there: a repetition that ran out of its bound would
end without what closes it. As every phrase is read and no two have the same tokens, the
parser accepts the grammar (`parser_accepts_the_grammar`).
-/

namespace ImpCompiler.Parser

set_option autoImplicit false

open Grammar

variable {α β : Type} {ts r : List Token} {n : Nat}

/-! ## Tokens -/

theorem bind_ok {x : Parser α} {f : α → Parser β} {b : β}
    (ran : (x >>= f) ts = .ok (b, r)) : ∃ a ts', x ts = .ok (a, ts') ∧ f a ts' = .ok (b, r) := by
  change (x ts >>= fun q => f q.1 q.2) = .ok (b, r) at ran
  cases known : x ts with
  | error e =>
    rw [known] at ran
    cases ran
  | ok q =>
    rw [known] at ran
    exact ⟨q.1, q.2, rfl, ran⟩

theorem cons_of_first {ts : List Token} (real : (first ts).kind ≠ .eof) :
    ts = first ts :: behind ts := by
  cases ts with
  | nil => exact absurd rfl real
  | cons t ts => simp [first, behind, show t.kind ≠ .eof from real]

theorem cons_of_kind {k : TokenKind} {ts : List Token} (kind : (first ts).kind = k)
    (real : k ≠ .eof) : ts = first ts :: behind ts :=
  cons_of_first (kind ▸ real)

theorem expect_ok {k : TokenKind} {t : Token} (ran : expect k ts = .ok (t, r)) (real : k ≠ .eof) :
    ∃ tok : Tok k, t = tok.token ∧ ts = tok.token :: r := by
  obtain ⟨u, ts', ⟨⟩, ran⟩ := bind_ok ran
  split at ran
  · rename_i kind
    cases ran
    exact ⟨⟨first ts, kind⟩, rfl, cons_of_kind kind real⟩
  · cases ran

/-- A token is taken exactly if it is of the kind that is asked for. -/
theorem got_ok {k : TokenKind} {b : Bool} (ran : got k ts = .ok (b, r)) (real : k ≠ .eof) :
    (b = true ∧ ∃ tok : Tok k, ts = tok.token :: r) ∨
      (b = false ∧ r = ts ∧ (first ts).kind ≠ k) := by
  obtain ⟨u, ts', ⟨⟩, ran⟩ := bind_ok ran
  split at ran
  · rename_i kind
    obtain ⟨t, ts', took, ran⟩ := bind_ok ran
    cases took
    cases ran
    exact .inl ⟨rfl, ⟨first ts, kind⟩, cons_of_kind kind real⟩
  · rename_i other
    cases ran
    exact .inr ⟨rfl, rfl, other⟩

/-- A repetition stops, or takes a step and goes on. -/
theorem many_ok {step : Parser (Option α)} {as : List α}
    (ran : many step (n + 1) ts = .ok (as, r)) :
    (as = [] ∧ step ts = .ok (none, r)) ∨
      ∃ a as' ts', as = a :: as' ∧ step ts = .ok (some a, ts') ∧
        many step n ts' = .ok (as', r) := by
  obtain ⟨o, ts', first, ran⟩ := bind_ok ran
  cases o with
  | none =>
    cases ran
    exact .inl ⟨rfl, first⟩
  | some a =>
    obtain ⟨rest, ts'', others, ran⟩ := bind_ok ran
    cases ran
    exact .inr ⟨a, rest, ts', rfl, first, others⟩

theorem nextArg_ok {part : Parser α} {o : Option α} (ran : nextArg part ts = .ok (o, r)) :
    (∃ closing : Mark .rparen, ts = closing.token :: r ∧ o = none) ∨
      ∃ (comma : Mark .comma) (ts' : List Token) (a : α), ts = comma.token :: ts' ∧
        part ts' = .ok (a, r) ∧ o = some a := by
  obtain ⟨b, ts', took, after⟩ := bind_ok ran
  rcases got_ok took (by decide) with ⟨rfl, closing, rfl⟩ | ⟨rfl, rfl, -⟩
  · cases after
    exact .inl ⟨closing, rfl, rfl⟩
  · obtain ⟨c, us, separated, after⟩ := bind_ok after
    obtain ⟨a, vs, read, after⟩ := bind_ok after
    cases after
    obtain ⟨comma, rfl, rfl⟩ := expect_ok separated (by decide)
    exact .inr ⟨comma, us, a, rfl, read, rfl⟩

/-! ## Types -/

theorem pairs_ok (ts : List Token) :
    ∃ ps, ts = TypePhrase.yieldPairs ps ++ (pairs ts).2 ∧ ps.length = (pairs ts).1 := by
  fun_induction pairs ts with
  | case1 a b rest pair ih =>
    obtain ⟨ps, whole, length⟩ := ih
    refine ⟨(⟨a, pair.1⟩, ⟨b, pair.2⟩) :: ps, ?_, by rw [List.length_cons, length]⟩
    show a :: b :: rest = a :: b :: (TypePhrase.yieldPairs ps ++ (pairs rest).2)
    rw [← whole]
  | case2 a b rest other => exact ⟨[], rfl, rfl⟩
  | case3 ts short => exact ⟨[], rfl, rfl⟩

theorem type_ok {t : Ty} (ran : type ts = .ok (t, r)) :
    ∃ d : TypePhrase, ts = d.yield ++ r ∧ d.tree = t := by
  obtain ⟨word, ts', took, ran⟩ := bind_ok ran
  cases took
  cases known : base? (first ts).kind with
  | none =>
    simp only [known] at ran
    cases ran
  | some b =>
    simp only [known] at ran
    have names := base?_iff.1 known
    have whole := cons_of_first fun eof => by cases eof ▸ names
    obtain ⟨ps, rest, length⟩ := pairs_ok (behind ts)
    cases ran
    refine ⟨⟨first ts, b, names, ps⟩, ?_, by rw [TypePhrase.tree, length]⟩
    rw [TypePhrase.yield, List.cons_append, ← rest, ← whole]

/-! ## Expressions -/

/-- The parser answers trees of expressions, if there are fewer tokens than `n`. -/
def ExprDerives (part : Parser Expr) (n : Nat) : Prop :=
  ∀ ⦃ts r : List Token⦄ ⦃e : Expr⦄, ts.length < n → part ts = .ok (e, r) →
    ∃ d : Phrase .expr, ts = d.yield ++ r ∧ d.tree = e

section Steps

variable {part : Parser Expr} {ts r : List Token}

theorem link_ok {l : Level} {o : Option Link} (ran : link (levelOp? l) part ts = .ok (o, r)) :
    (o = none ∧ r = ts) ∨ ∃ t op x ts', Operator l t.kind op ∧ ts = t :: ts' ∧
      part ts' = .ok (x, r) ∧ o = some ⟨t.pos, op, x⟩ := by
  obtain ⟨t, ts', ⟨⟩, ran⟩ := bind_ok ran
  cases found : levelOp? l (first ts).kind with
  | none =>
    simp only [found] at ran
    cases ran
    exact .inl ⟨rfl, rfl⟩
  | some op =>
    simp only [found] at ran
    obtain ⟨u, ts', ⟨⟩, ran⟩ := bind_ok ran
    obtain ⟨x, ts', read, ran⟩ := bind_ok ran
    cases ran
    have known := levelOp?_iff.1 found
    exact .inr ⟨_, op, x, _, known, cons_of_first (fun eof => by cases eof ▸ known), read, rfl⟩

theorem sign_ok {o : Option (Pos × UnOp)} (ran : sign ts = .ok (o, r)) :
    (o = none ∧ r = ts) ∨ ∃ t op, Sign t.kind op ∧ ts = t :: r ∧ o = some (t.pos, op) := by
  obtain ⟨t, ts', ⟨⟩, ran⟩ := bind_ok ran
  cases found : unOp? (first ts).kind with
  | none =>
    simp only [found] at ran
    cases ran
    exact .inl ⟨rfl, rfl⟩
  | some op =>
    simp only [found] at ran
    obtain ⟨u, ts', ⟨⟩, ran⟩ := bind_ok ran
    cases ran
    have known := unOp?_iff.1 found
    exact .inr ⟨_, op, known, cons_of_first (fun eof => by cases eof ▸ known), rfl⟩

theorem suffix_ok {o : Option Suffix} (ran : suffix part ts = .ok (o, r)) :
    (o = none ∧ r = ts) ∨
    (∃ (opening : Mark .lbracket) (closing : Mark .rbracket) (ts' : List Token) (x : Expr),
      ts = opening.token :: ts' ∧ part ts' = .ok (x, closing.token :: r) ∧
        o = some (.index opening.pos x)) ∨
    ∃ (dot : Mark .dot) (name : Tok .ident), ts = dot.token :: name.token :: r ∧
      o = some (.member dot.pos name.value) := by
  obtain ⟨t, ts', ⟨⟩, ran⟩ := bind_ok ran
  generalize kind : (first ts).kind = k at ran
  split at ran
  · obtain ⟨u, ts', ⟨⟩, ran⟩ := bind_ok ran
    obtain ⟨x, ts', read, ran⟩ := bind_ok ran
    obtain ⟨c, ts'', took, ran⟩ := bind_ok ran
    cases ran
    obtain ⟨closing, rfl, rfl⟩ := expect_ok took (by decide)
    exact .inr (.inl ⟨⟨first ts, kind⟩, closing, _, x, cons_of_kind kind (by decide), read, rfl⟩)
  · obtain ⟨u, ts', ⟨⟩, ran⟩ := bind_ok ran
    obtain ⟨m, ts', took, ran⟩ := bind_ok ran
    cases ran
    obtain ⟨name, rfl, behind⟩ := expect_ok took (by decide)
    refine .inr (.inr ⟨⟨first ts, kind⟩, name, ?_, rfl⟩)
    rw [← behind]
    exact cons_of_kind kind (by decide)
  · cases ran
    exact .inl ⟨rfl, rfl⟩

theorem nextSize_ok {o : Option Expr} (ran : nextSize part ts = .ok (o, r)) :
    (o = none ∧ r = ts ∧ (first ts).kind ≠ .punct .lbracket) ∨
      ∃ (opening : Mark .lbracket) (closing : Mark .rbracket) (ts' : List Token) (x : Expr),
        ts = opening.token :: ts' ∧ part ts' = .ok (x, closing.token :: r) ∧ o = some x := by
  obtain ⟨b, ts', took, after⟩ := bind_ok ran
  rcases got_ok took (by decide) with ⟨rfl, opening, rfl⟩ | ⟨rfl, rfl, other⟩
  · obtain ⟨x, us, read, after⟩ := bind_ok after
    obtain ⟨c, vs, closed, after⟩ := bind_ok after
    cases after
    obtain ⟨closing, rfl, rfl⟩ := expect_ok closed (by decide)
    exact .inr ⟨opening, closing, ts', x, rfl, read, rfl⟩
  · cases after
    exact .inl ⟨rfl, rfl, other⟩

end Steps

section Expressions

-- Nested expressions stand behind a token at least, so there are fewer tokens for them.
variable {part : Parser Expr} (inner : ExprDerives part n) {k : Nat} {e : Expr}

include inner

theorem suffixes_ok {ss : List Suffix} (room : ts.length ≤ n)
    (ran : many (suffix part) k ts = .ok (ss, r)) :
    ∃ d : Phrase (.suffixes true), ts = d.yield ++ r ∧ ∀ x, d.tree x = ss.foldl Suffix.apply x := by
  induction k generalizing ts ss with
  | zero =>
    cases ran
    exact ⟨.noSuffix, rfl, fun x => rfl⟩
  | succ k ih =>
    rcases many_ok ran with ⟨rfl, last⟩ | ⟨s, ss, ts', rfl, first, others⟩
    · rcases suffix_ok last with ⟨-, rfl⟩ | ⟨_, _, _, _, -, -, ⟨⟩⟩ | ⟨_, _, -, ⟨⟩⟩
      exact ⟨.noSuffix, rfl, fun x => rfl⟩
    · rcases suffix_ok first with ⟨⟨⟩, -⟩ | ⟨opening, closing, us, i, rfl, read, ⟨⟩⟩ |
        ⟨dot, name, rfl, ⟨⟩⟩
      · obtain ⟨d, rfl, rfl⟩ := inner room read
        simp only [List.length_cons, List.length_append] at room
        obtain ⟨more, rfl, whole⟩ := ih (by omega) others
        refine ⟨.index opening d closing more, ?_, fun x => whole _⟩
        simp only [Phrase.yield, List.cons_append, List.append_assoc]
      · simp only [List.length_cons] at room
        obtain ⟨more, rfl, whole⟩ := ih (by omega) others
        exact ⟨.member dot name more, rfl, fun x => whole _⟩

/-- All brackets are read as sizes. -/
theorem sizes_ok {es : List Expr} (room : ts.length ≤ n) (enough : ts.length ≤ k)
    (ran : many (nextSize part) k ts = .ok (es, r)) :
    (first r).kind ≠ .punct .lbracket ∧
      ((es = [] ∧ r = ts) ∨ ∃ d : Phrase .sizes, ts = d.yield ++ r ∧ d.tree = es) := by
  induction k generalizing ts es with
  | zero =>
    cases ran
    cases List.length_eq_zero_iff.1 (Nat.le_zero.1 enough)
    exact ⟨nofun, .inl ⟨rfl, rfl⟩⟩
  | succ k ih =>
    rcases many_ok ran with ⟨rfl, last⟩ | ⟨e, es, ts', rfl, first, others⟩
    · rcases nextSize_ok last with ⟨-, rfl, other⟩ | ⟨_, _, _, _, -, -, ⟨⟩⟩
      exact ⟨other, .inl ⟨rfl, rfl⟩⟩
    · rcases nextSize_ok first with ⟨⟨⟩, -⟩ | ⟨opening, closing, us, i, rfl, read, ⟨⟩⟩
      obtain ⟨d, rfl, rfl⟩ := inner room read
      simp only [List.length_cons, List.length_append] at room enough
      obtain ⟨other, ⟨rfl, rfl⟩ | ⟨more, rfl, rfl⟩⟩ := ih (by omega) (by omega) others
      · refine ⟨other, .inr ⟨.lastSize opening d closing, ?_, rfl⟩⟩
        simp only [Phrase.yield, List.cons_append, List.append_assoc, List.nil_append]
      · refine ⟨other, .inr ⟨.nextSize opening d closing more, ?_, rfl⟩⟩
        simp only [Phrase.yield, List.cons_append, List.append_assoc]

theorem moreArgs_ok {es : List Expr} (room : ts.length ≤ n) (enough : ts.length < k)
    (ran : many (nextArg part) k ts = .ok (es, r)) :
    ∃ d : Phrase .moreArgs, ts = d.yield ++ r ∧ d.tree = es := by
  induction k generalizing ts es with
  | zero => exact absurd enough (Nat.not_lt_zero _)
  | succ k ih =>
    rcases many_ok ran with ⟨rfl, last⟩ | ⟨e, es, ts', rfl, first, others⟩
    · rcases nextArg_ok last with ⟨closing, rfl, -⟩ | ⟨_, _, _, -, -, ⟨⟩⟩
      exact ⟨.lastArg closing, rfl, rfl⟩
    · rcases nextArg_ok first with ⟨_, -, ⟨⟩⟩ | ⟨comma, us, x, rfl, read, ⟨⟩⟩
      obtain ⟨d, rfl, rfl⟩ := inner room read
      simp only [List.length_cons, List.length_append] at room enough
      obtain ⟨more, rfl, rfl⟩ := ih (by omega) (by omega) others
      refine ⟨.nextArg comma d more, ?_, rfl⟩
      simp only [Phrase.yield, List.cons_append, List.append_assoc]

theorem arguments_ok {es : List Expr} (room : ts.length < n) (enough : ts.length < k)
    (ran : arguments part k ts = .ok (es, r)) :
    ∃ d : Phrase .args, ts = d.yield ++ r ∧ d.tree = es := by
  rw [arguments_eq] at ran
  obtain ⟨b, ts', took, after⟩ := bind_ok ran
  rcases got_ok took (by decide) with ⟨rfl, closing, rfl⟩ | ⟨rfl, rfl, -⟩
  · cases after
    exact ⟨.noArgs closing, rfl, rfl⟩
  · obtain ⟨x, us, read, after⟩ := bind_ok after
    obtain ⟨rest, vs, others, after⟩ := bind_ok after
    cases after
    obtain ⟨d, rfl, rfl⟩ := inner room read
    simp only [List.length_append] at room enough
    obtain ⟨more, rfl, rfl⟩ := moreArgs_ok inner (by omega) (by omega) others
    refine ⟨.firstArg d more, ?_, rfl⟩
    simp only [Phrase.yield, List.append_assoc]

theorem named_ok (name : Tok .ident) (room : ts.length < n)
    (enough : ts.length < k) (ran : primary part k (name.token :: ts) = .ok (e, r)) :
    ∃ d : Phrase .primary, name.token :: ts = d.yield ++ r ∧ d.tree = e := by
  rw [primary_ident] at ran
  obtain ⟨b, us, took, called⟩ := bind_ok ran
  rcases got_ok took (by decide) with ⟨rfl, opening, rfl⟩ | ⟨rfl, rfl, -⟩
  · obtain ⟨args, vs, read, done⟩ := bind_ok called
    cases done
    simp only [List.length_cons] at room enough
    obtain ⟨d, rfl, rfl⟩ := arguments_ok inner (by omega) (by omega) read
    exact ⟨.call name opening d, rfl, rfl⟩
  · cases called
    exact ⟨.var name, rfl, rfl⟩

theorem paren_ok (opening : Mark .lparen) (room : ts.length < n)
    (ran : primary part k (opening.token :: ts) = .ok (e, r)) :
    ∃ d : Phrase .primary, opening.token :: ts = d.yield ++ r ∧ d.tree = e := by
  rw [primary_lparen] at ran
  obtain ⟨x, us, read, after⟩ := bind_ok ran
  obtain ⟨c, vs, closed, after⟩ := bind_ok after
  cases after
  obtain ⟨d, rfl, rfl⟩ := inner room read
  obtain ⟨closing, rfl, rfl⟩ := expect_ok closed (by decide)
  refine ⟨.paren opening d closing, ?_, rfl⟩
  simp only [Phrase.yield, List.cons_append, List.append_assoc, List.nil_append]

theorem creation_ok (word : Word .newWord) (room : ts.length ≤ n)
    (enough : ts.length ≤ k) (ran : primary part k (word.token :: ts) = .ok (e, r)) :
    ∃ (elem : TypePhrase) (sizes : Phrase .sizes), ts = elem.yield ++ (sizes.yield ++ r) ∧
      e = .new word.pos elem.tree sizes.tree ∧ (first r).kind ≠ .punct .lbracket := by
  rw [primary_new] at ran
  obtain ⟨elem, us, read, after⟩ := bind_ok ran
  obtain ⟨es, vs, sized, after⟩ := bind_ok after
  obtain ⟨d, rfl, rfl⟩ := type_ok read
  split at after
  · obtain ⟨_, _, -, after⟩ := bind_ok after
    cases after
  · rename_i some
    cases after
    simp only [List.length_append] at room enough
    obtain ⟨other, ⟨rfl, -⟩ | ⟨sizes, rfl, rfl⟩⟩ :=
      sizes_ok inner (by omega) (by omega) (sizes_eq part _ ▸ sized)
    · exact absurd rfl some
    · exact ⟨d, sizes, rfl, rfl, other⟩

/-- A primary expression, or an array construction with all its sizes. -/
theorem primary_ok (room : ts.length ≤ n) (enough : ts.length ≤ k)
    (ran : primary part k ts = .ok (e, r)) :
    (∃ d : Phrase .primary, ts = d.yield ++ r ∧ d.tree = e) ∨
    ∃ (word : Word .newWord) (elem : TypePhrase) (sizes : Phrase .sizes),
      ts = word.token :: (elem.yield ++ (sizes.yield ++ r)) ∧
        e = .new word.pos elem.tree sizes.tree ∧ (first r).kind ≠ .punct .lbracket := by
  obtain ⟨t, us, ⟨⟩, after⟩ := bind_ok ran
  by_cases eof : (first ts).kind = .eof
  · simp only [eof] at after
    cases after
  · have whole := cons_of_first eof
    rw [whole, List.length_cons] at room enough
    rw [whole] at ran ⊢
    generalize first ts = t at *
    generalize behind ts = us at *
    generalize kind : t.kind = j at *
    have literal : ∀ {e : Expr}, Literal t e →
        ∃ d : Phrase .primary, t :: us = d.yield ++ us ∧ d.tree = e :=
      fun known => ⟨.literal t _ known, rfl, rfl⟩
    split at after
    · cases value : integer? t.value with
      | none =>
        simp only [value] at after
        cases after
      | some v =>
        simp only [value] at after
        cases after
        exact .inl (literal (.integer kind (integer?_iff.1 value)))
    · cases value : Double.ofLiteral? t.value with
      | none =>
        simp only [value] at after
        cases after
      | some v =>
        simp only [value] at after
        cases after
        exact .inl (literal (.double kind value))
    · cases after
      exact .inl (literal (.yes kind))
    · cases after
      exact .inl (literal (.no kind))
    · cases value : Text.unescape t.value with
      | none =>
        simp only [value] at after
        cases after
      | some v =>
        simp only [value] at after
        cases after
        exact .inl (literal (.string kind value))
    · exact .inl (named_ok inner ⟨t, kind⟩ room enough ran)
    · exact .inl (paren_ok inner ⟨t, kind⟩ room ran)
    · obtain ⟨elem, sizes, rfl, rfl, other⟩ :=
        creation_ok inner ⟨t, kind⟩ (Nat.le_of_lt room) (Nat.le_of_lt enough) ran
      exact .inr ⟨⟨t, kind⟩, elem, sizes, rfl, rfl, other⟩
    · cases after

omit inner in
/-- Suffixes that do not start with an index may stand behind an array construction. -/
theorem members_of (d : Phrase (.suffixes true))
    (other : (first (d.yield ++ r)).kind ≠ .punct .lbracket) :
    ∃ d' : Phrase (.suffixes false), d'.yield = d.yield ∧ d'.tree = d.tree := by
  cases d with
  | noSuffix => exact ⟨.noSuffix, rfl, rfl⟩
  | index opening => exact absurd opening.kind other
  | member dot name more => exact ⟨.member dot name more, rfl, rfl⟩

theorem operand_ok (room : ts.length ≤ n) (ran : operand part n ts = .ok (e, r)) :
    ∃ d : Phrase .operand, ts = d.yield ++ r ∧ d.tree = e := by
  obtain ⟨x, us, read, after⟩ := bind_ok ran
  obtain ⟨ss, vs, others, after⟩ := bind_ok after
  cases after
  rcases primary_ok inner room room read with ⟨d, rfl, rfl⟩ | ⟨word, elem, sizes, rfl, rfl, other⟩
  · simp only [List.length_append] at room
    obtain ⟨more, rfl, whole⟩ := suffixes_ok inner (by omega) others
    refine ⟨.operand d more, ?_, whole _⟩
    simp only [Phrase.yield, List.append_assoc]
  · simp only [List.length_cons, List.length_append] at room
    obtain ⟨more, rfl, whole⟩ := suffixes_ok inner (by omega) others
    obtain ⟨more', yields, trees⟩ := members_of more other
    refine ⟨.creation word elem sizes more', ?_, ?_⟩
    · simp only [Phrase.yield, yields, List.cons_append, List.append_assoc]
    · rw [Phrase.tree, trees]
      exact whole _

omit inner in
theorem signs_ok {signs : List (Pos × UnOp)} {us : List Token}
    (ran : many sign k ts = .ok (signs, us)) :
    us.length ≤ ts.length ∧ ∀ x : Phrase (.level none), us = x.yield ++ r →
      ∃ d : Phrase (.level none), ts = d.yield ++ r ∧
        d.tree = signs.foldr (fun s x => .unary s.1 s.2 x) x.tree := by
  induction k generalizing ts signs with
  | zero =>
    cases ran
    exact ⟨Nat.le_refl _, fun x rest => ⟨x, rest, rfl⟩⟩
  | succ k ih =>
    rcases many_ok ran with ⟨rfl, last⟩ | ⟨s, signs, ts', rfl, first, others⟩
    · rcases sign_ok last with ⟨-, rfl⟩ | ⟨_, _, -, -, ⟨⟩⟩
      exact ⟨Nat.le_refl _, fun x rest => ⟨x, rest, rfl⟩⟩
    · rcases sign_ok first with ⟨⟨⟩, -⟩ | ⟨t, op, known, rfl, ⟨⟩⟩
      obtain ⟨fewer, signs⟩ := ih others
      refine ⟨Nat.le_succ_of_le fewer, fun x rest => ?_⟩
      obtain ⟨d, rfl, whole⟩ := signs x rest
      refine ⟨.signed t op known d, rfl, ?_⟩
      rw [Phrase.tree, whole]
      rfl

theorem signed_ok (room : ts.length ≤ n) (ran : signed part n ts = .ok (e, r)) :
    ∃ d : Phrase (.level none), ts = d.yield ++ r ∧ d.tree = e := by
  obtain ⟨signs, us, before, after⟩ := bind_ok ran
  obtain ⟨x, vs, read, after⟩ := bind_ok after
  cases after
  obtain ⟨fewer, signs⟩ := signs_ok before
  obtain ⟨d, rest, rfl⟩ := operand_ok inner (Nat.le_trans fewer room) read
  exact signs (.unsigned d) rest

end Expressions

/-- The parser of a level answers trees of its phrases. -/
def LevelDerives (n : Nat) (l : Option Level) : Prop :=
  ∀ ⦃ts r : List Token⦄ ⦃e : Expr⦄, ts.length ≤ n → readLevel n l ts = .ok (e, r) →
    ∃ d : Phrase (.level l), ts = d.yield ++ r ∧ d.tree = e

section Levels

variable {n : Nat} {l : Level} (parts : LevelDerives n l.tighter) {ts r : List Token}

include parts

/-- Links that are read are links of the grammar; comparisons are not chained. -/
theorem links_ok {k : Nat} {linked : Bool} {links : List Link} (room : ts.length ≤ n)
    (more : l.chains = true → linked = true) (single : l.chains = false → k ≤ linked.toNat)
    (ran : many (link (levelOp? l) (readLevel n l.tighter)) k ts = .ok (links, r)) :
    ∃ d : Phrase (.links l linked), ts = d.yield ++ r ∧ ∀ x, d.tree x = nest l x links := by
  induction k generalizing ts links linked with
  | zero =>
    cases ran
    exact ⟨.noLinks, rfl, fun x => (nest_nil l x).symm⟩
  | succ k ih =>
    rcases many_ok ran with ⟨rfl, last⟩ | ⟨s, links, ts', rfl, first, others⟩
    · rcases link_ok last with ⟨-, rfl⟩ | ⟨_, _, _, _, -, -, -, ⟨⟩⟩
      exact ⟨.noLinks, rfl, fun x => (nest_nil l x).symm⟩
    · rcases link_ok first with ⟨⟨⟩, -⟩ | ⟨t, op, y, us, known, rfl, read, ⟨⟩⟩
      have linked : linked = true := by
        cases chains : l.chains with
        | true => exact more chains
        | false =>
          have one := single chains
          cases linked with
          | true => rfl
          | false => simp at one
      subst linked
      obtain ⟨d, rfl, rfl⟩ := parts (Nat.le_of_succ_le room) read
      simp only [List.length_cons, List.length_append] at room
      have last : l.chains = false → k ≤ l.chains.toNat := fun alone => by
        have one := single alone
        simp only [Bool.toNat_true] at one
        omega
      obtain ⟨rest, rfl, whole⟩ := ih (by omega) id last others
      refine ⟨.link t op known d rest, ?_, fun x => ?_⟩
      · simp only [Phrase.yield, List.cons_append, List.append_assoc]
      · simp only [Phrase.tree, whole]
        cases l <;> rfl

/-- Each level reads what the grammar derives, if the tighter one does. -/
theorem level_ok : LevelDerives n (some l) := by
  intro ts r e room ran
  rw [readLevel_some] at ran
  obtain ⟨x, us, read, after⟩ := bind_ok ran
  obtain ⟨links, vs, others, after⟩ := bind_ok after
  cases after
  obtain ⟨d, rfl, rfl⟩ := parts room read
  simp only [List.length_append] at room
  obtain ⟨more, rfl, whole⟩ :=
    links_ok parts (by omega) (fun _ => rfl) (fun alone => by simp [alone]) others
  refine ⟨.chain d more, ?_, whole _⟩
  simp only [Phrase.yield, List.append_assoc]

end Levels

/-- Expressions that are read are expressions of the grammar. -/
theorem expr_ok (n : Nat) : ExprDerives (expr n) n := by
  induction n with
  | zero => exact fun ts r e room => absurd room (Nat.not_lt_zero _)
  | succ n ih =>
    have operands : LevelDerives n none := fun ts r e => signed_ok ih
    have products : LevelDerives n (some .product) := level_ok operands
    have comparisons : LevelDerives n (some .comparison) := level_ok (level_ok products)
    have all : LevelDerives n (some .disjunction) := level_ok (level_ok comparisons)
    exact fun ts r e room => all (Nat.le_of_lt_succ room)

/-! ## Statements -/

theorem nextItem_ok {o : Option DeclItem} (ran : nextItem n ts = .ok (o, r)) :
    (o = none ∧ r = ts) ∨ ∃ (comma : Mark .comma) (ts' : List Token) (i : DeclItem),
      ts = comma.token :: ts' ∧ declItem n ts' = .ok (i, r) ∧ o = some i := by
  obtain ⟨b, us, took, after⟩ := bind_ok ran
  rcases got_ok took (by decide) with ⟨rfl, comma, rfl⟩ | ⟨rfl, rfl, -⟩
  · obtain ⟨i, vs, read, done⟩ := bind_ok after
    cases done
    exact .inr ⟨comma, us, i, rfl, read, rfl⟩
  · cases after
    exact .inl ⟨rfl, rfl⟩

section Pieces

variable {s : Stmt}

theorem declItem_ok {i : DeclItem} (room : ts.length ≤ n) (ran : declItem n ts = .ok (i, r)) :
    ∃ d : ItemPhrase, ts = d.yield ++ r ∧ d.tree = i := by
  obtain ⟨t, us, named, after⟩ := bind_ok ran
  obtain ⟨name, rfl, rfl⟩ := expect_ok named (by decide)
  obtain ⟨b, vs, took, starts⟩ := bind_ok after
  rcases got_ok took (by decide) with ⟨rfl, mark, rfl⟩ | ⟨rfl, rfl, -⟩
  · obtain ⟨x, ws, read, done⟩ := bind_ok starts
    cases done
    simp only [List.length_cons] at room
    obtain ⟨d, rfl, rfl⟩ := expr_ok n (by omega) read
    exact ⟨⟨name, some (mark, d)⟩, rfl, rfl⟩
  · cases starts
    exact ⟨⟨name, none⟩, rfl, rfl⟩

theorem items_ok {k : Nat} {is : List DeclItem} (room : ts.length ≤ n)
    (ran : many (nextItem n) k ts = .ok (is, r)) :
    ∃ more : List (Mark .comma × ItemPhrase), ts = Listed.yieldMore ItemPhrase.yield more ++ r ∧
      (more.map fun p => p.2.tree) = is := by
  induction k generalizing ts is with
  | zero =>
    cases ran
    exact ⟨[], rfl, rfl⟩
  | succ k ih =>
    rcases many_ok ran with ⟨rfl, last⟩ | ⟨i, is, ts', rfl, first, others⟩
    · rcases nextItem_ok last with ⟨-, rfl⟩ | ⟨_, _, _, -, -, ⟨⟩⟩
      exact ⟨[], rfl, rfl⟩
    · rcases nextItem_ok first with ⟨⟨⟩, -⟩ | ⟨comma, us, x, rfl, read, ⟨⟩⟩
      simp only [List.length_cons] at room
      obtain ⟨d, rfl, rfl⟩ := declItem_ok (by omega) read
      simp only [List.length_append] at room
      obtain ⟨more, rfl, rfl⟩ := ih (by omega) others
      refine ⟨(comma, d) :: more, ?_, rfl⟩
      simp only [Listed.yieldMore, List.flatMap_cons, List.cons_append, List.append_assoc]

theorem declaration_ok (room : ts.length ≤ n) (ran : declaration n ts = .ok (s, r)) :
    ∃ d : StmtPhrase (.stmt false), ts = d.yield ++ r ∧ d.tree = s := by
  rw [declaration_eq] at ran
  obtain ⟨start, us, ⟨⟩, after⟩ := bind_ok ran
  obtain ⟨t, us, typed, after⟩ := bind_ok after
  obtain ⟨i, vs, named, after⟩ := bind_ok after
  obtain ⟨is, ws, others, after⟩ := bind_ok after
  obtain ⟨m, xs, ended, after⟩ := bind_ok after
  cases after
  obtain ⟨type, rfl, rfl⟩ := type_ok typed
  simp only [TypePhrase.yield, List.length_append, List.length_cons] at room
  obtain ⟨item, rfl, rfl⟩ := declItem_ok (by omega) named
  simp only [List.length_append] at room
  obtain ⟨more, rfl, rfl⟩ := items_ok (by omega) others
  obtain ⟨mark, rfl, rfl⟩ := expect_ok ended (by decide)
  refine ⟨.decl type ⟨item, more⟩ mark, ?_, rfl⟩
  simp only [StmtPhrase.yield, Listed.yield, List.append_assoc, List.cons_append, List.nil_append]

theorem condition_ok {e : Expr} (room : ts.length ≤ n) (ran : condition n ts = .ok (e, r)) :
    ∃ c : Condition, ts = c.yield ++ r ∧ c.x.tree = e := by
  obtain ⟨o, us, opened, after⟩ := bind_ok ran
  obtain ⟨x, vs, read, after⟩ := bind_ok after
  obtain ⟨c, ws, closed, after⟩ := bind_ok after
  cases after
  obtain ⟨opening, rfl, rfl⟩ := expect_ok opened (by decide)
  obtain ⟨d, rfl, rfl⟩ := expr_ok n room read
  obtain ⟨closing, rfl, rfl⟩ := expect_ok closed (by decide)
  refine ⟨⟨opening, d, closing⟩, ?_, rfl⟩
  simp only [Condition.yield, List.cons_append, List.append_assoc, List.nil_append]

theorem simpleTail_ok {p : Pos} {e : Expr} (room : ts.length ≤ n)
    (ran : simpleTail p e n ts = .ok (s, r)) :
    ∃ tail : Tail e, ts = tail.yield ++ r ∧ tail.tree p = s := by
  obtain ⟨t, us, ⟨⟩, after⟩ := bind_ok ran
  generalize kind : (first ts).kind = k at after
  split at after
  · split at after
    · rename_i place
      obtain ⟨u, us, ⟨⟩, after⟩ := bind_ok after
      obtain ⟨x, us, read, after⟩ := bind_ok after
      cases after
      have whole := cons_of_kind kind (by decide)
      rw [whole, List.length_cons] at room
      obtain ⟨d, rest, rfl⟩ := expr_ok n room read
      refine ⟨.assign (isAssignable_iff.1 place) ⟨first ts, kind⟩ d, ?_, rfl⟩
      rw [Tail.yield, List.cons_append, ← rest, ← whole]
    · cases after
  · have whole := cons_of_kind kind (by decide)
    cases e with
    | ident q name =>
      obtain ⟨u, us, ⟨⟩, after⟩ := bind_ok after
      cases after
      exact ⟨.count q name rfl (first ts) false (kind ▸ .inc), whole, rfl⟩
    | _ => cases after
  · have whole := cons_of_kind kind (by decide)
    cases e with
    | ident q name =>
      obtain ⟨u, us, ⟨⟩, after⟩ := bind_ok after
      cases after
      exact ⟨.count q name rfl (first ts) true (kind ▸ .dec), whole, rfl⟩
    | _ => cases after
  · cases after
    exact ⟨.none, rfl, rfl⟩

theorem simple_ok (room : ts.length < n) (ran : simple n ts = .ok (s, r)) :
    ∃ d : StmtPhrase (.stmt false), ts = d.yield ++ r ∧ d.tree = s := by
  obtain ⟨start, us, ⟨⟩, after⟩ := bind_ok ran
  obtain ⟨e, us, read, after⟩ := bind_ok after
  obtain ⟨t, vs, followed, after⟩ := bind_ok after
  obtain ⟨m, ws, ended, after⟩ := bind_ok after
  cases after
  obtain ⟨x, rfl, rfl⟩ := expr_ok n room read
  simp only [List.length_append] at room
  obtain ⟨tail, rfl, rfl⟩ := simpleTail_ok (by omega) followed
  obtain ⟨mark, rfl, rfl⟩ := expect_ok ended (by decide)
  refine ⟨.simple x tail mark, ?_, ?_⟩
  · simp only [StmtPhrase.yield, List.append_assoc, List.cons_append, List.nil_append]
  · obtain ⟨t, rest, yields, -⟩ := x.first rfl
    rw [StmtPhrase.tree, yields]
    rfl

theorem returning_ok (room : ts.length ≤ n)
    (kind : (first ts).kind = .keyword .returnWord) (ran : returning n ts = .ok (s, r)) :
    ∃ d : StmtPhrase (.stmt false), ts = d.yield ++ r ∧ d.tree = s := by
  obtain ⟨word, us, ⟨⟩, after⟩ := bind_ok ran
  have whole := cons_of_kind kind (by decide)
  rw [whole, List.length_cons] at room
  rw [whole]
  obtain ⟨b, us, took, valued⟩ := bind_ok after
  rcases got_ok took (by decide) with ⟨rfl, mark, rest⟩ | ⟨rfl, rfl, -⟩
  · cases valued
    exact ⟨.ret ⟨first ts, kind⟩ none mark, by rw [rest]; rfl, rfl⟩
  · obtain ⟨x, vs, read, done⟩ := bind_ok valued
    obtain ⟨m, ws, ended, done⟩ := bind_ok done
    cases done
    obtain ⟨d, rest, rfl⟩ := expr_ok n room read
    obtain ⟨mark, rfl, rfl⟩ := expect_ok ended (by decide)
    refine ⟨.ret ⟨first ts, kind⟩ (some d) mark, ?_, rfl⟩
    rw [rest]
    simp only [StmtPhrase.yield, StmtPhrase.yieldValue, List.cons_append, List.append_assoc,
      List.nil_append]

end Pieces

/-- The tokens before `r` are a statement, and no alternative that would be part of it stands
behind it. -/
def StartsWith (ts r : List Token) (s : Stmt) : Prop :=
  ∃ (hanging : Bool) (d : StmtPhrase (.stmt hanging)), ts = d.yield ++ r ∧ d.tree = s ∧
    StmtStops (.stmt hanging) r

/-- The parser answers trees of statements, if there are fewer tokens than `n`. -/
def StmtDerives (part : Parser Stmt) (n : Nat) : Prop :=
  ∀ ⦃ts r : List Token⦄ ⦃s : Stmt⦄, ts.length < n → part ts = .ok (s, r) → StartsWith ts r s

theorem nextStmt_ok {part : Parser Stmt} {o : Option Stmt} (ran : nextStmt part ts = .ok (o, r)) :
    (∃ closing : Mark .rbrace, ts = closing.token :: r ∧ o = none) ∨
      ∃ s, part ts = .ok (s, r) ∧ o = some s := by
  obtain ⟨b, us, took, after⟩ := bind_ok ran
  rcases got_ok took (by decide) with ⟨rfl, closing, rfl⟩ | ⟨rfl, rfl, -⟩
  · cases after
    exact .inl ⟨closing, rfl, rfl⟩
  · obtain ⟨t, vs, ⟨⟩, after⟩ := bind_ok after
    split at after
    · cases after
    · obtain ⟨s, ws, read, done⟩ := bind_ok after
      cases done
      exact .inr ⟨s, read, rfl⟩

theorem noElse_of_first {r : List Token} (other : (first r).kind ≠ .keyword .elseWord) :
    NoElse r := by
  cases r with
  | nil => trivial
  | cons t r => exact other

section Nested

variable {part : Parser Stmt} {m n : Nat} (inner : StmtDerives part m) (less : m ≤ n)
  {ts r : List Token}

include inner

theorem body_ok {k : Nat} {ss : List Stmt} (room : ts.length < m) (enough : ts.length < k)
    (ran : many (nextStmt part) k ts = .ok (ss, r)) :
    ∃ d : StmtPhrase .body, ts = d.yield ++ r ∧ d.tree = ss := by
  induction k generalizing ts ss with
  | zero => exact absurd enough (Nat.not_lt_zero _)
  | succ k ih =>
    rcases many_ok ran with ⟨rfl, last⟩ | ⟨s, ss, ts', rfl, first, others⟩
    · rcases nextStmt_ok last with ⟨closing, rfl, -⟩ | ⟨_, -, ⟨⟩⟩
      exact ⟨.closed closing, rfl, rfl⟩
    · rcases nextStmt_ok first with ⟨_, -, ⟨⟩⟩ | ⟨t, read, ⟨⟩⟩
      obtain ⟨hanging, d, rfl, rfl, -⟩ := inner room read
      obtain ⟨u, us, yields, -⟩ := d.first
      have some : 0 < d.yield.length := by simp [yields]
      simp only [List.length_append] at room enough
      obtain ⟨rest, rfl, rfl⟩ := ih (by omega) (by omega) others
      refine ⟨.inner d rest, ?_, rfl⟩
      simp only [StmtPhrase.yield, List.append_assoc]

include less

theorem block_ok {p : Pos} {ss : List Stmt} (room : ts.length ≤ m)
    (ran : block part n ts = .ok ((p, ss), r)) :
    ∃ (opening : Mark .lbrace) (body : StmtPhrase .body),
      ts = opening.token :: (body.yield ++ r) ∧ opening.pos = p ∧ body.tree = ss := by
  obtain ⟨t, us, opened, after⟩ := bind_ok ran
  obtain ⟨body, vs, inside, done⟩ := bind_ok after
  cases done
  obtain ⟨opening, rfl, rfl⟩ := expect_ok opened (by decide)
  simp only [List.length_cons] at room
  obtain ⟨d, rfl, rfl⟩ := body_ok inner (by omega) (by omega) (statements_eq part n ▸ inside)
  exact ⟨opening, d, rfl, rfl, rfl⟩

/-- Conditions that are read are conditions of the grammar, with the nearest `else`. -/
theorem conditional_ok {s : Stmt} (room : ts.length ≤ m) (kind : (first ts).kind = .keyword .ifWord)
    (ran : conditional part n ts = .ok (s, r)) : StartsWith ts r s := by
  obtain ⟨word, us, ⟨⟩, after⟩ := bind_ok ran
  obtain ⟨c, us, tested, after⟩ := bind_ok after
  obtain ⟨yes, vs, first', after⟩ := bind_ok after
  obtain ⟨b, ws, took, chosen⟩ := bind_ok after
  have whole := cons_of_kind kind (by decide)
  rw [whole, List.length_cons] at room
  obtain ⟨cond, test, rfl⟩ := condition_ok (by omega) tested
  rw [test, Condition.yield, List.length_append, List.length_cons] at room
  obtain ⟨hanging, d, rfl, rfl, stops⟩ := inner (by omega) first'
  rw [whole, test]
  rcases got_ok took (by decide) with ⟨rfl, alternative, rfl⟩ | ⟨rfl, rfl, other⟩
  · obtain ⟨no, xs, second, done⟩ := bind_ok chosen
    cases done
    simp only [List.length_append, List.length_cons] at room
    obtain ⟨hanging', d', rfl, rfl, stops'⟩ := inner (by omega) second
    cases hanging with
    | true => exact absurd alternative.kind stops
    | false =>
      refine ⟨hanging', .ifElse ⟨first ts, kind⟩ cond d alternative d', ?_, rfl, stops'⟩
      simp only [StmtPhrase.yield, List.cons_append, List.append_assoc]
  · cases chosen
    refine ⟨true, .ifThen ⟨first ts, kind⟩ cond d, ?_, rfl, noElse_of_first other⟩
    simp only [StmtPhrase.yield, List.cons_append, List.append_assoc]

theorem whileLoop_ok {s : Stmt} (room : ts.length ≤ m)
    (kind : (first ts).kind = .keyword .whileWord) (ran : whileLoop part n ts = .ok (s, r)) :
    StartsWith ts r s := by
  obtain ⟨word, us, ⟨⟩, after⟩ := bind_ok ran
  obtain ⟨c, us, tested, after⟩ := bind_ok after
  obtain ⟨body, vs, inside, after⟩ := bind_ok after
  cases after
  have whole := cons_of_kind kind (by decide)
  rw [whole, List.length_cons] at room
  obtain ⟨cond, test, rfl⟩ := condition_ok (by omega) tested
  rw [test, Condition.yield, List.length_append, List.length_cons] at room
  obtain ⟨hanging, d, rfl, rfl, stops⟩ := inner (by omega) inside
  rw [whole, test]
  refine ⟨hanging, .while ⟨first ts, kind⟩ cond d, ?_, rfl, stops⟩
  simp only [StmtPhrase.yield, List.cons_append, List.append_assoc]

theorem forLoop_ok {s : Stmt} (room : ts.length ≤ m) (kind : (first ts).kind = .keyword .forWord)
    (ran : forLoop part n ts = .ok (s, r)) : StartsWith ts r s := by
  obtain ⟨word, us, ⟨⟩, after⟩ := bind_ok ran
  obtain ⟨o, us, opened, after⟩ := bind_ok after
  obtain ⟨t, vs, typed, after⟩ := bind_ok after
  obtain ⟨i, ws, named, after⟩ := bind_ok after
  obtain ⟨c, xs, parted, after⟩ := bind_ok after
  obtain ⟨x, ys, read, after⟩ := bind_ok after
  obtain ⟨e, zs, closed, after⟩ := bind_ok after
  obtain ⟨body, qs, inside, after⟩ := bind_ok after
  cases after
  have whole := cons_of_kind kind (by decide)
  obtain ⟨opening, rfl, rest⟩ := expect_ok opened (by decide)
  obtain ⟨elem, rfl, rfl⟩ := type_ok typed
  obtain ⟨name, rfl, rfl⟩ := expect_ok named (by decide)
  obtain ⟨colon, rfl, rfl⟩ := expect_ok parted (by decide)
  rw [whole, rest] at room
  simp only [List.length_cons, List.length_append] at room
  obtain ⟨array, rfl, rfl⟩ := expr_ok n (by omega) read
  obtain ⟨closing, rfl, rfl⟩ := expect_ok closed (by decide)
  simp only [List.length_cons, List.length_append] at room
  obtain ⟨hanging, d, rfl, rfl, stops⟩ := inner (by omega) inside
  rw [whole, rest]
  refine ⟨hanging, .forEach ⟨first ts, kind⟩ opening elem name colon array closing d, ?_, rfl,
    stops⟩
  simp only [StmtPhrase.yield, List.cons_append, List.append_assoc]

end Nested

/-- Statements that are read are statements of the grammar. -/
theorem stmt_ok (n : Nat) : StmtDerives (stmt n) (n - 1) := by
  induction n with
  | zero => exact fun ts r s room => absurd room (Nat.not_lt_zero _)
  | succ n ih =>
    intro ts r s room ran
    rw [Nat.add_sub_cancel] at room
    have less : n - 1 ≤ n := Nat.sub_le n 1
    have whole : ∀ {s : Stmt}, (∃ d : StmtPhrase (.stmt false), ts = d.yield ++ r ∧ d.tree = s) →
        StartsWith ts r s :=
      fun ⟨d, yields, trees⟩ => ⟨false, d, yields, trees, trivial⟩
    rw [stmt] at ran
    obtain ⟨t, us, ⟨⟩, after⟩ := bind_ok ran
    generalize kind : (first ts).kind = k at after
    split at after
    · obtain ⟨u, us, ⟨⟩, done⟩ := bind_ok after
      cases done
      exact whole ⟨.empty ⟨first ts, kind⟩, cons_of_kind kind (by decide), rfl⟩
    · obtain ⟨⟨p, body⟩, us, read, done⟩ := bind_ok after
      cases done
      obtain ⟨opening, body, rfl, rfl, rfl⟩ := block_ok ih less (by omega) read
      exact whole ⟨.block opening body, rfl, rfl⟩
    · exact whole (returning_ok (by omega) kind after)
    · exact conditional_ok ih less (by omega) kind after
    · exact whileLoop_ok ih less (by omega) kind after
    · exact forLoop_ok ih less (by omega) kind after
    · split at after
      · exact whole (declaration_ok (by omega) after)
      · exact whole (simple_ok room after)

/-! ## Programs -/

theorem param_ok {q : Param} (ran : param ts = .ok (q, r)) :
    ∃ d : ParamPhrase, ts = d.yield ++ r ∧ d.tree = q := by
  obtain ⟨start, us, ⟨⟩, after⟩ := bind_ok ran
  obtain ⟨t, us, typed, after⟩ := bind_ok after
  obtain ⟨i, vs, named, after⟩ := bind_ok after
  cases after
  obtain ⟨type, rfl, rfl⟩ := type_ok typed
  obtain ⟨name, rfl, rfl⟩ := expect_ok named (by decide)
  refine ⟨⟨type, name⟩, ?_, rfl⟩
  simp only [ParamPhrase.yield, List.append_assoc, List.cons_append, List.nil_append]

theorem params_ok {k : Nat} {qs : List Param} (enough : ts.length < k)
    (ran : many (nextArg param) k ts = .ok (qs, r)) :
    ∃ (more : List (Mark .comma × ParamPhrase)) (closing : Mark .rparen),
      ts = Listed.yieldMore ParamPhrase.yield more ++ closing.token :: r ∧
        (more.map fun p => p.2.tree) = qs := by
  induction k generalizing ts qs with
  | zero => exact absurd enough (Nat.not_lt_zero _)
  | succ k ih =>
    rcases many_ok ran with ⟨rfl, last⟩ | ⟨q, qs, ts', rfl, first, others⟩
    · rcases nextArg_ok last with ⟨closing, rfl, -⟩ | ⟨_, _, _, -, -, ⟨⟩⟩
      exact ⟨[], closing, rfl, rfl⟩
    · rcases nextArg_ok first with ⟨_, -, ⟨⟩⟩ | ⟨comma, us, x, rfl, read, ⟨⟩⟩
      obtain ⟨d, rfl, rfl⟩ := param_ok read
      simp only [List.length_cons, List.length_append] at enough
      obtain ⟨more, closing, rfl, rfl⟩ := ih (by omega) others
      refine ⟨(comma, d) :: more, closing, ?_, rfl⟩
      simp only [Listed.yieldMore, List.flatMap_cons, List.cons_append, List.append_assoc]

theorem parameters_ok {qs : List Param} (enough : ts.length < n)
    (ran : parameters n ts = .ok (qs, r)) :
    ∃ (params : Option (Listed ParamPhrase)) (closing : Mark .rparen),
      ts = FunctionPhrase.yieldParams params ++ closing.token :: r ∧
        FunctionPhrase.treeParams params = qs := by
  rw [parameters_eq] at ran
  obtain ⟨b, us, took, after⟩ := bind_ok ran
  rcases got_ok took (by decide) with ⟨rfl, closing, rfl⟩ | ⟨rfl, rfl, -⟩
  · cases after
    exact ⟨none, closing, rfl, rfl⟩
  · obtain ⟨q, vs, read, after⟩ := bind_ok after
    obtain ⟨rest, ws, others, after⟩ := bind_ok after
    cases after
    obtain ⟨d, rfl, rfl⟩ := param_ok read
    simp only [List.length_append] at enough
    obtain ⟨more, closing, rfl, rfl⟩ := params_ok (by omega) others
    refine ⟨some ⟨d, more⟩, closing, ?_, rfl⟩
    simp only [FunctionPhrase.yieldParams, Listed.yield, List.append_assoc]

theorem function_ok {f : FuncDef} (room : ts.length ≤ n)
    (ran : function n ts = .ok (f, r)) : ∃ d : FunctionPhrase, ts = d.yield ++ r ∧ d.tree = f := by
  obtain ⟨start, us, ⟨⟩, after⟩ := bind_ok ran
  obtain ⟨t, us, typed, after⟩ := bind_ok after
  obtain ⟨i, vs, named, after⟩ := bind_ok after
  obtain ⟨o, ws, opened, after⟩ := bind_ok after
  obtain ⟨qs, xs, listed, after⟩ := bind_ok after
  obtain ⟨⟨p, body⟩, ys, inside, after⟩ := bind_ok after
  cases after
  obtain ⟨ret, rfl, rfl⟩ := type_ok typed
  obtain ⟨name, rfl, rfl⟩ := expect_ok named (by decide)
  obtain ⟨opening, rfl, rfl⟩ := expect_ok opened (by decide)
  simp only [TypePhrase.yield, List.length_append, List.length_cons] at room
  obtain ⟨params, closing, rfl, rfl⟩ := parameters_ok (by omega) listed
  simp only [List.length_append, List.length_cons] at room
  obtain ⟨brace, body, rfl, rfl, rfl⟩ := block_ok (stmt_ok n) (Nat.sub_le n 1) (by omega) inside
  refine ⟨⟨ret, name, opening, params, closing, brace, body⟩, ?_, rfl⟩
  simp only [FunctionPhrase.yield, List.append_assoc, List.cons_append]

/-- Texts that are read are programs of the grammar. -/
theorem functions_ok {n k : Nat} {fs : List FuncDef} (room : ts.length ≤ n)
    (enough : ts.length ≤ k) (ran : many (nextFunction n) k ts = .ok (fs, r)) :
    ∃ p : ProgramPhrase, ts = p.yield ++ r ∧ p.map FunctionPhrase.tree = fs ∧
      (first r).kind = .eof := by
  induction k generalizing ts fs with
  | zero =>
    cases ran
    cases List.length_eq_zero_iff.1 (Nat.le_zero.1 enough)
    exact ⟨[], rfl, rfl, rfl⟩
  | succ k ih =>
    rcases many_ok ran with ⟨rfl, last⟩ | ⟨f, fs, ts', rfl, next, others⟩
    · obtain ⟨t, us, ⟨⟩, after⟩ := bind_ok last
      split at after
      · rename_i eof
        cases after
        exact ⟨[], rfl, rfl, eof⟩
      · obtain ⟨f, us, -, done⟩ := bind_ok after
        cases done
    · obtain ⟨t, us, ⟨⟩, after⟩ := bind_ok next
      split at after
      · cases after
      · obtain ⟨f, us, read, done⟩ := bind_ok after
        cases done
        obtain ⟨d, rfl, rfl⟩ := function_ok room read
        simp only [FunctionPhrase.yield, TypePhrase.yield, List.length_append,
          List.length_cons] at room enough
        obtain ⟨p, rfl, rfl, eof⟩ := ih (by omega) (by omega) others
        refine ⟨d :: p, ?_, rfl, eof⟩
        simp only [ProgramPhrase.yield, List.flatMap_cons, List.append_assoc]

theorem program_ok {p : Program} (room : ts.length ≤ n) (ran : program n ts = .ok (p, r)) :
    ∃ d : ProgramPhrase, ts = d.yield ++ r ∧ d.tree = p ∧ (first r).kind = .eof := by
  rw [program_eq] at ran
  obtain ⟨fs, us, read, after⟩ := bind_ok ran
  cases after
  obtain ⟨d, rfl, rfl, eof⟩ := functions_ok room room read
  exact ⟨d, rfl, rfl, eof⟩

/-- A body ends in its closing brace. -/
theorem body_closed : (d : StmtPhrase .body) →
    ∃ (front : List Token) (closing : Mark .rbrace), d.yield = front ++ [closing.token]
  | .closed closing => ⟨[], closing, rfl⟩
  | .inner s rest =>
    have ⟨front, closing, ends⟩ := body_closed rest
    ⟨s.yield ++ front, closing, by rw [StmtPhrase.yield, ends, List.append_assoc]⟩

/-- A program does not end in the end of the file. -/
theorem yield_ne_ended {d : ProgramPhrase} {ts body : List Token} {last : Token}
    (ended : Lexer.Ended ts body last) : d.yield ≠ ts := by
  intro same
  rw [ended.tokens] at same
  rcases List.eq_nil_or_concat d with rfl | ⟨fs, f, rfl⟩
  · exact absurd same (by simp [ProgramPhrase.yield])
  · obtain ⟨front, closing, ends⟩ := body_closed f.body
    have brace : [closing.token] = [last] := by
      simp only [ProgramPhrase.yield, List.concat_eq_append, List.flatMap_append,
        List.flatMap_singleton, FunctionPhrase.yield, ends, ← List.cons_append,
        ← List.append_assoc] at same
      exact (List.append_inj' same rfl).2
    have eof := ended.eof
    rw [← List.singleton_inj.1 brace, closing.kind] at eof
    cases eof

/-- Tokens end only once. -/
theorem ended_here {ts body yield r : List Token} {last t : Token}
    (ended : Lexer.Ended ts body last) (same : ts = yield ++ t :: r) (eof : t.kind = .eof) :
    yield = body := by
  rw [ended.tokens] at same
  rcases List.append_eq_append_iff.1 same with ⟨between, rfl, whole⟩ | ⟨between, rfl, whole⟩
  · cases between with
    | nil => simp
    | cons u between => simp at whole
  · cases between with
    | nil => simp
    | cons u between =>
      obtain ⟨rfl, -⟩ := List.cons.inj whole
      exact absurd eof (ended.others t (by simp))

/-- A program that is read is the tree of a derivation of all its tokens. -/
theorem ofTokens_derived {ts body : List Token} {last : Token} {p : Program}
    (ended : Lexer.Ended ts body last) (read : Program.ofTokens ts = .ok p) :
    ∃ d : ProgramPhrase, d.yield = body ∧ d.tree = p := by
  unfold Program.ofTokens at read
  split at read
  · rename_i p r ran
    cases read
    obtain ⟨d, whole, trees, eof⟩ := program_ok (Nat.le_refl _) ran
    refine ⟨d, ?_, trees⟩
    cases r with
    | nil => exact absurd (by rw [whole, List.append_nil]) (yield_ne_ended (d := d) ended)
    | cons t r => exact ended_here ended whole eof
  · cases read

/-- The parser accepts the grammar: tokens form a program if and only if they are derived
with it as their tree, and they have no other derivation. -/
theorem parser_accepts_the_grammar {ts body : List Token} {last : Token}
    (ended : Lexer.Ended ts body last) :
    (∀ p, Program.ofTokens ts = .ok p ↔ ∃ d : ProgramPhrase, d.yield = body ∧ d.tree = p) ∧
      ∀ d d' : ProgramPhrase, d.yield = body → d'.yield = body → d = d' := by
  refine ⟨fun p => ⟨ofTokens_derived ended, ?_⟩, fun d d' yields yields' =>
    ProgramPhrase.unique (yields.trans yields'.symm)⟩
  rintro ⟨d, rfl, rfl⟩
  rw [ended.tokens]
  exact program_run ended.eof

/-- A program in which an alternative could belong to two conditions, a sign to a number or
a sum, and a bracket to a construction or its element. -/
def nestedText : Text := "void f(){if(a)if(b);else c[0]=-1+2*d;int[]e=new int[][3][b];}"

theorem nestedText_is_derived : ∃ ts body last p, Lexer.tokens nestedText = .ok ts ∧
    Lexer.Ended ts body last ∧ Program.ofTokens ts = .ok p ∧
      ∃ d : ProgramPhrase, d.yield = body ∧ d.tree = p ∧
        ∀ d' : ProgramPhrase, d'.yield = body → d' = d := by
  have parsed : (Program.parse nestedText).isOk = true := by decide +kernel
  unfold Program.parse at parsed
  cases read : Lexer.tokens nestedText with
  | error e => simp [read, Except.isOk, Except.toBool] at parsed
  | ok ts =>
    cases ran : Program.ofTokens ts with
    | error e => simp [read, ran, Except.isOk, Except.toBool] at parsed
    | ok p =>
      obtain ⟨body, last, -, ended, -⟩ := (Lexer.scan_scanned read).stand
      obtain ⟨accepts, unique⟩ := parser_accepts_the_grammar ended
      obtain ⟨d, yields, trees⟩ := (accepts p).1 ran
      exact ⟨ts, body, last, p, rfl, ended, ran, d, yields, trees,
        fun d' yields' => unique d' d yields' yields⟩

end ImpCompiler.Parser
