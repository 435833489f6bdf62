import ImpCompiler.Proofs.Tree.Unambiguous
import ImpCompiler.Tree.Parser
import Mathlib.Data.List.Induction

/-!
# Proofs.Tree.Accepts — the parser accepts every phrase

Whatever the grammar derives is read by the parser, which answers the tree of the phrase and
leaves what stands behind it (`Phrase.reads`, `StmtPhrase.reads`). The bounds of the parser are
no hindrance: a phrase is never nested deeper than it has tokens, and never has more parts.
-/

namespace ImpCompiler.Parser

set_option autoImplicit false

open Grammar

variable {α β : Type} {k : TokenKind} {r : List Token}

/-! ## Tokens -/

theorem bind_run {x : Parser α} {f : α → Parser β} {ts ts' : List Token} {a : α}
    (ran : x ts = .ok (a, ts')) : (x >>= f) ts = f a ts' := by
  show (x ts >>= fun q => f q.1 q.2) = _
  rw [ran]
  rfl

theorem next_run {t : Token} (real : t.kind ≠ .eof) (ts : List Token) :
    next (t :: ts) = .ok (t, ts) := by
  simp [next, first, behind, real]

section Tokens

variable {k : TokenKind} (t : Tok k) (real : k ≠ .eof) (ts : List Token)
include real

theorem next_tok : next (t.token :: ts) = .ok (t.token, ts) := next_run (by rwa [t.kind]) ts

theorem got_tok : got k (t.token :: ts) = .ok (true, ts) := by
  unfold got
  rw [bind_run (show peek (t.token :: ts) = .ok (t.token, t.token :: ts) from rfl), if_pos t.kind,
    bind_run (next_tok t real ts)]
  rfl

theorem expect_tok : expect k (t.token :: ts) = .ok (t.token, ts) := by
  unfold expect
  rw [bind_run (show peek (t.token :: ts) = .ok (t.token, t.token :: ts) from rfl), if_pos t.kind,
    next_tok t real]

end Tokens

theorem got_other {ts : List Token} (other : (first ts).kind ≠ k) : got k ts = .ok (false, ts) := by
  unfold got
  rw [bind_run (show peek ts = .ok (first ts, ts) from rfl), if_neg other]
  rfl

theorem got_else {k k' : TokenKind} (t : Tok k') (other : k' ≠ k) (ts : List Token) :
    got k (t.token :: ts) = .ok (false, t.token :: ts) :=
  got_other (by rwa [show (first (t.token :: ts)).kind = k' from t.kind])

/-! ## Repetitions -/

/-- The parser `step` answers `as` one after the other and then declines; declining takes
tokens if `closing` is 1. -/
def Repeats (closing : Nat) (step : Parser (Option α)) (ts : List Token) (as : List α)
    (r : List Token) : Prop :=
  ∀ n, as.length + closing ≤ n → many step n ts = .ok (as, r)

namespace Repeats

variable {closing : Nat} {step : Parser (Option α)} {ts ts' r : List Token} {a : α} {as : List α}

/-- A repetition ends where its step declines. -/
theorem declines (ran : step ts = .ok (none, ts)) : Repeats 0 step ts [] ts := by
  intro n _
  cases n with
  | zero => rfl
  | succ n =>
    rw [many, bind_run ran]
    rfl

theorem closes (ran : step ts = .ok (none, r)) : Repeats 1 step ts [] r := by
  intro n some
  obtain ⟨n, rfl⟩ := Nat.exists_eq_succ_of_ne_zero (Nat.ne_of_gt some)
  rw [many, bind_run ran]
  rfl

/-- A repetition goes on where its step reads something. -/
theorem cons (ran : step ts = .ok (some a, ts')) (rest : Repeats closing step ts' as r) :
    Repeats closing step ts (a :: as) r := by
  intro n enough
  simp only [List.length_cons] at enough
  obtain ⟨n, rfl⟩ := Nat.exists_eq_succ_of_ne_zero (show n ≠ 0 by omega)
  rw [many, bind_run ran]
  show (many step n >>= fun rest => pure (a :: rest)) ts' = _
  rw [bind_run (rest n (by omega))]
  rfl

end Repeats

/-! ## Types -/

theorem base?_iff {b : Base} : base? k = some b ↔ BaseWord k b := by
  constructor
  · intro known
    unfold base? at known
    split at known <;> cases known <;> constructor
  · rintro ⟨⟩ <;> rfl

theorem pairs_run {ps : List (Mark .lbracket × Mark .rbracket)} (ends : NoPair r) :
    pairs (TypePhrase.yieldPairs ps ++ r) = (ps.length, r) := by
  induction ps with
  | nil =>
    show pairs r = (0, r)
    unfold pairs
    split
    · exact if_neg ends
    · rfl
  | cons p ps ih =>
    show pairs (p.1.token :: p.2.token :: (TypePhrase.yieldPairs ps ++ r)) = _
    rw [pairs, if_pos ⟨p.1.kind, p.2.kind⟩, ih]
    rfl

/-- A type is read with all its pairs of brackets. -/
theorem type_run (t : TypePhrase) (ends : NoPair r) : type (t.yield ++ r) = .ok (t.tree, r) := by
  have real : t.word.kind ≠ .eof := fun eof => by cases eof ▸ t.names
  unfold type
  rw [TypePhrase.yield, List.cons_append, bind_run (next_run real _), base?_iff.2 t.names]
  show Except.ok ((⟨t.base, (pairs _).1⟩ : Ty), (pairs _).2) = _
  rw [pairs_run ends]
  rfl

/-! ## Literals -/

/-- A numeral has at least one digit and nothing else. -/
theorem numeral_iff {t : Text} {n : Nat} :
    Numeral t n ↔ t ≠ [] ∧ t.all Lexer.isDigit = true ∧ Double.digitsValue t = n := by
  constructor
  · intro numeral
    refine ⟨?_, ?_, numeral.value.symm⟩
    · cases numeral <;> simp
    · simpa [Lexer.isDigit] using numeral.digits
  · rintro ⟨some, digits, rfl⟩
    induction t using List.reverseRecOn with
    | nil => exact absurd rfl some
    | append_singleton t b ih =>
      simp only [List.all_append, List.all_cons, List.all_nil, Bool.and_true, Bool.and_eq_true,
        Lexer.isDigit, decide_eq_true_eq] at digits ih
      rw [Double.digitsValue, List.foldl_append]
      by_cases empty : t = []
      · subst empty
        simpa using Numeral.digit digits.2.1 digits.2.2
      · exact .more (ih empty digits.1) digits.2.1 digits.2.2

/-- Digits are read if their value is in range. -/
theorem ofDigits?_iff {negative : Bool} {t : Text} {v : Int64} :
    ofDigits? negative t = some v ↔
      ∃ n : Nat, Numeral t n ∧ v.toInt = if negative then -(n : Int) else n := by
  unfold ofDigits?
  split
  · rename_i none
    refine ⟨nofun, fun ⟨n, numeral, _⟩ => ?_⟩
    obtain ⟨some, digits, -⟩ := numeral_iff.1 numeral
    simp [some, digits] at none
  · rename_i digits
    simp only [Bool.or_eq_true, Bool.not_eq_true', not_or, Bool.not_eq_true, Bool.not_eq_false,
      List.isEmpty_eq_false_iff] at digits
    have numeral : Numeral t (Double.digitsValue t) := numeral_iff.2 ⟨digits.1, digits.2, rfl⟩
    trans v.toInt = if negative then -(Double.digitsValue t : Int) else Double.digitsValue t
    · dsimp only
      rw [show ((Nat.pow 2 63 : Nat) : Int) = 2 ^ 63 from rfl]
      generalize (if negative then -(Double.digitsValue t : Int) else Double.digitsValue t) = i
      constructor
      · intro known
        split at known
        · rename_i inside
          cases known
          exact Int64.toInt_ofInt_of_le inside.1 inside.2
        · cases known
      · rintro rfl
        rw [if_pos ⟨v.le_toInt, v.toInt_lt⟩, Int64.ofInt_toInt]
    · constructor
      · exact fun value => ⟨_, numeral, value⟩
      · rintro ⟨n, numeral', value⟩
        rwa [numeral'.value] at value

/-- Integer literals are read as the grammar says. -/
theorem integer?_iff {t : Text} {v : Int64} : integer? t = some v ↔ Integer t v.toInt := by
  unfold integer?
  split
  · rw [ofDigits?_iff]
    constructor
    · rintro ⟨n, numeral, value⟩
      rw [value]
      exact .minus numeral
    · intro integer
      generalize v.toInt = i at integer
      cases integer with
      | minus numeral => exact ⟨_, numeral, rfl⟩
      | plain numeral => exact absurd (numeral.digits _ (List.mem_cons_self ..)).1 (by decide)
  · rw [ofDigits?_iff]
    constructor
    · rintro ⟨n, numeral, value⟩
      rw [value]
      exact .plus numeral
    · intro integer
      generalize v.toInt = i at integer
      cases integer with
      | plus numeral => exact ⟨_, numeral, rfl⟩
      | plain numeral => exact absurd (numeral.digits _ (List.mem_cons_self ..)).1 (by decide)
  · rename_i noMinus noPlus
    rw [ofDigits?_iff]
    constructor
    · rintro ⟨n, numeral, value⟩
      rw [value]
      exact .plain numeral
    · intro integer
      generalize v.toInt = i at integer
      cases integer with
      | plain numeral => exact ⟨_, numeral, rfl⟩
      | plus numeral => exact absurd rfl (noPlus _)
      | minus numeral => exact absurd rfl (noMinus _)

/-! ## Levels -/

def levelOp? : Level → TokenKind → Option BinOp
  | .disjunction => orOp?
  | .conjunction => andOp?
  | .comparison => relOp?
  | .sum => addOp?
  | .product => mulOp?

def nest (l : Level) : Expr → List Link → Expr :=
  match l.side with
  | .right => nestRight
  | .left | .neither => nestLeft

/-- The parser of a level, where `n` is the bound on repetitions and on the depth of what is in
brackets. -/
def readLevel (n : Nat) : Option Level → Parser Expr
  | none => signed (expr n) n
  | some .product => product (expr n) n
  | some .sum => sum (expr n) n
  | some .comparison => comparison (expr n) n
  | some .conjunction => conjunction (expr n) n
  | some .disjunction => disjunction (expr n) n

theorem readLevel_some (n : Nat) (l : Level) :
    readLevel n (some l) =
      chain (levelOp? l) (nest l) (readLevel n l.tighter) (if l.chains then n else 1) := by
  cases l <;> rfl

/-- The operators of a level are those of the grammar. -/
theorem levelOp?_iff {l : Level} {op : BinOp} : levelOp? l k = some op ↔ Operator l k op := by
  constructor
  · intro known
    cases l <;> simp only [levelOp?] at known
    · unfold orOp? at known
      split at known <;> cases known
      exact .or
    · unfold andOp? at known
      split at known <;> cases known
      exact .and
    · unfold relOp? at known
      split at known <;> cases known <;> constructor
    · unfold addOp? at known
      split at known <;> cases known <;> constructor
    · unfold mulOp? at known
      split at known <;> cases known <;> constructor
  · rintro ⟨⟩ <;> rfl

theorem unOp?_iff {op : UnOp} : unOp? k = some op ↔ Sign k op := by
  constructor
  · intro known
    unfold unOp? at known
    split at known <;> cases known <;> constructor
  · rintro ⟨⟩ <;> rfl

theorem nest_nil (l : Level) (x : Expr) : nest l x [] = x := by
  cases l <;> rfl

/-! ## Steps of repetitions -/

/-- The next of the parts in parentheses, behind a comma: the arguments of a call or the
parameters of a function. -/
def nextArg (part : Parser α) : Parser (Option α) := do
  if ← got (.punct .rparen) then return none
  let _ ← expect (.punct .comma)
  return some (← part)

theorem nextArg_closes {part : Parser α} (closing : Mark .rparen) :
    nextArg part (closing.token :: r) = .ok (none, r) := by
  unfold nextArg
  rw [bind_run (got_tok closing (by decide) r)]
  rfl

theorem nextArg_run {part : Parser α} {ts r : List Token} {a : α} (comma : Mark .comma)
    (ran : part ts = .ok (a, r)) : nextArg part (comma.token :: ts) = .ok (some a, r) := by
  unfold nextArg
  rw [bind_run (got_else comma (by decide) ts)]
  show (expect (.punct .comma) >>= fun _ => part >>= fun a => pure (some a)) (comma.token :: ts) = _
  rw [bind_run (expect_tok comma (by decide) ts), bind_run ran]
  rfl

section Steps

variable {part : Parser Expr} {ts r : List Token} {x : Expr}

theorem peek_run (ts : List Token) : peek ts = .ok (first ts, ts) := rfl

/-- What is told of the first token holds of the end of the file too. -/
theorem Stops.first {s : Sym} (stops : Stops s r) (positive : 0 < s.rank) :
    binds (Parser.first r).kind < s.rank := by
  cases r with
  | nil => exact positive
  | cons t r => exact stops

theorem link_run {l : Level} {t : Token} {op : BinOp} (known : Operator l t.kind op)
    (ran : part ts = .ok (x, r)) :
    link (levelOp? l) part (t :: ts) = .ok (some ⟨t.pos, op, x⟩, r) := by
  have real : t.kind ≠ .eof := fun eof => by cases eof ▸ known
  unfold link
  rw [bind_run (peek_run _)]
  simp only [first, levelOp?_iff.2 known]
  rw [bind_run (next_run real _), bind_run ran]
  rfl

theorem link_declines {l : Level} (stops : Stops (.level (some l)) r) :
    link (levelOp? l) part r = .ok (none, r) := by
  have none : levelOp? l (first r).kind = none := by
    rw [Option.eq_none_iff_forall_not_mem]
    intro op known
    have same := (levelOp?_iff.1 known).binds
    have less := Stops.first stops (by cases l <;> decide)
    exact Nat.ne_of_lt less same
  unfold link
  rw [bind_run (peek_run _)]
  simp only [none]
  rfl

theorem sign_run {t : Token} {op : UnOp} (known : Sign t.kind op) :
    sign (t :: ts) = .ok (some (t.pos, op), ts) := by
  have real : t.kind ≠ .eof := fun eof => by cases eof ▸ known
  unfold sign
  rw [bind_run (peek_run _)]
  simp only [first, unOp?_iff.2 known]
  rw [bind_run (next_run real _)]
  rfl

theorem sign_declines (x : Phrase .operand) : sign (x.yield ++ r) = .ok (none, x.yield ++ r) := by
  obtain ⟨t, rest, yields, starts⟩ := x.first rfl
  have none : unOp? t.kind = none := by
    rw [Option.eq_none_iff_forall_not_mem]
    intro op known
    exact Bool.noConfusion ((unOp?_iff.1 known).not_operand.symm.trans starts)
  unfold sign
  rw [bind_run (peek_run _), yields]
  simp only [List.cons_append, first, none]
  rfl

theorem index_run (opening : Mark .lbracket) (closing : Mark .rbracket)
    (ran : part ts = .ok (x, closing.token :: r)) :
    suffix part (opening.token :: ts) = .ok (some (.index opening.pos x), r) := by
  unfold suffix
  rw [bind_run (peek_run _)]
  simp only [first, opening.kind]
  rw [bind_run (next_tok opening (by decide) ts), bind_run ran,
    bind_run (expect_tok closing (by decide) r)]
  rfl

theorem member_run (dot : Mark .dot) (name : Tok .ident) :
    suffix part (dot.token :: name.token :: r) = .ok (some (.member dot.pos name.value), r) := by
  unfold suffix
  rw [bind_run (peek_run _)]
  simp only [first, dot.kind]
  rw [bind_run (next_tok dot (by decide) _), bind_run (expect_tok name (by decide) r)]
  rfl

theorem suffix_declines (stops : Stops .operand r) : suffix part r = .ok (none, r) := by
  have less := Stops.first stops (by decide)
  unfold suffix
  rw [bind_run (peek_run _)]
  generalize (first r).kind = k at less
  split
  · exact absurd less (by decide)
  · exact absurd less (by decide)
  · rfl

def nextSize (part : Parser Expr) : Parser (Option Expr) := do
  if ← got (.punct .lbracket) then
    let size ← part
    let _ ← expect (.punct .rbracket)
    return some size
  else return none

theorem nextSize_run (opening : Mark .lbracket) (closing : Mark .rbracket)
    (ran : part ts = .ok (x, closing.token :: r)) :
    nextSize part (opening.token :: ts) = .ok (some x, r) := by
  unfold nextSize
  rw [bind_run (got_tok opening (by decide) ts), if_pos rfl, bind_run ran,
    bind_run (expect_tok closing (by decide) r)]
  rfl

theorem nextSize_declines (stops : Stops .sizes r) : nextSize part r = .ok (none, r) := by
  have less := Stops.first stops (by decide)
  unfold nextSize
  rw [bind_run (got_other fun opens => ?_)]
  · rfl
  · rw [opens] at less
    exact absurd less (by decide)

end Steps

/-! ## Expressions -/

section Dispatch

variable {part : Parser Expr} (n : Nat) (ts : List Token)

/-- Literals are read with their values. -/
theorem primary_literal {t : Token} {e : Expr} (known : Literal t e) :
    primary part n (t :: ts) = .ok (e, ts) := by
  have real : t.kind ≠ .eof := by cases known <;> simp_all
  unfold primary
  rw [bind_run (next_run real ts)]
  cases known with
  | integer kind value =>
    simp only [kind, integer?_iff.2 value]
    rfl
  | double kind value =>
    simp only [kind, value]
    rfl
  | yes kind =>
    simp only [kind]
    rfl
  | no kind =>
    simp only [kind]
    rfl
  | string kind value =>
    simp only [kind, value]
    rfl

theorem primary_ident (name : Tok .ident) : primary part n (name.token :: ts) =
    (got (.punct .lparen) >>= fun called =>
      if called then arguments part n >>= fun args => pure (.call name.pos name.value args)
      else pure (.ident name.pos name.value)) ts := by
  obtain ⟨⟨_, value, pos⟩, kind⟩ := name
  cases kind
  rfl

theorem primary_lparen (opening : Mark .lparen) : primary part n (opening.token :: ts) =
    (part >>= fun e => expect (.punct .rparen) >>= fun _ => pure e) ts := by
  obtain ⟨⟨_, value, pos⟩, kind⟩ := opening
  cases kind
  rfl

theorem primary_new (word : Word .newWord) : primary part n (word.token :: ts) =
    (type >>= fun elem => sizes part n >>= fun es =>
      if es.isEmpty then peek >>= fun t => fail t.pos (.missingSize elem)
      else pure (.new word.pos elem es)) ts := by
  obtain ⟨⟨_, value, pos⟩, kind⟩ := word
  cases kind
  rfl

end Dispatch

theorem arguments_eq (part : Parser Expr) (n : Nat) : arguments part n = (do
    if ← got (.punct .rparen) then return []
    let first ← part
    let rest ← many (nextArg part) n
    return first :: rest) := rfl

theorem sizes_eq (part : Parser Expr) (n : Nat) : sizes part n = many (nextSize part) n := rfl

/-- The parser of the symbol reads a tree at the start of `ts` and leaves `r`. A repetition is
read whatever its bound, as long as it has room for what is repeated. -/
def Reads (n : Nat) : (s : Sym) → List Token → s.Tree → List Token → Prop
  | .level none, ts, e, r => ∃ signs ts' x, signs.length + r.length < ts.length ∧
      Repeats 0 sign ts signs ts' ∧ operand (expr n) n ts' = .ok (x, r) ∧
      signs.foldr (fun s x => .unary s.1 s.2 x) x = e
  | .level (some l), ts, e, r => readLevel n (some l) ts = .ok (e, r)
  | .links l linked, ts, f, r => ∃ links, links.length + r.length ≤ ts.length ∧
      (l.chains = false → links.length ≤ linked.toNat) ∧
      Repeats 0 (link (levelOp? l) (readLevel n l.tighter)) ts links r ∧ ∀ x, nest l x links = f x
  | .operand, ts, e, r => operand (expr n) n ts = .ok (e, r)
  | .suffixes _, ts, f, r => ∃ ss, ss.length + r.length ≤ ts.length ∧
      Repeats 0 (suffix (expr n)) ts ss r ∧ ∀ x, ss.foldl Suffix.apply x = f x
  | .primary, ts, e, r => primary (expr n) n ts = .ok (e, r)
  | .args, ts, es, r => arguments (expr n) n ts = .ok (es, r)
  | .moreArgs, ts, es, r => es.length + r.length < ts.length ∧ Repeats 1 (nextArg (expr n)) ts es r
  | .sizes, ts, es, r => es.length + r.length ≤ ts.length ∧ es ≠ [] ∧
      Repeats 0 (nextSize (expr n)) ts es r

/-- Phrases of at most `n` tokens are read with the bound `n`. -/
def IsRead {s : Sym} (d : Phrase s) : Prop :=
  ∀ ⦃n : Nat⦄ ⦃r : List Token⦄, d.yield.length ≤ n → Stops s r →
    Reads n s (d.yield ++ r) d.tree r

section Reading

variable {n : Nat} {r : List Token}

theorem IsRead.level {l : Option Level} {x : Phrase (.level l)} (read : IsRead x)
    (room : x.yield.length ≤ n) (stops : Stops (.level l) r) :
    readLevel n l (x.yield ++ r) = .ok (x.tree, r) := by
  cases l with
  | some l => exact read room stops
  | none =>
    obtain ⟨signs, ts', y, fewer, repeats, ran, whole⟩ := read room stops
    simp only [List.length_append] at fewer
    show signed (expr n) n _ = _
    unfold signed
    rw [bind_run (repeats n (by omega)), bind_run ran, ← whole]
    rfl

/-- An expression with room for one token more is read by the parser of expressions. -/
theorem IsRead.expr {x : Phrase .expr} (read : IsRead x) (room : x.yield.length < n)
    (stops : Stops .expr r) : expr n (x.yield ++ r) = .ok (x.tree, r) := by
  obtain ⟨n, rfl⟩ := Nat.exists_eq_succ_of_ne_zero (show n ≠ 0 by omega)
  exact read (Nat.le_of_lt_succ room) stops

/-- The links of a chain are nested to the side of their level. -/
theorem IsRead.chain {l : Level} {x : Phrase (.level l.tighter)} {more : Phrase (.links l true)}
    (first : IsRead x) (rest : IsRead more) : IsRead (.chain x more) := by
  intro n r room stops
  simp only [Phrase.yield, List.length_append] at room
  obtain ⟨links, fewer, single, repeats, whole⟩ := rest (n := n) (by omega) stops
  simp only [List.length_append] at fewer
  show readLevel n (some l) _ = _
  rw [readLevel_some, Phrase.yield, List.append_assoc]
  unfold Parser.chain
  rw [bind_run (first.level (by omega) (stops_links more stops)), bind_run (repeats _ ?_)]
  · exact congrArg (fun e => Except.ok (e, r)) (whole x.tree)
  · by_cases chains : l.chains = true
    · rw [if_pos chains]
      omega
    · rw [if_neg chains]
      exact single (by simpa using chains)

theorem IsRead.noLinks {l : Level} {linked : Bool} : IsRead (@Phrase.noLinks l linked) := by
  intro n r _ stops
  refine ⟨[], by simp, by simp, .declines (link_declines stops), fun x => nest_nil l x⟩

/-- One operator with its right operand is read. -/
theorem IsRead.link {l : Level} {t : Token} {op : BinOp} (known : Operator l t.kind op)
    {y : Phrase (.level l.tighter)} {more : Phrase (.links l l.chains)} (next : IsRead y)
    (rest : IsRead more) : IsRead (.link t op known y more) := by
  intro n r room stops
  simp only [Phrase.yield, List.length_cons, List.length_append] at room
  obtain ⟨links, fewer, single, repeats, whole⟩ := rest (n := n) (by omega) stops
  have ran := link_run known (next.level (n := n) (by omega) (stops_links more stops))
  rw [Phrase.yield, List.cons_append, List.append_assoc]
  refine ⟨_ :: links, ?_, fun alone => ?_, .cons ran repeats, fun x => ?_⟩
  · simp only [List.length_cons, List.length_append] at fewer ⊢
    omega
  · have none := single alone
    rw [alone] at none
    simpa using none
  · simp only [Phrase.tree]
    rw [← whole, ← whole]
    cases l <;> rfl

theorem IsRead.unsigned {x : Phrase .operand} (read : IsRead x) : IsRead (.unsigned x) := by
  intro n r room stops
  obtain ⟨t, rest, yields, -⟩ := x.first rfl
  refine ⟨[], x.yield ++ r, x.tree, ?_, .declines (sign_declines x), read room stops, rfl⟩
  rw [Phrase.yield, yields]
  simp only [List.length_nil, List.length_append, List.length_cons]
  omega

theorem IsRead.signed {t : Token} {op : UnOp} (known : Sign t.kind op) {x : Phrase (.level none)}
    (read : IsRead x) : IsRead (.signed t op known x) := by
  intro n r room stops
  simp only [Phrase.yield, List.length_cons] at room
  obtain ⟨signs, ts', y, fewer, repeats, ran, whole⟩ := read (n := n) (by omega) stops
  refine ⟨(t.pos, op) :: signs, ts', y, ?_, .cons (sign_run known) repeats, ran, ?_⟩
  · simp only [Phrase.yield, List.length_cons, List.length_append] at fewer ⊢
    omega
  · rw [List.foldr_cons, whole]
    rfl

/-- What is read behind a primary expression or an array construction. -/
theorem operand_run {indexed : Bool} {more : Phrase (.suffixes indexed)} (rest : IsRead more)
    {ts : List Token} {x : Expr} (ran : primary (expr n) n ts = .ok (x, more.yield ++ r))
    (room : more.yield.length ≤ n) (stops : Stops .operand r) :
    operand (expr n) n ts = .ok (more.tree x, r) := by
  obtain ⟨ss, fewer, repeats, whole⟩ := rest room stops
  simp only [List.length_append] at fewer
  unfold operand
  rw [bind_run ran, bind_run (repeats n (by omega)), ← whole]
  rfl

theorem IsRead.operand {x : Phrase .primary} {more : Phrase (.suffixes true)} (first : IsRead x)
    (rest : IsRead more) : IsRead (.operand x more) := by
  intro n r room stops
  simp only [Phrase.yield, List.length_append] at room
  rw [Phrase.yield, List.append_assoc]
  exact operand_run rest (first (n := n) (by omega) (stops_suffixes more stops)) (by omega) stops

/-- A creation is read with its sizes, and cannot be indexed at once. -/
theorem IsRead.creation {word : Word .newWord} {elem : TypePhrase} {sizes : Phrase .sizes}
    {more : Phrase (.suffixes false)} (inside : IsRead sizes) (rest : IsRead more) :
    IsRead (.creation word elem sizes more) := by
  intro n r room stops
  simp only [Phrase.yield, List.length_cons, List.length_append] at room
  obtain ⟨fewer, some, repeats⟩ := inside (n := n) (by omega) (stops_members more stops)
  simp only [List.length_append] at fewer
  rw [Phrase.yield, List.cons_append, List.append_assoc, List.append_assoc]
  refine operand_run rest ?_ (by omega) stops
  rw [primary_new, bind_run (type_run elem (noPair_sizes sizes)), sizes_eq,
    bind_run (repeats n (by omega)), if_neg (by simpa using some)]
  rfl

theorem IsRead.noSuffix {indexed : Bool} : IsRead (@Phrase.noSuffix indexed) := by
  intro n r _ stops
  exact ⟨[], by simp, .declines (suffix_declines (stops.mono (by simp [Sym.rank]))), fun x => rfl⟩

theorem IsRead.index {opening : Mark .lbracket} {i : Phrase .expr} {closing : Mark .rbracket}
    {more : Phrase (.suffixes true)} (inside : IsRead i) (rest : IsRead more) :
    IsRead (.index opening i closing more) := by
  intro n r room stops
  simp only [Phrase.yield, List.length_cons, List.length_append] at room
  obtain ⟨ss, fewer, repeats, whole⟩ := rest (n := n) (by omega) stops
  have ran := index_run opening closing (inside.expr (n := n) (r := closing.token :: (more.yield ++ r))
    (by omega) (closing.stops_iff.2 (by decide)))
  rw [Phrase.yield, List.cons_append, List.append_assoc]
  refine ⟨_ :: ss, ?_, .cons ran repeats, fun x => whole _⟩
  simp only [List.length_cons, List.length_append] at fewer ⊢
  omega

theorem IsRead.member {indexed : Bool} {dot : Mark .dot} {name : Tok .ident}
    {more : Phrase (.suffixes true)} (rest : IsRead more) :
    IsRead (@Phrase.member indexed dot name more) := by
  intro n r room stops
  simp only [Phrase.yield, List.length_cons] at room
  obtain ⟨ss, fewer, repeats, whole⟩ := rest (n := n) (by omega) (stops.mono (by simp [Sym.rank]))
  refine ⟨_ :: ss, ?_, .cons (member_run dot name) repeats, fun x => whole _⟩
  simp only [Phrase.yield, List.length_cons, List.length_append] at fewer ⊢
  omega

theorem IsRead.literal {t : Token} {e : Expr} (known : Literal t e) :
    IsRead (.literal t e known) := by
  intro n r _ _
  exact primary_literal n r known

theorem IsRead.var {name : Tok .ident} : IsRead (.var name) := by
  intro n r _ stops
  have less := Stops.first stops (by decide)
  show primary (Parser.expr n) n (name.token :: r) = _
  rw [primary_ident, bind_run (got_other fun opens => ?_)]
  · rfl
  · rw [opens] at less
    exact absurd less (by decide)

theorem IsRead.call {name : Tok .ident} {opening : Mark .lparen} {args : Phrase .args}
    (inside : IsRead args) : IsRead (.call name opening args) := by
  intro n r room stops
  simp only [Phrase.yield, List.length_cons] at room
  show primary (Parser.expr n) n (name.token :: opening.token :: (args.yield ++ r)) = _
  have ran : arguments (Parser.expr n) n (args.yield ++ r) = .ok (args.tree, r) :=
    inside (by omega) (stops.mono (by decide))
  rw [primary_ident, bind_run (got_tok opening (by decide) _), if_pos rfl, bind_run ran]
  rfl

theorem IsRead.paren {opening : Mark .lparen} {x : Phrase .expr} {closing : Mark .rparen}
    (inside : IsRead x) : IsRead (.paren opening x closing) := by
  intro n r room _
  simp only [Phrase.yield, List.length_cons, List.length_append] at room
  show primary (Parser.expr n) n _ = _
  rw [Phrase.yield, List.cons_append, List.append_assoc, List.cons_append, List.nil_append,
    primary_lparen, bind_run (inside.expr (by omega) (closing.stops_iff.2 (by decide))),
    bind_run (expect_tok closing (by decide) r)]
  rfl

theorem IsRead.noArgs {closing : Mark .rparen} : IsRead (.noArgs closing) := by
  intro n r _ _
  show arguments (Parser.expr n) n (closing.token :: r) = _
  rw [arguments_eq, bind_run (got_tok closing (by decide) r)]
  rfl

/-- Arguments are read up to the closing parenthesis. -/
theorem IsRead.firstArg {x : Phrase .expr} {more : Phrase .moreArgs} (first : IsRead x)
    (rest : IsRead more) : IsRead (.firstArg x more) := by
  intro n r room stops
  simp only [Phrase.yield, List.length_append] at room
  obtain ⟨u, others, ends, -⟩ := more.first rfl
  have some : 0 < more.yield.length := by simp [ends]
  obtain ⟨fewer, repeats⟩ := rest (n := n) (by omega) stops
  simp only [List.length_append] at fewer
  show arguments (Parser.expr n) n _ = _
  rw [Phrase.yield, List.append_assoc, arguments_eq, bind_run (got_other ?_)]
  · show (Parser.expr n >>= fun first => many (Parser.nextArg (Parser.expr n)) n >>= fun rest =>
      pure (first :: rest)) _ = _
    rw [bind_run (first.expr (by omega) (stops_moreArgs more)), bind_run (repeats n (by omega))]
    rfl
  · obtain ⟨t, others, yields, starts⟩ := x.first rfl
    rw [yields]
    intro closes
    rw [show (Parser.first _).kind = t.kind from rfl] at closes
    rw [closes] at starts
    cases starts

theorem IsRead.lastArg {closing : Mark .rparen} : IsRead (.lastArg closing) := by
  intro n r _ _
  exact ⟨by simp [Phrase.yield, Phrase.tree], .closes (nextArg_closes closing)⟩

theorem IsRead.nextArg {comma : Mark .comma} {x : Phrase .expr} {more : Phrase .moreArgs}
    (first : IsRead x) (rest : IsRead more) : IsRead (.nextArg comma x more) := by
  intro n r room stops
  simp only [Phrase.yield, List.length_cons, List.length_append] at room
  obtain ⟨fewer, repeats⟩ := rest (n := n) (by omega) stops
  have ran := nextArg_run comma (first.expr (n := n) (by omega) (stops_moreArgs (r := r) more))
  rw [Phrase.yield, List.cons_append, List.append_assoc]
  refine ⟨?_, .cons ran repeats⟩
  simp only [Phrase.tree, List.length_cons, List.length_append] at fewer ⊢
  omega

theorem IsRead.lastSize {opening : Mark .lbracket} {x : Phrase .expr} {closing : Mark .rbracket}
    (inside : IsRead x) : IsRead (.lastSize opening x closing) := by
  intro n r room stops
  simp only [Phrase.yield, List.length_cons, List.length_append] at room
  have ran := nextSize_run opening closing (inside.expr (n := n) (r := closing.token :: r) (by omega)
    (closing.stops_iff.2 (by decide)))
  rw [Phrase.yield, List.cons_append, List.append_assoc]
  refine ⟨?_, nofun, .cons ran (.declines (nextSize_declines stops))⟩
  simp only [Phrase.tree, List.length_cons, List.length_append, List.length_nil]
  omega

theorem IsRead.nextSize {opening : Mark .lbracket} {x : Phrase .expr} {closing : Mark .rbracket}
    {more : Phrase .sizes} (inside : IsRead x) (rest : IsRead more) :
    IsRead (.nextSize opening x closing more) := by
  intro n r room stops
  simp only [Phrase.yield, List.length_cons, List.length_append] at room
  obtain ⟨fewer, -, repeats⟩ := rest (n := n) (by omega) stops
  have ran := nextSize_run opening closing (inside.expr (n := n)
    (r := closing.token :: (more.yield ++ r)) (by omega) (closing.stops_iff.2 (by decide)))
  rw [Phrase.yield, List.cons_append, List.append_assoc]
  refine ⟨?_, nofun, .cons ran repeats⟩
  simp only [Phrase.tree, List.length_cons, List.length_append] at fewer ⊢
  omega

end Reading

/-- Every phrase is read. -/
theorem isRead {s : Sym} (d : Phrase s) : IsRead d := by
  induction d with
  | chain x more ihx ihmore => exact .chain ihx ihmore
  | noLinks => exact .noLinks
  | link t op known y more ihy ihmore => exact .link known ihy ihmore
  | unsigned x ih => exact .unsigned ih
  | signed t op known x ih => exact .signed known ih
  | operand x more ihx ihmore => exact .operand ihx ihmore
  | creation word elem sizes more ihsizes ihmore => exact .creation ihsizes ihmore
  | noSuffix => exact .noSuffix
  | index opening i closing more ihi ihmore => exact .index ihi ihmore
  | member dot name more ihmore => exact .member ihmore
  | literal t e known => exact .literal known
  | var name => exact .var
  | call name opening args ih => exact .call ih
  | paren opening x closing ih => exact .paren ih
  | noArgs closing => exact .noArgs
  | firstArg x more ihx ihmore => exact .firstArg ihx ihmore
  | lastArg closing => exact .lastArg
  | nextArg comma x more ihx ihmore => exact .nextArg ihx ihmore
  | lastSize opening x closing ih => exact .lastSize ih
  | nextSize opening x closing more ihx ihmore => exact .nextSize ihx ihmore

theorem expr_run (x : Phrase .expr) {n : Nat} (room : x.yield.length < n)
    (stops : Stops .expr r) : expr n (x.yield ++ r) = .ok (x.tree, r) :=
  (isRead x).expr room stops

/-! ## Statements -/

theorem length_le_yieldMore (yield : α → List Token) (more : List (Mark .comma × α)) :
    more.length ≤ (Listed.yieldMore yield more).length := by
  induction more with
  | nil => exact Nat.zero_le _
  | cons p more ih =>
    simp only [Listed.yieldMore, List.flatMap_cons, List.length_append, List.length_cons] at ih ⊢
    omega

def nextItem (n : Nat) : Parser (Option DeclItem) := do
  if ← got (.punct .comma) then return some (← declItem n) else return none

def nextStmt (part : Parser Stmt) : Parser (Option Stmt) := do
  if ← got (.punct .rbrace) then return none
  let t ← peek
  if t.kind = .eof then fail t.pos .unclosedBlock else return some (← part)

theorem declaration_eq (n : Nat) : declaration n = (do
    let start ← peek
    let t ← type
    let first ← declItem n
    let rest ← many (nextItem n) n
    let _ ← expect (.punct .semicolon)
    return .decl start.pos t (first :: rest)) := rfl

theorem statements_eq (part : Parser Stmt) (n : Nat) : statements part n = many (nextStmt part) n :=
  rfl

section Pieces

variable {n : Nat} {r : List Token}

/-- A declared variable is read with its initial value. -/
theorem declItem_run {i : ItemPhrase} (room : i.yield.length ≤ n) (ends : Separated .semicolon r) :
    declItem n (i.yield ++ r) = .ok (i.tree, r) := by
  obtain ⟨name, init⟩ := i
  unfold declItem
  cases init with
  | none =>
    have other : (first r).kind ≠ .punct .assign := by
      cases r with
      | nil => decide
      | cons t r =>
        intro assigns
        let mark : Mark .assign := ⟨t, assigns⟩
        exact (show ¬ Separated .semicolon (mark.token :: r) from
          Separated.not_assign (by decide)) ends
    show (expect .ident >>= _) (name.token :: r) = _
    rw [bind_run (expect_tok name (by decide) r), bind_run (got_other other)]
    rfl
  | some q =>
    obtain ⟨mark, x⟩ := q
    simp only [ItemPhrase.yield, List.length_cons] at room
    show (expect .ident >>= _) (name.token :: mark.token :: (x.yield ++ r)) = _
    rw [bind_run (expect_tok name (by decide) _), bind_run (got_tok mark (by decide) _),
      if_pos rfl, bind_run (expr_run x (by omega) (ends.stops rfl))]
    rfl

/-- Declared variables are read up to the semicolon. -/
theorem items_repeat {more : List (Mark .comma × ItemPhrase)} (mark : Mark .semicolon)
    (room : (Listed.yieldMore ItemPhrase.yield more).length ≤ n) :
    Repeats 0 (nextItem n) (Listed.yieldMore ItemPhrase.yield more ++ mark.token :: r)
      (more.map fun p => p.2.tree) (mark.token :: r) := by
  induction more with
  | nil =>
    refine .declines ?_
    show nextItem n (mark.token :: r) = .ok (none, mark.token :: r)
    unfold nextItem
    rw [bind_run (got_else mark (by decide) r)]
    rfl
  | cons p more ih =>
    simp only [Listed.yieldMore, List.flatMap_cons, List.length_append, List.length_cons] at room
    refine .cons (a := p.2.tree) ?_ (ih (by simp only [Listed.yieldMore]; omega))
    show nextItem n (p.1.token :: (p.2.yield ++ Listed.yieldMore ItemPhrase.yield more) ++ _) = _
    unfold nextItem
    rw [List.cons_append, List.append_assoc, bind_run (got_tok p.1 (by decide) _), if_pos rfl,
      bind_run (declItem_run (by omega) (Listed.separated_more _ more mark r))]
    rfl

theorem declaration_run (type : TypePhrase) (items : Listed ItemPhrase) (mark : Mark .semicolon)
    (room : (items.yield ItemPhrase.yield).length ≤ n) :
    declaration n (type.yield ++ (items.yield ItemPhrase.yield ++ mark.token :: r)) =
      .ok (.decl type.word.pos type.tree (items.tree ItemPhrase.tree), r) := by
  have fewer := length_le_yieldMore ItemPhrase.yield items.more
  simp only [Listed.yield, List.length_append] at room
  rw [declaration_eq, bind_run (peek_run _), bind_run (type_run type (noPair_items items)),
    Listed.yield, List.append_assoc,
    bind_run (declItem_run (by omega) (Listed.separated_more _ items.more mark r)),
    bind_run (items_repeat mark (by omega) n (by simp; omega)),
    bind_run (expect_tok mark (by decide) r)]
  rfl

theorem condition_run (c : Condition) (room : c.x.yield.length < n) :
    condition n (c.yield ++ r) = .ok (c.x.tree, r) := by
  unfold condition
  rw [Condition.yield, List.cons_append, List.append_assoc, List.cons_append, List.nil_append,
    bind_run (expect_tok c.opening (by decide) _),
    bind_run (expr_run c.x room (c.closing.stops_iff.2 (by decide))),
    bind_run (expect_tok c.closing (by decide) r)]
  rfl

/-- The parser takes variables and elements as targets, as the grammar does. -/
theorem isAssignable_iff {e : Expr} : isAssignable e = true ↔ Target e := by
  constructor
  · intro known
    unfold isAssignable at known
    split at known
    · exact .ident
    · exact .index
    · cases known
  · rintro ⟨⟩ <;> rfl

theorem count_run {mark : Token} {down : Bool} (known : Counter mark.kind down) (p q : Pos)
    (name : Text) : simpleTail p (.ident q name) n (mark :: r) = .ok (.incr p name down, r) := by
  have real : mark.kind ≠ .eof := fun eof => by cases eof ▸ known
  unfold simpleTail
  rw [bind_run (peek_run _)]
  generalize kind : mark.kind = k at known
  cases known with
  | inc =>
    simp only [first, kind]
    rw [bind_run (next_run real r)]
    rfl
  | dec =>
    simp only [first, kind]
    rw [bind_run (next_run real r)]
    rfl

/-- What stands behind the first expression of a statement decides which statement it is. -/
theorem simpleTail_run {e : Expr} (tail : Tail e) (p : Pos) (mark : Mark .semicolon)
    (room : tail.yield.length ≤ n) :
    simpleTail p e n (tail.yield ++ mark.token :: r) = .ok (tail.tree p, mark.token :: r) := by
  cases tail with
  | assign place assigns value =>
    simp only [Tail.yield, List.length_cons] at room
    unfold simpleTail
    rw [Tail.yield, List.cons_append, bind_run (peek_run _)]
    simp only [first, assigns.kind]
    rw [if_pos (isAssignable_iff.2 place), bind_run (next_tok assigns (by decide) _),
      bind_run (expr_run value (by omega) (mark.stops_iff.2 (by decide)))]
    rfl
  | count q name is counter down known =>
    show simpleTail p e n (counter :: mark.token :: r) = .ok (.incr p name down, _)
    rw [is, count_run known]
  | none =>
    unfold simpleTail
    rw [Tail.yield, List.nil_append, bind_run (peek_run _)]
    simp only [first, mark.kind]
    rfl

theorem simple_run (x : Phrase .expr) (tail : Tail x.tree) (mark : Mark .semicolon)
    (room : x.yield.length < n) (room' : tail.yield.length ≤ n) :
    simple n (x.yield ++ (tail.yield ++ mark.token :: r)) =
      .ok (tail.tree (startOf x.yield), r) := by
  have start : (first (x.yield ++ (tail.yield ++ mark.token :: r))).pos = startOf x.yield := by
    obtain ⟨t, rest, yields, -⟩ := x.first rfl
    rw [yields]
    rfl
  unfold simple
  rw [bind_run (peek_run _), bind_run (expr_run x room tail.stops), start,
    bind_run (simpleTail_run tail _ mark room'), bind_run (expect_tok mark (by decide) r)]
  rfl

/-- A return is read with or without a value. -/
theorem returning_run (word : Word .returnWord) (value : Option (Phrase .expr))
    (mark : Mark .semicolon) (room : (StmtPhrase.yieldValue value).length < n) :
    returning n (word.token :: (StmtPhrase.yieldValue value ++ mark.token :: r)) =
      .ok (StmtPhrase.treeValue word.pos value, r) := by
  unfold returning
  rw [bind_run (next_tok word (by decide) _)]
  cases value with
  | none =>
    rw [StmtPhrase.yieldValue, List.nil_append, bind_run (got_tok mark (by decide) r)]
    rfl
  | some x =>
    obtain ⟨t, rest, yields, starts⟩ := x.first rfl
    have other : (first (x.yield ++ mark.token :: r)).kind ≠ .punct .semicolon := by
      rw [yields]
      intro ends
      rw [show t.kind = .punct .semicolon from ends] at starts
      cases starts
    rw [StmtPhrase.yieldValue, bind_run (got_other other)]
    show (expr n >>= fun e => expect (.punct .semicolon) >>= fun _ =>
      pure (Stmt.ret word.token.pos e)) _ = _
    rw [bind_run (expr_run x room (mark.stops_iff.2 (by decide))),
      bind_run (expect_tok mark (by decide) r)]
    rfl

end Pieces

/-- The parser of statements, or of the statements of a block, reads a tree at the start of `ts`
and leaves `r`. -/
def StmtReads (n : Nat) : (s : StmtSym) → List Token → s.Tree → List Token → Prop
  | .stmt _, ts, t, r => stmt (n + 1) ts = .ok (t, r)
  | .body, ts, body, r => body.length + r.length < ts.length ∧
      Repeats 1 (nextStmt (stmt n)) ts body r

/-- Statements of at most `n` tokens are read with the bound `n`. -/
def IsStmtRead {s : StmtSym} (d : StmtPhrase s) : Prop :=
  ∀ ⦃n : Nat⦄ ⦃r : List Token⦄, d.yield.length ≤ n → StmtStops s r →
    StmtReads n s (d.yield ++ r) d.tree r

section Dispatch

variable (n : Nat) {t : Token} (ts : List Token)

theorem stmt_semicolon (mark : Mark .semicolon) :
    stmt (n + 1) (mark.token :: ts) = .ok (.empty mark.pos, ts) := by
  obtain ⟨⟨_, value, pos⟩, kind⟩ := mark
  cases kind
  rfl

theorem stmt_lbrace (opening : Mark .lbrace) :
    stmt (n + 1) (opening.token :: ts) =
      (block (stmt n) n >>= fun q => pure (.block q.1 q.2)) (opening.token :: ts) := by
  obtain ⟨⟨_, value, pos⟩, kind⟩ := opening
  cases kind
  rfl

theorem stmt_return (word : Word .returnWord) :
    stmt (n + 1) (word.token :: ts) = returning n (word.token :: ts) := by
  obtain ⟨⟨_, value, pos⟩, kind⟩ := word
  cases kind
  rfl

theorem stmt_if (word : Word .ifWord) :
    stmt (n + 1) (word.token :: ts) = conditional (stmt n) n (word.token :: ts) := by
  obtain ⟨⟨_, value, pos⟩, kind⟩ := word
  cases kind
  rfl

theorem stmt_while (word : Word .whileWord) :
    stmt (n + 1) (word.token :: ts) = whileLoop (stmt n) n (word.token :: ts) := by
  obtain ⟨⟨_, value, pos⟩, kind⟩ := word
  cases kind
  rfl

theorem stmt_for (word : Word .forWord) :
    stmt (n + 1) (word.token :: ts) = forLoop (stmt n) n (word.token :: ts) := by
  obtain ⟨⟨_, value, pos⟩, kind⟩ := word
  cases kind
  rfl

/-- A statement that starts like an expression is read as one. -/
theorem stmt_simple (starts : startsExpr t.kind = true) :
    stmt (n + 1) (t :: ts) = simple n (t :: ts) := by
  rw [stmt, bind_run (peek_run _)]
  simp only [first]
  generalize t.kind = k at starts
  have none : base? k = none := by
    rw [Option.eq_none_iff_forall_not_mem]
    intro b known
    cases base?_iff.1 known <;> cases starts
  split <;> first | cases starts | simp [none]

theorem stmt_decl {b : Base} (names : BaseWord t.kind b) :
    stmt (n + 1) (t :: ts) = declaration n (t :: ts) := by
  rw [stmt, bind_run (peek_run _)]
  simp only [first]
  generalize t.kind = k at names
  cases names <;> rfl

end Dispatch

section Reading

variable {n : Nat} {hanging : Bool} {cond : Condition}

/-- A statement with room for one token more is read by the parser of statements. -/
theorem IsStmtRead.stmt {d : StmtPhrase (.stmt hanging)} (read : IsStmtRead d)
    (room : d.yield.length < n) (stops : StmtStops (.stmt hanging) r) :
    Parser.stmt n (d.yield ++ r) = .ok (d.tree, r) := by
  cases n with
  | zero => exact absurd room (Nat.not_lt_zero _)
  | succ n => exact read (Nat.le_of_lt_succ room) stops

theorem IsStmtRead.empty {mark : Mark .semicolon} : IsStmtRead (.empty mark) := by
  intro n r _ _
  exact stmt_semicolon n r mark

theorem block_run {opening : Mark .lbrace} {body : StmtPhrase .body} (inside : IsStmtRead body)
    (room : body.yield.length ≤ n) :
    block (Parser.stmt n) n (opening.token :: (body.yield ++ r)) =
      .ok ((opening.pos, body.tree), r) := by
  obtain ⟨fewer, repeats⟩ := inside room (r := r) trivial
  simp only [List.length_append] at fewer
  unfold block
  rw [bind_run (expect_tok opening (by decide) _), statements_eq, bind_run (repeats n (by omega))]
  rfl

theorem IsStmtRead.block {opening : Mark .lbrace} {body : StmtPhrase .body}
    (inside : IsStmtRead body) : IsStmtRead (.block opening body) := by
  intro n r room _
  simp only [StmtPhrase.yield, List.length_cons] at room
  show Parser.stmt (n + 1) (opening.token :: (body.yield ++ r)) = _
  rw [stmt_lbrace, bind_run (block_run inside (by omega))]
  rfl

theorem IsStmtRead.decl {type : TypePhrase} {items : Listed ItemPhrase} {mark : Mark .semicolon} :
    IsStmtRead (.decl type items mark) := by
  intro n r room _
  simp only [StmtPhrase.yield, List.length_append] at room
  have ran := declaration_run (r := r) type items mark (n := n) (by omega)
  show Parser.stmt (n + 1) _ = _
  rw [StmtPhrase.yield, List.append_assoc, List.append_assoc, List.cons_append, List.nil_append]
  rw [TypePhrase.yield, List.cons_append] at ran ⊢
  rw [stmt_decl n _ type.names, ran]
  rfl

theorem IsStmtRead.ret {word : Word .returnWord} {value : Option (Phrase .expr)}
    {mark : Mark .semicolon} : IsStmtRead (.ret word value mark) := by
  intro n r room _
  simp only [StmtPhrase.yield, List.length_cons, List.length_append] at room
  show Parser.stmt (n + 1) _ = _
  rw [StmtPhrase.yield, List.cons_append, List.append_assoc, List.cons_append, List.nil_append,
    stmt_return]
  exact returning_run word value mark (by omega)

/-- A condition without `else` is read where no `else` follows. -/
theorem IsStmtRead.ifThen {word : Word .ifWord}
    {yes : StmtPhrase (.stmt hanging)} (inside : IsStmtRead yes) :
    IsStmtRead (.ifThen word cond yes) := by
  intro n r room stops
  simp only [StmtPhrase.yield, Condition.yield, List.length_cons, List.length_append] at room
  have other : (first r).kind ≠ .keyword .elseWord := by
    cases r with
    | nil => decide
    | cons t r => exact stops
  show Parser.stmt (n + 1) _ = _
  rw [StmtPhrase.yield, List.cons_append, List.append_assoc, stmt_if]
  unfold conditional
  rw [bind_run (next_tok word (by decide) _), bind_run (condition_run cond (by omega)),
    bind_run (inside.stmt (by omega) (NoElse.stops stops _)), bind_run (got_other other)]
  rfl

/-- An `else` goes with the last condition that has none. -/
theorem IsStmtRead.ifElse {word : Word .ifWord}
    {yes : StmtPhrase (.stmt false)} {alternative : Word .elseWord}
    {no : StmtPhrase (.stmt hanging)} (inside : IsStmtRead yes) (otherwise : IsStmtRead no) :
    IsStmtRead (.ifElse word cond yes alternative no) := by
  intro n r room stops
  simp only [StmtPhrase.yield, Condition.yield, List.length_cons, List.length_append] at room
  show Parser.stmt (n + 1) _ = _
  rw [StmtPhrase.yield, List.cons_append, List.append_assoc, List.append_assoc, List.cons_append,
    stmt_if]
  unfold conditional
  rw [bind_run (next_tok word (by decide) _), bind_run (condition_run cond (by omega)),
    bind_run (inside.stmt (by omega) trivial), bind_run (got_tok alternative (by decide) _),
    if_pos rfl, bind_run (otherwise.stmt (by omega) stops)]
  rfl

theorem IsStmtRead.while {word : Word .whileWord}
    {body : StmtPhrase (.stmt hanging)} (inside : IsStmtRead body) :
    IsStmtRead (.while word cond body) := by
  intro n r room stops
  simp only [StmtPhrase.yield, Condition.yield, List.length_cons, List.length_append] at room
  show Parser.stmt (n + 1) _ = _
  rw [StmtPhrase.yield, List.cons_append, List.append_assoc, stmt_while]
  unfold whileLoop
  rw [bind_run (next_tok word (by decide) _), bind_run (condition_run cond (by omega)),
    bind_run (inside.stmt (by omega) stops)]
  rfl

theorem IsStmtRead.forEach {word : Word .forWord} {opening : Mark .lparen}
    {elem : TypePhrase} {name : Tok .ident} {colon : Mark .colon} {array : Phrase .expr}
    {closing : Mark .rparen} {body : StmtPhrase (.stmt hanging)} (inside : IsStmtRead body) :
    IsStmtRead (.forEach word opening elem name colon array closing body) := by
  intro n r room stops
  simp only [StmtPhrase.yield, List.length_cons, List.length_append] at room
  show Parser.stmt (n + 1) _ = _
  rw [StmtPhrase.yield, List.cons_append, List.cons_append, List.append_assoc, List.cons_append,
    List.cons_append, List.append_assoc, List.cons_append, stmt_for]
  unfold forLoop
  rw [bind_run (next_tok word (by decide) _), bind_run (expect_tok opening (by decide) _),
    bind_run (type_run elem (noPair_ident name)), bind_run (expect_tok name (by decide) _),
    bind_run (expect_tok colon (by decide) _),
    bind_run (expr_run array (by omega) (closing.stops_iff.2 (by decide))),
    bind_run (expect_tok closing (by decide) _), bind_run (inside.stmt (by omega) stops)]
  rfl

theorem IsStmtRead.simple {x : Phrase .expr} {tail : Tail x.tree} {mark : Mark .semicolon} :
    IsStmtRead (.simple x tail mark) := by
  intro n r room _
  simp only [StmtPhrase.yield, List.length_append, List.length_cons] at room
  have ran := simple_run (n := n) (r := r) x tail mark (by omega) (by omega)
  obtain ⟨t, rest, yields, starts⟩ := x.first rfl
  show Parser.stmt (n + 1) _ = _
  rw [StmtPhrase.yield, List.append_assoc, List.append_assoc, List.cons_append, List.nil_append,
    ← show Parser.simple n _ = .ok (StmtPhrase.tree (.simple x tail mark), r) from ran, yields,
    List.cons_append, stmt_simple n _ starts]

theorem IsStmtRead.closed {closing : Mark .rbrace} : IsStmtRead (.closed closing) := by
  intro n r _ _
  refine ⟨by simp [StmtPhrase.yield, StmtPhrase.tree], .closes ?_⟩
  show nextStmt (Parser.stmt n) (closing.token :: r) = _
  unfold nextStmt
  rw [bind_run (got_tok closing (by decide) r)]
  rfl

/-- Statements are read up to the closing brace. -/
theorem IsStmtRead.inner {s : StmtPhrase (.stmt hanging)}
    {rest : StmtPhrase .body} (first : IsStmtRead s) (others : IsStmtRead rest) :
    IsStmtRead (.inner s rest) := by
  intro n r room _
  simp only [StmtPhrase.yield, List.length_append] at room
  obtain ⟨t, behind, yields, form⟩ := s.first
  obtain ⟨u, more, ends, -⟩ := rest.first
  have here : 0 < s.yield.length := by simp [yields]
  have there : 0 < rest.yield.length := by simp [ends]
  obtain ⟨fewer, repeats⟩ := others (n := n) (r := r) (by omega) trivial
  have ran := first.stmt (n := n) (by omega) ((rest.noElse r).stops _)
  rw [StmtPhrase.yield, List.append_assoc]
  refine ⟨?_, .cons ?_ repeats⟩
  · simp only [StmtPhrase.tree, List.length_cons, List.length_append] at fewer ⊢
    omega
  · have kind : (Parser.first (s.yield ++ (rest.yield ++ r))).kind = t.kind := by
      rw [yields]
      rfl
    have goesOn : t.kind ≠ .punct .rbrace := fun closes => by
      rw [closes] at form
      exact s.form_ne_close form.symm
    have real : t.kind ≠ .eof := fun eof => by
      rw [eof] at form
      exact s.form_ne_stray form.symm
    unfold nextStmt
    rw [bind_run (got_other (by rwa [kind]))]
    show (peek >>= fun t => if t.kind = .eof then fail t.pos .unclosedBlock else
      Parser.stmt n >>= fun s => pure (some s)) _ = _
    rw [bind_run (peek_run _), if_neg (by rwa [kind]), bind_run ran]
    rfl

end Reading

/-- Every statement is read. -/
theorem isStmtRead {s : StmtSym} (d : StmtPhrase s) : IsStmtRead d := by
  induction d with
  | empty mark => exact .empty
  | block opening body ih => exact .block ih
  | decl type items mark => exact .decl
  | ret word value mark => exact .ret
  | ifThen word cond yes ih => exact .ifThen ih
  | ifElse word cond yes alternative no ihyes ihno => exact .ifElse ihyes ihno
  | «while» word cond body ih => exact .while ih
  | forEach word opening elem name colon array closing body ih => exact .forEach ih
  | simple x tail mark => exact .simple
  | closed closing => exact .closed
  | inner s rest ihs ihrest => exact .inner ihs ihrest

/-! ## Programs -/

def nextFunction (n : Nat) : Parser (Option FuncDef) := do
  if (← peek).kind = .eof then return none else return some (← function n)

theorem parameters_eq (n : Nat) : parameters n = (do
    if ← got (.punct .rparen) then return []
    let first ← param
    let rest ← many (nextArg param) n
    return first :: rest) := rfl

theorem program_eq (n : Nat) : program n = (do
    let fs ← many (nextFunction n) n
    return ⟨fs⟩) := rfl

section Programs

variable {n : Nat} {r : List Token}

theorem param_run (q : ParamPhrase) : param (q.yield ++ r) = .ok (q.tree, r) := by
  unfold param
  rw [bind_run (peek_run _), ParamPhrase.yield, List.append_assoc, List.cons_append,
    List.nil_append, bind_run (type_run q.type (noPair_ident q.name)),
    bind_run (expect_tok q.name (by decide) r)]
  rfl

theorem params_repeat (more : List (Mark .comma × ParamPhrase)) (closing : Mark .rparen) :
    Repeats 1 (nextArg param) (Listed.yieldMore ParamPhrase.yield more ++ closing.token :: r)
      (more.map fun p => p.2.tree) r := by
  induction more with
  | nil => exact .closes (nextArg_closes closing)
  | cons p more ih =>
    refine .cons (a := p.2.tree) ?_ ih
    rw [Listed.yieldMore, List.flatMap_cons, List.append_assoc, List.cons_append]
    exact nextArg_run p.1 (param_run p.2)

theorem parameters_run (qs : Option (Listed ParamPhrase)) (closing : Mark .rparen)
    (room : (FunctionPhrase.yieldParams qs).length < n) :
    parameters n (FunctionPhrase.yieldParams qs ++ closing.token :: r) =
      .ok (FunctionPhrase.treeParams qs, r) := by
  rw [parameters_eq]
  cases qs with
  | none =>
    rw [FunctionPhrase.yieldParams, List.nil_append, bind_run (got_tok closing (by decide) r)]
    rfl
  | some qs =>
    have fewer := length_le_yieldMore ParamPhrase.yield qs.more
    simp only [FunctionPhrase.yieldParams, Listed.yield, List.length_append] at room
    have other : (first (qs.yield ParamPhrase.yield ++ closing.token :: r)).kind ≠
        .punct .rparen := fun closes => by
      have names := qs.first.type.names
      rw [show qs.first.type.word.kind = .punct .rparen from closes] at names
      cases names
    rw [FunctionPhrase.yieldParams, bind_run (got_other other), Listed.yield, List.append_assoc]
    show (param >>= fun first => many (nextArg param) n >>= fun rest =>
      pure (first :: rest)) _ = _
    rw [bind_run (param_run qs.first),
      bind_run (params_repeat qs.more closing n (by simp; omega))]
    rfl

/-- A function of the grammar is read as its tree. -/
theorem function_run (f : FunctionPhrase) (room : f.yield.length ≤ n) :
    function n (f.yield ++ r) = .ok (f.tree, r) := by
  simp only [FunctionPhrase.yield, List.length_append, List.length_cons] at room
  unfold function
  rw [bind_run (peek_run _), FunctionPhrase.yield, List.append_assoc, List.cons_append,
    List.cons_append, List.append_assoc, List.cons_append, List.cons_append,
    bind_run (type_run f.ret (noPair_ident f.name)), bind_run (expect_tok f.name (by decide) _),
    bind_run (expect_tok f.opening (by decide) _),
    bind_run (parameters_run f.params f.closing (by omega)),
    bind_run (block_run (isStmtRead f.body) (by omega))]
  rfl

/-- Functions are read up to the end of the text. -/
theorem functions_repeat {p : ProgramPhrase} {last : Token} (eof : last.kind = .eof)
    (room : p.yield.length ≤ n) :
    Repeats 0 (nextFunction n) (p.yield ++ [last]) (p.map FunctionPhrase.tree) [last] := by
  induction p with
  | nil =>
    refine .declines ?_
    show nextFunction n [last] = .ok (none, [last])
    unfold nextFunction
    rw [bind_run (peek_run _), if_pos (show (first [last]).kind = .eof from eof)]
    rfl
  | cons f p ih =>
    simp only [ProgramPhrase.yield, List.flatMap_cons, List.length_append] at room
    refine .cons (a := f.tree) ?_ (ih (by simp only [ProgramPhrase.yield]; omega))
    have real : ∀ ts, (first (f.yield ++ ts)).kind ≠ .eof := fun ts eof => by
      have names := f.ret.names
      rw [show f.ret.word.kind = .eof from eof] at names
      cases names
    show nextFunction n (f.yield ++ ProgramPhrase.yield p ++ [last]) = _
    unfold nextFunction
    rw [List.append_assoc, bind_run (peek_run _), if_neg (real _),
      bind_run (function_run f (by omega))]
    rfl

/-- The tokens of a program are read. -/
theorem program_run {p : ProgramPhrase} {last : Token} (eof : last.kind = .eof) :
    Program.ofTokens (p.yield ++ [last]) = .ok p.tree := by
  have fewer : p.length ≤ p.yield.length := by
    induction p with
    | nil => exact Nat.zero_le _
    | cons f p ih =>
      simp only [ProgramPhrase.yield, List.flatMap_cons, List.length_append, List.length_cons,
        FunctionPhrase.yield] at ih ⊢
      omega
  have ran := functions_repeat (p := p) (n := (p.yield ++ [last]).length) eof (by simp)
  unfold Program.ofTokens
  rw [program_eq, bind_run (ran _ (by simp; omega))]
  rfl

end Programs

end ImpCompiler.Parser
