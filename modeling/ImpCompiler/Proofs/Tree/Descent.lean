import ImpCompiler.Proofs.Token.Modes
import ImpCompiler.Proofs.Tree.Accepts

/-!
# Proofs.Tree.Descent — the parser stays on the tokens

On tokens that end in the end of the file every function of the parser comes to an end: it
looks at no place where there is no token, its bounds are not used up, and it leaves the end of
the file. What a parser looks at is said by the moves that it is put together from (`InRange`).
That bounds are not used up is said of two parsers with different ones, which are put together
in the same way and so do the same (`Takes`): what a parser takes is counted, and nested parts
and repetitions have fewer tokens left.
-/

namespace ImpCompiler

set_option autoImplicit false

namespace Parser

variable {α β : Type} {ts : List Token}

/-! ## Moves in range -/

def second : Parser Token := fun ts => .ok (first (ts.drop 1), ts)

/-- On the tokens left the parser is put together from moves that are each made where there is
a token. -/
inductive InRange : {α : Type} → Parser α → List Token → Prop
  | pure {α : Type} (a : α) (ts : List Token) : InRange (pure a) ts
  | fail {α : Type} (p : Pos) (cause : SyntaxCause) (ts : List Token) : InRange (fail p cause : Parser α) ts
  | peek (t : Token) (ts : List Token) : InRange peek (t :: ts)
  | next (t : Token) (ts : List Token) : InRange next (t :: ts)
  | second (t u : Token) (ts : List Token) : InRange second (t :: u :: ts)
  | bind {α β : Type} {x : Parser α} {f : α → Parser β} {ts : List Token} : InRange x ts →
      (∀ a r, x ts = .ok (a, r) → InRange (f a) r) → InRange (x >>= f) ts

theorem bind_error {x : Parser α} {f : α → Parser β} {e : SyntaxError}
    (ran : x ts = .error e) : (x >>= f) ts = .error e := by
  show (x ts >>= fun q => f q.1 q.2) = _
  rw [ran]
  rfl

/-- A parser that stays in range does the same whatever stands behind the tokens. -/
theorem InRange.append {x : Parser α} (inRange : InRange x ts) (more : List Token) :
    x (ts ++ more) = (x ts).map fun r => (r.1, r.2 ++ more) := by
  induction inRange with
  | pure a ts => rfl
  | fail p cause ts => rfl
  | peek t ts => rfl
  | next t ts => by_cases eof : t.kind = .eof <;> simp [Parser.next, behind, first, eof, Except.map]
  | second t u ts => rfl
  | @bind _ _ x f ts _ _ ih ih' =>
    cases ran : x ts with
    | error e =>
      rw [ran] at ih
      rw [bind_error ih, bind_error ran]
      rfl
    | ok q =>
      rw [ran] at ih
      rw [bind_run ih, bind_run ran, ih' _ _ ran]

/-! ## Parsers with different bounds -/

/-- The tokens end in the end of the file. -/
def Stops (ts : List Token) : Prop := ∃ front last, ts = front ++ [last] ∧ last.kind = .eof

theorem Stops.cons (stops : Stops ts) : ∃ t r, ts = t :: r ∧ (t.kind ≠ .eof → Stops r) := by
  obtain ⟨front, last, rfl, eof⟩ := stops
  cases front with
  | nil => exact ⟨last, [], rfl, fun real => absurd eof real⟩
  | cons t front => exact ⟨t, _, rfl, fun _ => ⟨front, last, rfl, eof⟩⟩

/-- On the tokens left both parsers do the same, in range. They leave the end of the file, and
`Q` holds of what they answer and leave. -/
structure Settles (ts : List Token) (x y : Parser α) (Q : α → List Token → Prop) : Prop where
  inRange : InRange x ts
  same : y ts = x ts
  left : ∀ a r, x ts = .ok (a, r) → Stops r ∧ r <:+ ts ∧ Q a r

/-- Two parsers that agree on the first part and then on the rest agree. -/
theorem Settles.bind {x y : Parser α} {f g : α → Parser β}
    {Q : α → List Token → Prop} {R : β → List Token → Prop} (first : Settles ts x y Q)
    (later : ∀ a r, Stops r → Q a r → Settles r (f a) (g a) R) :
    Settles ts (x >>= f) (y >>= g) R := by
  have each := fun a r ran => later a r (first.left a r ran).1 (first.left a r ran).2.2
  refine ⟨.bind first.inRange fun a r ran => (each a r ran).inRange, ?_, ?_⟩
  · cases ran : x ts with
    | error e => rw [bind_error ran, bind_error (first.same.trans ran)]
    | ok q => rw [bind_run ran, bind_run (first.same.trans ran), (each _ _ ran).same]
  · intro b r' ran'
    cases ran : x ts with
    | error e =>
      rw [bind_error ran] at ran'
      cases ran'
    | ok q =>
      rw [bind_run ran] at ran'
      obtain ⟨stops, suffix, holds⟩ := (each _ _ ran).left b r' ran'
      exact ⟨stops, suffix.trans (first.left _ _ ran).2.1, holds⟩

theorem Settles.imp {x y : Parser α} {Q R : α → List Token → Prop}
    (settles : Settles ts x y Q) (weaker : ∀ a r, Q a r → R a r) : Settles ts x y R where
  inRange := settles.inRange
  same := settles.same
  left a r ran :=
    have ⟨stops, suffix, holds⟩ := settles.left a r ran
    ⟨stops, suffix, weaker a r holds⟩

/-- Both parsers settle on at most `k` tokens, the next of which is `t`. When they answer `a`,
they have taken at least `c a` tokens. -/
def TakesAt (t : Token) (k : Nat) (c : α → Nat) (x y : Parser α) : Prop :=
  ∀ ts, Stops ts → ts.head? = some t → ts.length ≤ k →
    Settles ts x y fun a r => r.length + c a ≤ ts.length

/-- The same whatever the next token is. -/
def Takes (k : Nat) (c : α → Nat) (x y : Parser α) : Prop := ∀ t, TakesAt t k c x y

section Moves

variable {k : Nat} {c : α → Nat} {e : β → Nat} {x y x' y' : Parser α} {t : Token} {kind : TokenKind}

theorem Takes.settles (takes : Takes k c x y) {ts : List Token} (stops : Stops ts) (few : ts.length ≤ k) :
    Settles ts x y fun a r => r.length + c a ≤ ts.length := by
  obtain ⟨t, r, rfl, -⟩ := stops.cons
  exact takes t _ stops rfl few

theorem Takes.mono {j : Nat} {d : α → Nat} (takes : Takes k c x y) (few : j ≤ k)
    (less : ∀ a, d a ≤ c a) : Takes j d x y := fun t ts stops starts fewer =>
  (takes t ts stops starts (by omega)).imp fun a _ taken => by
    have := less a
    omega

theorem Takes.fewer {j : Nat} (takes : Takes k c x y) (few : j ≤ k) : Takes j c x y :=
  takes.mono few fun _ => Nat.le_refl _

/-- There are always tokens left. -/
theorem Takes.zero : Takes 0 c x y := by
  intro t ts _ starts few
  cases List.eq_nil_of_length_eq_zero (Nat.le_zero.1 few)
  cases starts

theorem TakesAt.pure {a : α} (none : c a = 0) : TakesAt t k c (pure a) (pure a) := by
  refine fun ts stops _ _ => ⟨.pure a ts, rfl, ?_⟩
  rintro _ _ ⟨⟩
  exact ⟨stops, List.suffix_rfl, by omega⟩

theorem Takes.pure {a : α} (none : c a = 0) : Takes k c (pure a) (pure a) := fun _ => .pure none

theorem TakesAt.fail (p : Pos) (cause : SyntaxCause) : TakesAt t k c (fail p cause) (fail p cause) :=
  fun ts _ _ _ => ⟨.fail p cause ts, rfl, by rintro _ _ ⟨⟩⟩

theorem Takes.fail (p : Pos) (cause : SyntaxCause) : Takes k c (fail p cause) (fail p cause) :=
  fun _ => .fail p cause

theorem TakesAt.ite {p : Prop} [Decidable p] (yes : p → TakesAt t k c x y)
    (no : ¬ p → TakesAt t k c x' y') : TakesAt t k c (if p then x else x') (if p then y else y') := by
  by_cases holds : p
  · simpa only [if_pos holds] using yes holds
  · simpa only [if_neg holds] using no holds

/-- What is taken first counts for both, and what comes behind has fewer tokens. -/
theorem TakesAt.bind {f g : α → Parser β} (first : TakesAt t k c x y)
    (later : ∀ a, Takes (k - c a) (fun b => e b - c a) (f a) (g a)) :
    TakesAt t k e (x >>= f) (y >>= g) := fun ts stops starts few =>
  (first ts stops starts few).bind fun a r ends taken =>
    ((later a).settles ends (by omega)).imp fun b r' last => by
      have last : r'.length + (e b - c a) ≤ r.length := last
      omega

theorem Takes.bind {f g : α → Parser β} (first : Takes k c x y)
    (later : ∀ a, Takes (k - c a) (fun b => e b - c a) (f a) (g a)) :
    Takes k e (x >>= f) (y >>= g) := fun t => (first t).bind later

theorem next_takes : Takes k (fun t => if t.kind = .eof then 0 else 1) next next := by
  intro _ ts stops _ _
  obtain ⟨t, r, rfl, behind⟩ := stops.cons
  refine ⟨.next t r, rfl, ?_⟩
  rintro _ _ ⟨⟩
  by_cases eof : t.kind = .eof
  · simp [Parser.behind, first, eof, stops]
  · simp [Parser.behind, first, eof, behind eof]

/-- A token that was seen is taken. -/
theorem TakesAt.next (real : t.kind ≠ .eof) : TakesAt t k (fun _ => 1) next next := by
  intro ts stops starts few
  obtain ⟨inRange, same, left⟩ := next_takes.settles stops few
  refine ⟨inRange, same, fun a r ran => ?_⟩
  obtain ⟨ends, suffix, taken⟩ := left a r ran
  obtain ⟨r', rfl⟩ := List.head?_eq_some_iff.1 starts
  cases ran
  rw [first, if_neg real] at taken
  exact ⟨ends, suffix, taken⟩

/-- A parser that goes by the next token. -/
theorem Takes.peek {f g : Token → Parser α} (later : ∀ t, TakesAt t k c (f t) (g t)) :
    Takes k c (peek >>= f) (peek >>= g) := by
  intro t ts stops starts few
  obtain ⟨r, rfl⟩ := List.head?_eq_some_iff.1 starts
  refine Settles.bind (Q := fun u r' => u = t ∧ r' = t :: r) ⟨.peek t r, rfl, ?_⟩ ?_
  · rintro _ _ ⟨⟩
    exact ⟨stops, List.suffix_rfl, rfl, rfl⟩
  · rintro _ _ - ⟨rfl, rfl⟩
    exact later _ _ stops rfl few

/-- A parser that goes by the token behind one that is not the end of the file. -/
theorem TakesAt.second {f g : Token → Parser α} (real : t.kind ≠ .eof)
    (later : ∀ u, TakesAt t k c (f u) (g u)) : TakesAt t k c (second >>= f) (second >>= g) := by
  intro ts stops starts few
  obtain ⟨t', r, rfl, behind⟩ := stops.cons
  cases starts
  obtain ⟨u, r, rfl, -⟩ := (behind real).cons
  refine Settles.bind (Q := fun _ r' => r' = t :: u :: r) ⟨.second t u r, rfl, ?_⟩ ?_
  · rintro _ _ ⟨⟩
    exact ⟨stops, List.suffix_rfl, rfl⟩
  · rintro v _ - rfl
    exact later v _ stops rfl few

/-- A parser that goes by the token that it takes. -/
theorem Takes.next {f g : Token → Parser α} (stuck : ∀ t, t.kind = .eof → Takes k c (f t) (g t))
    (later : ∀ t, t.kind ≠ .eof → Takes (k - 1) (fun a => c a - 1) (f t) (g t)) :
    Takes k c (next >>= f) (next >>= g) := by
  refine next_takes.bind fun t => ?_
  by_cases eof : t.kind = .eof
  · simpa only [if_pos eof, Nat.sub_zero] using stuck t eof
  · simpa only [if_neg eof] using later t eof

/-- A parser that takes a token, if there is one, before it goes on. -/
theorem Takes.behind {f g : Token → Parser α}
    (later : ∀ t j, j ≤ k → Takes j (fun _ => 1) (f t) (g t)) :
    Takes k (fun _ => 1) (Parser.next >>= f) (Parser.next >>= g) :=
  .next (fun t _ => later t k (Nat.le_refl k)) fun t _ =>
    (later t (k - 1) (Nat.sub_le k 1)).mono (Nat.le_refl _) fun _ => Nat.zero_le 1

theorem got_takes (real : kind ≠ .eof) : Takes k Bool.toNat (got kind) (got kind) :=
  .peek fun _ => .ite (fun same => (TakesAt.next (same ▸ real)).bind fun _ => .pure rfl) fun _ => .pure rfl

theorem Takes.got (real : kind ≠ .eof) (yes : Takes (k - 1) (fun a => c a - 1) x y)
    (no : Takes k c x' y') :
    Takes k c (got kind >>= fun b => if b then x else x') (got kind >>= fun b => if b then y else y') := by
  refine (got_takes real).bind fun b => ?_
  cases b with
  | true => exact yes
  | false => exact no

theorem expect_takes (real : kind ≠ .eof) : Takes k (fun _ => 1) (expect kind) (expect kind) :=
  .peek fun _ => .ite (fun same => .next (same ▸ real)) fun _ => .fail _ _

/-- How much the turn of a repetition takes at least: something, unless it is the last. -/
def turn (o : Option α) : Nat := o.elim 0 fun _ => 1

/-- A repetition is over before its bound is used up. -/
theorem many_takes {x y : Parser (Option α)} {m n : Nat} (room : m = n ∨ k ≤ m ∧ k ≤ n)
    (takes : Takes k turn x y) : Takes k (fun _ => 0) (many x m) (many y n) := by
  induction m generalizing k n with
  | zero =>
    cases n with
    | zero => exact .pure rfl
    | succ n =>
      obtain rfl : k = 0 := by omega
      exact .zero
  | succ m ih =>
    cases n with
    | zero =>
      obtain rfl : k = 0 := by omega
      exact .zero
    | succ n =>
      refine takes.bind ?_
      rintro (_ | a)
      · exact .pure rfl
      · -- The turn took a token, so there are enough turns for those that are left.
        exact (ih (by omega) (takes.fewer (Nat.sub_le k 1))).bind fun _ => .pure rfl

end Moves

/-! ## Types -/

def countPairs (f : Nat → α) : Parser α := fun ts => .ok (f (pairs ts).1, (pairs ts).2)

theorem countPairs_eq (f : Nat → α) : countPairs f = (do
    if (← peek).kind = .punct .lbracket then
      if (← second).kind = .punct .rbracket then
        let _ ← next
        let _ ← next
        countPairs fun n => f (n + 1)
      else return f 0
    else return f 0) := by
  funext ts
  rw [bind_run (peek_run ts)]
  rcases ts with _ | ⟨a, _ | ⟨b, rest⟩⟩
  · rfl
  · split <;> rfl
  rw [first, countPairs, pairs]
  by_cases opens : a.kind = .punct .lbracket
  · have looked : second (a :: b :: rest) = .ok (b, a :: b :: rest) := rfl
    rw [if_pos opens, bind_run looked]
    by_cases closes : b.kind = .punct .rbracket
    · rw [if_pos ⟨opens, closes⟩, if_pos closes, bind_run (next_run (by simp [opens]) _),
        bind_run (next_run (by simp [closes]) _)]
      rfl
    · rw [if_neg closes, if_neg fun both => closes both.2]
      rfl
  · rw [if_neg opens, if_neg fun both => opens both.1]
    rfl

theorem countPairs_takes (k : Nat) (f : Nat → α) :
    Takes k (fun _ => 0) (countPairs f) (countPairs f) := by
  induction k using Nat.strong_induction_on generalizing f with
  | h k ih =>
    rcases Nat.eq_zero_or_pos k with rfl | some
    · exact .zero
    rw [countPairs_eq]
    refine .peek fun t => .ite (fun opens => ?_) fun _ => .pure rfl
    have real : t.kind ≠ .eof := by simp [opens]
    refine .second real fun u => .ite (fun _ => ?_) fun _ => .pure rfl
    -- That the first token of the pair is taken is enough.
    refine (TakesAt.next real).bind fun _ => next_takes.bind fun _ => ?_
    exact (ih (k - 1) (by omega) fun n => f (n + 1)).mono (Nat.sub_le _ _) fun _ => by simp

theorem type_takes (k : Nat) : Takes k (fun _ => 1) type type := by
  refine .next (fun t eof => ?_) fun t _ => ?_
  · rw [eof]
    exact .fail _ _
  · cases base? t.kind with
    | none => exact .fail _ _
    | some b => exact countPairs_takes (k - 1) (Ty.mk b)

/-! ## Expressions -/

/-- Expressions, with `z` in place of one that is nested too deep. -/
def exprFrom (z : Parser Expr) : Nat → Parser Expr
  | 0 => z
  | n + 1 => disjunction (exprFrom z n) n

theorem expr_eq_exprFrom (n : Nat) : expr n = exprFrom (expr 0) n := by
  induction n with
  | zero => rfl
  | succ n ih => exact congrArg (disjunction · n) ih

section Expressions

variable {k m n : Nat} {x y : Parser Expr}

theorem nextArg_takes {x y : Parser α} (takes : Takes k (fun _ => 1) x y) :
    Takes k turn (nextArg x) (nextArg y) :=
  .got (by decide) (.pure rfl) <| (expect_takes (by decide)).bind fun _ =>
    (takes.fewer (Nat.sub_le k 1)).bind fun _ => .pure rfl

/-- Parts in parentheses: the arguments of a call or the parameters of a function. -/
theorem parts_takes {x y : Parser α} (takes : Takes k (fun _ => 1) x y) (room : k ≤ m)
    (room' : k ≤ n) :
    Takes k (fun _ => 0)
      (do
        if ← got (.punct .rparen) then return []
        let first ← x
        let rest ← many (nextArg x) m
        return first :: rest)
      (do
        if ← got (.punct .rparen) then return []
        let first ← y
        let rest ← many (nextArg y) n
        return first :: rest) :=
  .got (by decide) (.pure rfl) <| takes.bind fun _ =>
    (many_takes (.inr ⟨by omega, by omega⟩) (nextArg_takes (takes.fewer (Nat.sub_le k 1)))).bind
      fun _ => .pure rfl

theorem nextSize_takes (takes : Takes k (fun _ => 1) x y) : Takes k turn (nextSize x) (nextSize y) :=
  .got (by decide) ((takes.fewer (Nat.sub_le k 1)).bind fun _ =>
    (expect_takes (by decide)).bind fun _ => .pure rfl) (.pure rfl)

/-- An expression in an operand is one level deeper. -/
theorem primary_takes (takes : Takes (k - 1) (fun _ => 1) x y) (room : k ≤ m) (room' : k ≤ n) :
    Takes k (fun _ => 1) (primary x m) (primary y n) := by
  refine .next (fun t eof => ?_) fun t _ => ?_
  · rw [eof]
    exact .fail _ _
  cases t.kind with
  | eof => exact .fail _ _
  | error => exact .fail _ _
  | integer => cases integer? t.value <;> first | exact .fail _ _ | exact .pure rfl
  | double => cases Double.ofLiteral? t.value <;> first | exact .fail _ _ | exact .pure rfl
  | string => cases Text.unescape t.value <;> first | exact .fail _ _ | exact .pure rfl
  | ident =>
    refine .got (by decide) ?_ (.pure rfl)
    exact (parts_takes (takes.fewer (Nat.sub_le _ 1)) (by omega) (by omega)).bind fun _ => .pure rfl
  | keyword word =>
    cases word with
    | trueWord => exact .pure rfl
    | falseWord => exact .pure rfl
    | newWord =>
      refine (type_takes _).bind fun elem => ?_
      refine (many_takes (.inr ⟨by omega, by omega⟩) (nextSize_takes (takes.fewer (Nat.sub_le _ 1)))).bind
        fun sizes => fun u => .ite (fun _ => ?_) fun _ => .pure rfl
      exact Takes.peek (fun _ => .fail _ _) u
    | _ => exact .fail _ _
  | punct mark =>
    cases mark with
    | lparen => exact takes.bind fun _ => (expect_takes (by decide)).bind fun _ => .pure rfl
    | _ => exact .fail _ _

theorem suffix_takes (takes : Takes (k - 1) (fun _ => 1) x y) : Takes k turn (suffix x) (suffix y) := by
  refine .peek fun t => ?_
  cases kind : t.kind with
  | punct mark =>
    have took := TakesAt.next (k := k) (t := t) (by simp [kind])
    cases mark with
    | lbracket =>
      exact took.bind fun _ => takes.bind fun _ => (expect_takes (by decide)).bind fun _ => .pure rfl
    | dot => exact took.bind fun _ => (expect_takes (by decide)).bind fun _ => .pure rfl
    | _ => exact .pure rfl
  | _ => exact .pure rfl

theorem operand_takes (takes : Takes (k - 1) (fun _ => 1) x y) (room : k ≤ m) (room' : k ≤ n) :
    Takes k (fun _ => 1) (operand x m) (operand y n) :=
  (primary_takes takes room room').bind fun _ => (many_takes (.inr ⟨by omega, by omega⟩)
    (suffix_takes (takes.fewer (Nat.sub_le _ 1)))).bind fun _ => .pure rfl

theorem signed_takes (takes : Takes (k - 1) (fun _ => 1) x y) (room : k ≤ m) (room' : k ≤ n) :
    Takes k (fun _ => 1) (signed x m) (signed y n) := by
  have turns : Takes k turn sign sign := by
    refine .peek fun t => ?_
    cases op : unOp? t.kind with
    | none => exact .pure rfl
    | some op =>
      have real : t.kind ≠ .eof := fun eof => by simp [eof, unOp?] at op
      exact (TakesAt.next real).bind fun _ => .pure rfl
  exact (many_takes (.inr ⟨room, room'⟩) turns).bind fun _ =>
    (operand_takes takes room room').bind fun _ => .pure rfl

/-- Operators of one level. Their number is bounded by the tokens, or by the grammar. -/
theorem chain_takes {op? : TokenKind → Option BinOp} {nest : Expr → List Link → Expr}
    (eof : op? .eof = none) (takes : Takes k (fun _ => 1) x y) (room : m = n ∨ k ≤ m ∧ k ≤ n) :
    Takes k (fun _ => 1) (chain op? nest x m) (chain op? nest y n) := by
  have turns : Takes (k - 1) turn (link op? x) (link op? y) := by
    refine .peek fun t => ?_
    cases op : op? t.kind with
    | none => exact .pure rfl
    | some op =>
      have real : t.kind ≠ .eof := fun same => by simp [same, eof] at op
      exact (TakesAt.next real).bind fun _ =>
        (takes.fewer (Nat.le_trans (Nat.sub_le _ 1) (Nat.sub_le k 1))).bind fun _ => .pure rfl
  exact takes.bind fun _ => (many_takes (by omega) turns).bind fun _ => .pure rfl

section Levels

variable (takes : Takes (k - 1) (fun _ => 1) x y) (room : k ≤ m) (room' : k ≤ n)

include takes room room'

theorem product_takes : Takes k (fun _ => 1) (product x m) (product y n) :=
  chain_takes rfl (signed_takes takes room room') (.inr ⟨room, room'⟩)

theorem sum_takes : Takes k (fun _ => 1) (sum x m) (sum y n) :=
  chain_takes rfl (product_takes takes room room') (.inr ⟨room, room'⟩)

theorem comparison_takes : Takes k (fun _ => 1) (comparison x m) (comparison y n) :=
  chain_takes rfl (sum_takes takes room room') (.inl rfl)

theorem conjunction_takes : Takes k (fun _ => 1) (conjunction x m) (conjunction y n) :=
  chain_takes rfl (comparison_takes takes room room') (.inr ⟨room, room'⟩)

end Levels

/-- A nested expression has fewer tokens left, so the bound on the depth is not used up. -/
theorem exprFrom_takes {z z' : Parser Expr} (room : k < m) (room' : k < n) :
    Takes k (fun _ => 1) (exprFrom z m) (exprFrom z' n) := by
  induction k generalizing m n with
  | zero => exact .zero
  | succ k ih =>
    cases m with
    | zero => omega
    | succ m =>
      cases n with
      | zero => omega
      | succ n =>
        have nested : Takes k (fun _ => 1) (exprFrom z m) (exprFrom z' n) := ih (by omega) (by omega)
        have part := conjunction_takes (k := k + 1) (m := m) (n := n) nested (by omega) (by omega)
        exact chain_takes rfl part (.inr ⟨by omega, by omega⟩)

theorem expr_takes (room : k < m) (room' : k < n) : Takes k (fun _ => 1) (expr m) (expr n) := by
  rw [expr_eq_exprFrom m, expr_eq_exprFrom n]
  exact exprFrom_takes room room'

end Expressions

/-! ## Statements and programs -/

/-- A statement in which `part` reads those nested in it. -/
def stmtOf (part : Parser Stmt) (n : Nat) : Parser Stmt := do
  let t ← peek
  match t.kind with
  | .punct .semicolon =>
    let _ ← next
    return .empty t.pos
  | .punct .lbrace =>
    let (p, body) ← block part n
    return .block p body
  | .keyword .returnWord => returning n
  | .keyword .ifWord => conditional part n
  | .keyword .whileWord => whileLoop part n
  | .keyword .forWord => forLoop part n
  | kind => if (base? kind).isSome then declaration n else simple n

/-- Statements, with `z` in place of one that is nested too deep. -/
def stmtFrom (z : Parser Stmt) : Nat → Parser Stmt
  | 0 => z
  | n + 1 => stmtOf (stmtFrom z n) n

theorem stmt_eq_stmtFrom (n : Nat) : stmt n = stmtFrom (stmt 0) n := by
  induction n with
  | zero => rfl
  | succ n ih => exact congrArg (stmtOf · n) ih

section Statements

variable {k m n : Nat} {x y : Parser Stmt}

theorem condition_takes (room : k < m) (room' : k < n) :
    Takes k (fun _ => 1) (condition m) (condition n) :=
  (expect_takes (by decide)).bind fun _ => (expr_takes (by omega) (by omega)).bind fun _ =>
    (expect_takes (by decide)).bind fun _ => .pure rfl

theorem declItem_takes (room : k < m) (room' : k < n) :
    Takes k (fun _ => 1) (declItem m) (declItem n) :=
  (expect_takes (by decide)).bind fun _ => .got (by decide)
    ((expr_takes (by omega) (by omega)).bind fun _ => .pure rfl) (.pure rfl)

theorem declaration_takes (room : k < m) (room' : k < n) :
    Takes k (fun _ => 1) (declaration m) (declaration n) := by
  have turns : Takes (k - 2) turn (nextItem m) (nextItem n) :=
    .got (by decide) ((declItem_takes (by omega) (by omega)).bind fun _ => .pure rfl) (.pure rfl)
  refine .peek fun start => (type_takes k start).bind fun _ => ?_
  refine (declItem_takes (by omega) (by omega)).bind fun _ => ?_
  refine (many_takes (.inr ⟨by omega, by omega⟩) turns).bind fun _ => ?_
  exact (expect_takes (by decide)).bind fun _ => .pure rfl

theorem block_takes (takes : Takes (k - 1) (fun _ => 1) x y) (room : k ≤ m) (room' : k ≤ n) :
    Takes k (fun _ => 1) (block x m) (block y n) := by
  have turns : Takes (k - 1) turn (nextStmt x) (nextStmt y) :=
    .got (by decide) (.pure rfl) <| .peek fun t => .ite (fun _ => .fail _ _) fun _ =>
      (takes t).bind fun _ => .pure rfl
  exact (expect_takes (by decide)).bind fun _ =>
    (many_takes (.inr ⟨by omega, by omega⟩) turns).bind fun _ => .pure rfl

theorem simpleTail_takes (p : Pos) (e : Expr) (room : k < m) (room' : k < n) :
    Takes k (fun _ => 0) (simpleTail p e m) (simpleTail p e n) := by
  refine .peek fun op => ?_
  cases kind : op.kind with
  | punct mark =>
    have took := TakesAt.next (k := k) (t := op) (by simp [kind])
    cases mark with
    | assign =>
      refine .ite (fun _ => took.bind fun _ => ?_) fun _ => .fail _ _
      exact (expr_takes (by omega) (by omega)).bind fun _ => .pure rfl
    | inc | dec =>
      cases e with
      | ident => exact took.bind fun _ => .pure rfl
      | _ => exact .fail _ _
    | _ => exact .pure rfl
  | _ => exact .pure rfl

theorem simple_takes (room : k < m) (room' : k < n) : Takes k (fun _ => 1) (simple m) (simple n) :=
  .peek fun t => (expr_takes room room' t).bind fun e =>
    (simpleTail_takes t.pos e (by omega) (by omega)).bind fun _ =>
      (expect_takes (by decide)).bind fun _ => .pure rfl

section Words

variable (takes : Takes (k - 1) (fun _ => 1) x y) (room : k < m) (room' : k < n)

include room room'

theorem returning_takes : Takes k (fun _ => 1) (returning m) (returning n) :=
  .behind fun _ _ _ => .got (by decide) (.pure rfl) <| (expr_takes (by omega) (by omega)).bind fun _ =>
    (expect_takes (by decide)).bind fun _ => .pure rfl

include takes

theorem conditional_takes : Takes k (fun _ => 1) (conditional x m) (conditional y n) := by
  refine .behind fun _ j few => (condition_takes (by omega) (by omega)).bind fun _ => ?_
  refine (takes.fewer (by omega)).bind fun _ => .got (by decide) ?_ (.pure rfl)
  exact (takes.fewer (by omega)).bind fun _ => .pure rfl

theorem whileLoop_takes : Takes k (fun _ => 1) (whileLoop x m) (whileLoop y n) :=
  .behind fun _ j few => (condition_takes (by omega) (by omega)).bind fun _ =>
    (takes.fewer (by omega)).bind fun _ => .pure rfl

theorem forLoop_takes : Takes k (fun _ => 1) (forLoop x m) (forLoop y n) := by
  refine .behind fun _ j few => (expect_takes (by decide)).bind fun _ => ?_
  refine (type_takes _).bind fun _ => (expect_takes (by decide)).bind fun _ => ?_
  refine (expect_takes (by decide)).bind fun _ => (expr_takes (by omega) (by omega)).bind fun _ => ?_
  refine (expect_takes (by decide)).bind fun _ => ?_
  exact (takes.fewer (by omega)).bind fun _ => .pure rfl

end Words

/-- A statement in a statement is one level deeper. -/
theorem stmtOf_takes (takes : Takes (k - 1) (fun _ => 1) x y) (room : k < m) (room' : k < n) :
    Takes k (fun _ => 1) (stmtOf x m) (stmtOf y n) := by
  refine .peek fun t => ?_
  have other : ∀ kind, TakesAt t k (fun _ => 1)
      (if (base? kind).isSome then declaration m else simple m)
      (if (base? kind).isSome then declaration n else simple n) := fun _ =>
    .ite (fun _ => declaration_takes room room' t) fun _ => simple_takes room room' t
  cases kind : t.kind with
  | punct mark =>
    cases mark with
    | semicolon => exact (TakesAt.next (by simp [kind])).bind fun _ => .pure rfl
    | lbrace => exact (block_takes takes (by omega) (by omega) t).bind fun _ => .pure rfl
    | _ => exact other _
  | keyword word =>
    cases word with
    | returnWord => exact returning_takes room room' t
    | ifWord => exact conditional_takes takes room room' t
    | whileWord => exact whileLoop_takes takes room room' t
    | forWord => exact forLoop_takes takes room room' t
    | _ => exact other _
  | _ => exact other _

/-- A nested statement has fewer tokens left, so the bound on the depth is not used up. -/
theorem stmtFrom_takes {z z' : Parser Stmt} (room : k < m) (room' : k < n) :
    Takes k (fun _ => 1) (stmtFrom z (m + 1)) (stmtFrom z' (n + 1)) := by
  induction k generalizing m n with
  | zero => exact .zero
  | succ k ih =>
    refine stmtOf_takes ?_ room room'
    obtain ⟨m, rfl⟩ : ∃ l, m = l + 1 := ⟨m - 1, by omega⟩
    obtain ⟨n, rfl⟩ : ∃ l, n = l + 1 := ⟨n - 1, by omega⟩
    exact ih (by omega) (by omega)

theorem stmt_takes (room : k < m) (room' : k < n) : Takes k (fun _ => 1) (stmt (m + 1)) (stmt (n + 1)) := by
  rw [stmt_eq_stmtFrom (m + 1), stmt_eq_stmtFrom (n + 1)]
  exact stmtFrom_takes room room'

theorem param_takes (k : Nat) : Takes k (fun _ => 1) param param :=
  .peek fun start => (type_takes k start).bind fun _ => (expect_takes (by decide)).bind fun _ => .pure rfl

theorem function_takes (room : k ≤ m) (room' : k ≤ n) :
    Takes k (fun _ => 1) (function m) (function n) := by
  have body : Takes (k - 1 - 1 - 1 - 1) (fun _ => 1) (stmt m) (stmt n) := by
    rcases Nat.eq_zero_or_pos (k - 1 - 1 - 1 - 1) with none | some
    · rw [none]
      exact .zero
    · obtain ⟨m, rfl⟩ : ∃ l, m = l + 1 := ⟨m - 1, by omega⟩
      obtain ⟨n, rfl⟩ : ∃ l, n = l + 1 := ⟨n - 1, by omega⟩
      exact stmt_takes (by omega) (by omega)
  refine .peek fun start => (type_takes k start).bind fun _ => ?_
  refine (expect_takes (by decide)).bind fun _ => (expect_takes (by decide)).bind fun _ => ?_
  refine (parts_takes (param_takes _) (by omega) (by omega)).bind fun _ => ?_
  exact (block_takes body (by omega) (by omega)).bind fun _ => .pure rfl

theorem program_takes (room : k ≤ m) (room' : k ≤ n) :
    Takes k (fun _ => 0) (program m) (program n) := by
  have turns : Takes k turn (nextFunction m) (nextFunction n) :=
    .peek fun t => .ite (fun _ => .pure rfl) fun _ =>
      (function_takes room room' t).bind fun _ => .pure rfl
  exact (many_takes (.inr ⟨room, room'⟩) turns).bind fun _ => .pure rfl

end Statements

/-! ## All functions of the parser -/

inductive Rule where
  | program | function | type | block | stmt | declaration | condition | conditional | forLoop
  | expr | conjunction | comparison | sum | product | signed | operand | primary

def Rule.Tree : Rule → Type
  | .program => Program
  | .function => FuncDef
  | .type => Ty
  | .block => Pos × List Stmt
  | .stmt | .declaration | .conditional | .forLoop => Stmt
  | _ => Expr

/-- The function for a rule on at most `n` tokens, put together from functions for nested
expressions and statements. -/
def Rule.read (n : Nat) (expr : Nat → Parser Expr) (stmt : Nat → Parser Stmt) :
    (r : Rule) → Parser r.Tree
  | .program => Parser.program n
  | .function => Parser.function n
  | .type => Parser.type
  | .block => Parser.block (stmt (n + 1)) n
  | .stmt => stmt (n + 2)
  | .declaration => Parser.declaration (n + 1)
  | .condition => Parser.condition (n + 1)
  | .conditional => Parser.conditional (stmt (n + 1)) (n + 1)
  | .forLoop => Parser.forLoop (stmt (n + 1)) (n + 1)
  | .expr => expr (n + 1)
  | .conjunction => Parser.conjunction (expr n) n
  | .comparison => Parser.comparison (expr n) n
  | .sum => Parser.sum (expr n) n
  | .product => Parser.product (expr n) n
  | .signed => Parser.signed (expr n) n
  | .operand => Parser.operand (expr n) n
  | .primary => Parser.primary (expr n) n

/-- How many tokens the function for a rule takes at least. -/
def Rule.least : Rule → Nat
  | .program => 0
  | _ => 1

/-- No parser that is put where the bound on the depth ends is ever run. -/
theorem Rule.takes {k m n : Nat} (room : k ≤ m) (room' : k ≤ n) (z : Parser Expr) (z' : Parser Stmt)
    (r : Rule) :
    Takes k (fun _ => r.least) (r.read m Parser.expr Parser.stmt) (r.read n (exprFrom z) (stmtFrom z')) := by
  rcases Nat.eq_zero_or_pos k with rfl | some
  · exact .zero
  have more : k < m + 1 := Nat.lt_succ_of_le room
  have more' : k < n + 1 := Nat.lt_succ_of_le room'
  have inner : Takes (k - 1) (fun _ => 1) (exprFrom (Parser.expr 0) m) (exprFrom z n) :=
    exprFrom_takes (by omega) (by omega)
  have nested : Takes (k - 1) (fun _ => 1) (stmtFrom (Parser.stmt 0) (m + 1)) (stmtFrom z' (n + 1)) :=
    stmtFrom_takes (by omega) (by omega)
  rw [funext expr_eq_exprFrom, funext stmt_eq_stmtFrom]
  cases r with
  | program => exact program_takes room room'
  | function => exact function_takes room room'
  | type => exact type_takes k
  | block => exact block_takes nested room room'
  | stmt => exact stmtFrom_takes more more'
  | declaration => exact declaration_takes more more'
  | condition => exact condition_takes more more'
  | conditional => exact conditional_takes nested more more'
  | forLoop => exact forLoop_takes nested more more'
  | expr => exact exprFrom_takes more more'
  | conjunction => exact conjunction_takes inner room room'
  | comparison => exact comparison_takes inner room room'
  | sum => exact sum_takes inner room room'
  | product => exact product_takes inner room room'
  | signed => exact signed_takes inner room room'
  | operand => exact operand_takes inner room room'
  | primary => exact primary_takes inner room room'

/-- There are tokens up to the end of the file from each of them on. -/
theorem Stops.drop {ts body : List Token} {last : Token} (ended : Lexer.Ended ts body last) {p : Nat}
    (inside : p < ts.length) : Stops (ts.drop p) := by
  refine ⟨body.drop p, last, ?_, ended.eof⟩
  rw [ended.tokens] at inside ⊢
  exact List.drop_append_of_le_length (by simpa [Nat.lt_succ_iff] using inside)

/-- Reading comes to an end on every source and stays in it. The machine of modes gets from
every configuration that it reaches to the one in which it stops, with the answer of the lexer,
and its window always lies in the source. Tokens that were read end in their only end of file.
On such tokens every function of the parser, called at any of them, makes its moves where there
are tokens. It does not depend on what is nested too deep for its bound, on a larger bound or on
what stands behind the tokens. It goes on to a later token, which is the end of the file at most;
only a program may have no tokens. -/
theorem front_end_stays_in_bounds :
    (∀ src, ∃ w : Lexer.Window, w.answer = Lexer.tokens src ∧
      ∀ c, Lexer.Runs src .start c → c.window.InBounds src ∧ Lexer.Runs src c ⟨none, w⟩) ∧
    (∀ src ts, Lexer.tokens src = .ok ts → ∃ body last, Lexer.Ended ts body last) ∧
    ∀ ts body last, Lexer.Ended ts body last → ∀ (r : Rule) (p n : Nat),
      p < ts.length → ts.length ≤ n →
      InRange (r.read n expr stmt) (ts.drop p) ∧
      (∀ m z z', ts.length ≤ m →
        r.read m (exprFrom z) (stmtFrom z') (ts.drop p) = r.read n expr stmt (ts.drop p)) ∧
      (∀ more, r.read n expr stmt (ts.drop p ++ more) =
        (r.read n expr stmt (ts.drop p)).map fun a => (a.1, a.2 ++ more)) ∧
      ∀ a left, r.read n expr stmt (ts.drop p) = .ok (a, left) →
        ∃ q, p + r.least ≤ q ∧ q < ts.length ∧ left = ts.drop q := by
  refine ⟨Lexer.machine_reads, fun src ts read => ?_, fun ts body last ended r p n inside room => ?_⟩
  · obtain ⟨body, last, -, ended, -⟩ := (Lexer.scan_scanned read).stand
    exact ⟨body, last, ended⟩
  have few : (ts.drop p).length ≤ ts.length := by simp
  have settles := fun {m} (more : ts.length ≤ m) z z' =>
    (r.takes room more z z').settles (.drop ended inside) few
  have ⟨inRange, _, left⟩ := settles room (expr 0) (stmt 0)
  refine ⟨inRange, fun m z z' more => (settles more z z').same, inRange.append, fun a r' ran => ?_⟩
  obtain ⟨ends, suffix, taken⟩ := left a r' ran
  obtain ⟨t, r'', rfl, -⟩ := ends.cons
  have here := List.suffix_iff_eq_drop.1 (suffix.trans (List.drop_suffix p ts))
  rw [List.length_drop, List.length_cons] at taken
  rw [List.length_cons] at here
  exact ⟨ts.length - (r''.length + 1), by omega, by omega, here⟩

/-- A comment of bytes that are no text, and a return behind it. -/
def strayBytes : Text := [0x23, 0xff, 0x00, 0x0a] ++ ("return f(1);" : Text)

theorem strayBytes_stays_in_bounds : ∃ ts, Lexer.tokens strayBytes = .ok ts ∧ ts.length = 7 ∧
    (∃ w, Lexer.Runs strayBytes .start ⟨none, w⟩ ∧ w.answer = .ok ts) ∧
    InRange (Rule.stmt.read 7 expr stmt) ts := by
  obtain ⟨runs, ends, moves⟩ := front_end_stays_in_bounds
  have read : (Lexer.tokens strayBytes).toOption.map List.length = some 7 := by decide +kernel
  cases ran : Lexer.tokens strayBytes with
  | error e =>
    rw [ran] at read
    cases read
  | ok ts =>
    rw [ran] at read
    have length : ts.length = 7 := Option.some.inj read
    obtain ⟨w, answer, reaches⟩ := runs strayBytes
    obtain ⟨body, last, ended⟩ := ends strayBytes ts ran
    refine ⟨ts, rfl, length, ⟨w, (reaches _ .refl).2, answer.trans ran⟩, ?_⟩
    exact (moves ts body last ended .stmt 0 7 (by omega) (by omega)).1

end Parser

end ImpCompiler
