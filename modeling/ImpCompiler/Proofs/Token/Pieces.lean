import ImpCompiler.Token.Lexer
import Mathlib.Data.List.Infix
import Mathlib.Data.List.TakeWhile
import Mathlib.Tactic.Common

/-!
# Proofs.Token.Pieces — what a source text is cut into

How tokens are written (`Lexeme`) and what may stand between them (`Gap`) is said here
without the lexer. A source that can be read is cut into such pieces from left to right,
up to its end or to a zero byte where a piece would start (`scan_scanned`). Everything
else about reading follows from that.
-/

namespace ImpCompiler.Lexer

set_option autoImplicit false

variable {b : UInt8} {rest taken : Text} {kind : TokenKind}

/-! ## How tokens are written -/

/-- One digit or more. -/
def Digits (ds : Text) : Prop := ds ≠ [] ∧ ∀ d ∈ ds, isDigit d = true

/-- What may stand between the quotes of a string literal: a quote only behind a
backslash, no line end and no zero byte. -/
inductive Quotable : Text → Prop
  | nil : Quotable []
  | plain {b : UInt8} {rest : Text} : b ≠ 0 → b ≠ 0x0a → b ≠ 0x22 → b ≠ 0x5c → Quotable rest →
      Quotable (b :: rest)
  | escape {b : UInt8} {rest : Text} : b ≠ 0 → b ≠ 0x0a → Quotable rest →
      Quotable (0x5c :: b :: rest)

/-- The end of a double literal: nothing, or `e`, a sign or none, and digits. -/
inductive Exponent : Text → Prop
  | none : Exponent []
  | some {mark : UInt8} {sign ds : Text} : mark = 0x65 ∨ mark = 0x45 →
      sign = [] ∨ sign = [0x2b] ∨ sign = [0x2d] → Digits ds → Exponent (mark :: (sign ++ ds))

/-- How the tokens of a kind are written. -/
inductive Lexeme : TokenKind → Text → Prop
  | word {b : UInt8} {rest : Text} : isAlpha b = true → (∀ c ∈ rest, isWord c = true) →
      Lexeme (.ofWord (b :: rest)) (b :: rest)
  | integer {ds : Text} : Digits ds → Lexeme .integer ds
  | double {whole places exponent : Text} : Digits whole → Digits places → Exponent exponent →
      Lexeme .double (whole ++ 0x2e :: (places ++ exponent))
  | string {inner : Text} : Quotable inner → Lexeme .string (0x22 :: (inner ++ [0x22]))
  | punct (p : Punct) : Lexeme (.punct p) p.spelling

/-! ## What stands between tokens -/

/-- A line comment starts with `//` or `#` and goes on to before a line end. -/
inductive LineComment : Text → Prop
  | slashes {body : Text} : 0x0a ∉ body → LineComment (0x2f :: 0x2f :: body)
  | hash {body : Text} : 0x0a ∉ body → LineComment (0x23 :: body)

/-- A block comment goes from `/*` to the first `*/` behind it. -/
inductive BlockComment : Text → Prop
  | mk {body : Text} : ¬ [0x2a, 0x2f] <:+: body ++ [0x2a] →
      BlockComment (0x2f :: 0x2a :: (body ++ [0x2a, 0x2f]))

def StartsComment (t : Text) : Prop := [0x23] <+: t ∨ [0x2f, 0x2f] <+: t ∨ [0x2f, 0x2a] <+: t

/-- What reading skips at once, and the text behind it: a blank, or a comment. A line
comment is skipped with the line end or the zero byte behind it. -/
inductive Gap : Text → Text → Prop
  | blank {b : UInt8} {rest : Text} : isSpace b = true → Gap [b] rest
  | line {c rest : Text} : LineComment c → 0 ∉ c → Gap (c ++ [0x0a]) rest
  | cutLine {c rest : Text} : LineComment c → 0 ∉ c → Gap (c ++ [0]) rest
  | lastLine {c : Text} : LineComment c → 0 ∉ c → Gap c []
  | block {c rest : Text} : BlockComment c → 0 ∉ c → Gap c rest

/-- The pieces that a text which starts at a place is cut into, and its tokens. -/
inductive Scanned : Text → Pos → List Token → Prop
  | done {p : Pos} : Scanned [] p [⟨.eof, [], p⟩]
  | zero {rest : Text} {p : Pos} : Scanned (0 :: rest) p [⟨.eof, [0], p⟩]
  | gap {taken rest : Text} {p : Pos} {ts : List Token} : Gap taken rest →
      Scanned rest (p.advance taken) ts → Scanned (taken ++ rest) p ts
  | token {kind : TokenKind} {taken rest : Text} {p : Pos} {ts : List Token} : Lexeme kind taken →
      ¬ StartsComment (taken ++ rest) → Scanned rest (p.advance taken) ts →
      Scanned (taken ++ rest) p (⟨kind, kind.value taken, p⟩ :: ts)

/-! ## Bytes that cannot occur -/

theorem isDigit_ne_zero (digit : isDigit b = true) : b ≠ 0 := by
  rintro rfl
  exact absurd digit (by decide)

theorem isWord_ne_zero (word : isWord b = true) : b ≠ 0 := by
  rintro rfl
  exact absurd word (by decide)

theorem Digits.zero_notMem {ds : Text} (digits : Digits ds) : 0 ∉ ds :=
  fun member => isDigit_ne_zero (digits.2 0 member) rfl

theorem Quotable.zero_notMem {inner : Text} (quotable : Quotable inner) : 0 ∉ inner := by
  induction quotable with
  | nil => simp
  | plain nonzero _ _ _ _ ih => simpa using ⟨nonzero.symm, ih⟩
  | escape nonzero _ _ ih => simpa using ⟨nonzero.symm, ih⟩

theorem Exponent.zero_notMem {e : Text} (exponent : Exponent e) : 0 ∉ e := by
  cases exponent with
  | none => simp
  | some mark sign digits =>
    have inside := digits.zero_notMem
    rcases mark with rfl | rfl <;> rcases sign with rfl | rfl | rfl <;> simp [inside]

/-- No token has a zero byte. -/
theorem Lexeme.zero_notMem (lexeme : Lexeme kind taken) : 0 ∉ taken := by
  cases lexeme with
  | word first others =>
    intro member
    rcases List.mem_cons.1 member with rfl | later
    · exact absurd first (by decide)
    · exact isWord_ne_zero (others 0 later) rfl
  | integer digits => exact digits.zero_notMem
  | double whole places exponent =>
    simp [whole.zero_notMem, places.zero_notMem, exponent.zero_notMem]
  | string quotable => simp [quotable.zero_notMem]
  | punct p => cases p <;> decide

theorem Lexeme.ne_nil (lexeme : Lexeme kind taken) : taken ≠ [] := by
  cases lexeme with
  | integer digits => exact digits.1
  | punct p => cases p <;> decide
  | _ => simp

theorem ofWord_ne_string {t : Text} : TokenKind.ofWord t ≠ .string := by
  unfold TokenKind.ofWord
  split <;> simp

/-- A token is spelled as it was written. -/
theorem Lexeme.spelling (lexeme : Lexeme kind taken) (p : Pos) :
    Token.spelling ⟨kind, kind.value taken, p⟩ = taken := by
  cases lexeme with
  | word => simp [Token.spelling, TokenKind.value, ofWord_ne_string]
  | string quotable =>
    have mark : (("\"" : String) : Text) = [0x22] := by decide
    simp [Token.spelling, TokenKind.value, mark]
  | _ => simp [Token.spelling, TokenKind.value]

theorem Lexeme.kind_ne_eof (lexeme : Lexeme kind taken) : kind ≠ .eof := by
  cases lexeme with
  | word => unfold TokenKind.ofWord; split <;> simp
  | _ => simp

/-! ## The pieces that the lexer finds -/

theorem takeWhile_digits (t : Text) : ∀ d ∈ t.takeWhile isDigit, isDigit d = true :=
  fun _ member => List.mem_takeWhile_imp member

theorem exponentMarkLength_succ {t : Text} {n : Nat} (found : exponentMarkLength t = n + 1) :
    ∃ mark sign, t.take (n + 1) = mark :: sign ∧ (mark = 0x65 ∨ mark = 0x45) ∧
      (sign = [] ∨ sign = [0x2b] ∨ sign = [0x2d]) := by
  unfold exponentMarkLength at found
  split at found
  · cases found
  · rename_i b rest
    split at found
    · rename_i mark
      split at found
      · rename_i c behind
        split at found
        · rename_i sign
          cases found
          refine ⟨b, [c], rfl, mark, .inr ?_⟩
          simpa using sign
        · cases found
          exact ⟨b, [], rfl, mark, .inl rfl⟩
      · cases found
        exact ⟨b, [], rfl, mark, .inl rfl⟩
    · cases found

theorem take_takeWhile (p : UInt8 → Bool) (t : Text) :
    t.take (t.takeWhile p).length = t.takeWhile p :=
  (List.prefix_iff_eq_take.1 (List.takeWhile_prefix p)).symm

theorem drop_takeWhile (p : UInt8 → Bool) (t : Text) :
    t.drop (t.takeWhile p).length = t.dropWhile p := by
  induction t with
  | nil => rfl
  | cons b t ih => by_cases kept : p b = true <;> simp [kept, ih]

/-- What is taken of two texts with a byte between them. -/
theorem take_point {after places behind : Text} (whole : Text) (c : UInt8) (k : Nat)
    (front : places ++ behind = after) :
    (whole ++ c :: after).take (whole.length + 1 + places.length + k) =
      whole ++ c :: (places ++ behind.take k) := by
  have size : whole.length + 1 + places.length + k = whole.length + (places.length + k + 1) := by omega
  rw [size, List.take_length_add_append, List.take_succ_cons, ← front, List.take_length_add_append]

/-- A number is an integer, or a double with places. -/
theorem numberPiece_ok {form : Form} {more : Nat}
    (digit : isDigit b = true) (ran : numberPiece b rest = .ok ⟨form, more⟩) :
    ∃ kind, form = .token kind ∧ Lexeme kind (b :: rest.take more) := by
  have whole : Digits (b :: rest.takeWhile isDigit) :=
    ⟨by simp, List.forall_mem_cons.2 ⟨digit, takeWhile_digits rest⟩⟩
  have integer : Lexeme .integer (b :: rest.take (rest.takeWhile isDigit).length) := by
    rw [take_takeWhile]
    exact .integer whole
  have front := List.takeWhile_append_dropWhile (p := isDigit) (l := rest)
  simp only [numberPiece, drop_takeWhile] at ran
  split at ran
  · cases ran
    exact ⟨_, rfl, integer⟩
  · rename_i c after tail
    rw [tail] at front
    split at ran
    · rename_i point
      obtain ⟨rfl, next⟩ := point
      have places : Digits (after.takeWhile isDigit) := by
        refine ⟨fun none => ?_, takeWhile_digits after⟩
        cases after with
        | nil => simp at next
        | cons d after => simp_all
      have taken := fun k => take_point (rest.takeWhile isDigit) 0x2e k
        (List.takeWhile_append_dropWhile (p := isDigit) (l := after))
      rw [front] at taken
      split at ran
      · cases ran
        refine ⟨_, rfl, ?_⟩
        have all := taken 0
        rw [Nat.add_zero] at all
        rw [all]
        exact .double whole places .none
      · rename_i mark found
        split at ran
        · cases ran
        · rename_i digits
          cases ran
          obtain ⟨m, sign, start, known, signs⟩ := exponentMarkLength_succ found
          refine ⟨_, rfl, ?_⟩
          rw [Nat.add_assoc _ mark 1, Nat.add_assoc _ (mark + 1), taken, List.take_add, start,
            take_takeWhile]
          exact .double whole places (.some known signs ⟨by simpa using digits, takeWhile_digits _⟩)
    · split at ran
      · cases ran
      · cases ran
        exact ⟨_, rfl, integer⟩

/-- A string ends at the first quote that is not escaped. -/
theorem stringLength?_some {n : Nat} (found : stringLength? rest = some n) :
    ∃ inner, rest.take n = inner ++ [0x22] ∧ Quotable inner := by
  fun_induction stringLength? rest generalizing n with
  | case1 => cases found
  | case2 => cases found
  | case3 rest =>
    cases found
    exact ⟨[], rfl, .nil⟩
  | case4 => cases found
  | case5 c rest ends => cases found
  | case6 c rest ends _ _ ih =>
    obtain ⟨m, known, rfl⟩ := Option.map_eq_some_iff.1 found
    obtain ⟨inner, taken, quotable⟩ := ih known
    rw [not_or] at ends
    exact ⟨0x5c :: c :: inner, by simp [taken], .escape ends.1 ends.2 quotable⟩
  | case7 b rest stops plain other ih =>
    obtain ⟨m, known, rfl⟩ := Option.map_eq_some_iff.1 found
    obtain ⟨inner, taken, quotable⟩ := ih known
    rw [not_or] at stops
    exact ⟨b :: inner, by simp [taken], .plain stops.1 stops.2 plain other quotable⟩

/-- A comment ends at the first end mark. -/
theorem blockCommentLength?_some {n : Nat} (found : blockCommentLength? rest = some n) :
    ∃ body, rest.take n = body ++ [0x2a, 0x2f] ∧ 0 ∉ body ∧ ¬ [0x2a, 0x2f] <:+: body ++ [0x2a] := by
  fun_induction blockCommentLength? rest generalizing n with
  | case1 => cases found
  | case2 => cases found
  | case3 b rest nonzero closes =>
    cases found
    obtain ⟨rfl, next⟩ := closes
    cases rest with
    | nil => cases next
    | cons c rest =>
      cases next
      exact ⟨[], rfl, by simp, by decide⟩
  | case4 b rest nonzero stays ih =>
    obtain ⟨m, known, rfl⟩ := Option.map_eq_some_iff.1 found
    obtain ⟨body, taken, whole, first⟩ := ih known
    refine ⟨b :: body, by simp [taken], by simpa using ⟨Ne.symm nonzero, whole⟩, fun earlier => ?_⟩
    rcases List.infix_cons_iff.1 earlier with here | later
    · -- An end that starts at `b` would have been found.
      obtain ⟨rfl, next⟩ := List.cons_prefix_cons.1 here
      cases body with
      | nil => simp at next
      | cons c body =>
        obtain ⟨rfl, -⟩ := List.cons_prefix_cons.1 next
        cases rest with
        | nil => simp at taken
        | cons d rest =>
          cases m with
          | zero => simp at taken
          | succ m => simp_all
    · exact first later

/-- A comment to the end of the line. -/
theorem lineComment_of_start (start : b = 0x23 ∨ b = 0x2f ∧ rest.head? = some 0x2f) :
    LineComment (b :: rest.takeWhile fun c => c != 0x0a && c != 0) := by
  have inside : 0x0a ∉ rest.takeWhile fun c => c != 0x0a && c != 0 := fun member => by
    have kept := List.mem_takeWhile_imp member
    simp at kept
  rcases start with rfl | ⟨rfl, next⟩
  · exact .hash inside
  · cases rest with
    | nil => cases next
    | cons c rest =>
      cases next
      rw [List.takeWhile_cons_of_pos (by decide)] at inside ⊢
      exact .slashes fun member => inside (List.mem_cons_of_mem _ member)

/-- A line comment is skipped with the byte that ends it. -/
theorem gap_of_line (start : b = 0x23 ∨ b = 0x2f ∧ rest.head? = some 0x2f) :
    Gap (b :: rest.take (lineCommentLength rest)) (rest.drop (lineCommentLength rest)) := by
  have comment := lineComment_of_start start
  have whole : 0 ∉ b :: rest.takeWhile fun c => c != 0x0a && c != 0 := by
    intro member
    rcases List.mem_cons.1 member with rfl | later
    · rcases start with same | ⟨same, -⟩ <;> exact absurd same (by decide)
    · have kept := List.mem_takeWhile_imp later
      simp at kept
  have front := List.takeWhile_append_dropWhile (p := fun c => c != 0x0a && c != 0) (l := rest)
  have size := congrArg List.length front
  unfold lineCommentLength
  cases tail : rest.dropWhile fun c => c != 0x0a && c != 0 with
  | nil =>
    rw [tail, List.append_nil] at front
    rw [front] at comment whole ⊢
    simpa using Gap.lastLine comment whole
  | cons c after =>
    have ends : c = 0x0a ∨ c = 0 := by
      have stops := List.head?_dropWhile_not (fun c => c != 0x0a && c != 0) rest
      rw [tail] at stops
      simpa [or_iff_not_imp_left] using stops
    rw [tail, List.length_append, List.length_cons] at size
    have taken : rest.take ((rest.takeWhile fun c => c != 0x0a && c != 0).length + 1) =
        (rest.takeWhile fun c => c != 0x0a && c != 0) ++ [c] := by
      rw [List.take_add, take_takeWhile, drop_takeWhile, tail, List.take_succ_cons, List.take_zero]
    rw [if_pos (by omega), taken, ← List.cons_append]
    rcases ends with rfl | rfl
    · exact .line comment whole
    · exact .cutLine comment whole

/-- Punctuation is cut as it is spelled. -/
theorem punctPiece_ok {form : Form} {more : Nat} (ran : punctPiece b rest = .ok ⟨form, more⟩) :
    ∃ p : Punct, form = .token (.punct p) ∧ p.spelling = b :: rest.take more := by
  unfold punctPiece at ran
  split at ran
  · rename_i p found
    cases ran
    obtain ⟨c, next, known⟩ := Option.bind_eq_some_iff.1 found
    refine ⟨p, rfl, ?_⟩
    cases rest with
    | nil => cases next
    | cons d rest =>
      cases next
      simpa using List.find?_some known
  · split at ran
    · rename_i p found
      cases ran
      exact ⟨p, rfl, by simpa using List.find?_some found⟩
    · cases ran

theorem startsComment_cons :
    StartsComment (b :: rest) ↔
      b = 0x23 ∨ b = 0x2f ∧ (rest.head? = some 0x2f ∨ rest.head? = some 0x2a) := by
  cases rest <;> simp [StartsComment, eq_comm, and_or_left]

/-- What the piece at the start of a text can be. -/
theorem piece_ok {form : Form} {more : Nat} (ran : piece b rest = .ok ⟨form, more⟩) :
    (form = .gap ∧ Gap (b :: rest.take more) (rest.drop more)) ∨
      ∃ kind, form = .token kind ∧ Lexeme kind (b :: rest.take more) ∧
        ¬ StartsComment (b :: rest) := by
  rw [startsComment_cons]
  unfold piece at ran
  split at ran
  · rename_i alpha
    cases ran
    refine .inr ⟨_, rfl, .word alpha fun c member => ?_, ?_⟩
    · rw [take_takeWhile] at member
      exact List.mem_takeWhile_imp member
    · rintro (rfl | ⟨rfl, -⟩) <;> exact absurd alpha (by decide)
  split at ran
  · rename_i digit
    obtain ⟨kind, rfl, lexeme⟩ := numberPiece_ok digit ran
    refine .inr ⟨kind, rfl, lexeme, ?_⟩
    rintro (rfl | ⟨rfl, -⟩) <;> exact absurd digit (by decide)
  split at ran
  · rename_i blank
    cases ran
    exact .inl ⟨rfl, .blank blank⟩
  split at ran
  · rename_i quote
    subst quote
    split at ran
    · rename_i n found
      cases ran
      obtain ⟨inner, taken, quotable⟩ := stringLength?_some found
      rw [taken]
      exact .inr ⟨_, rfl, .string quotable, by simp⟩
    · cases ran
  split at ran
  · rename_i start
    cases ran
    exact .inl ⟨rfl, gap_of_line start⟩
  rename_i noLine
  split at ran
  · rename_i start
    obtain ⟨rfl, next⟩ := start
    unfold blockCommentPiece at ran
    split at ran
    · rename_i n found
      cases ran
      obtain ⟨body, taken, whole, first⟩ := blockCommentLength?_some found
      cases rest with
      | nil => cases next
      | cons c rest =>
        cases next
        rw [List.tail_cons] at taken
        rw [List.take_succ_cons, taken]
        exact .inl ⟨rfl, .block (.mk first) (by simp [whole])⟩
    · cases ran
  · rename_i noBlock
    obtain ⟨p, rfl, spelled⟩ := punctPiece_ok ran
    refine .inr ⟨_, rfl, spelled ▸ .punct p, ?_⟩
    rintro (rfl | ⟨rfl, next | next⟩)
    · exact noLine (.inl rfl)
    · exact noLine (.inr ⟨rfl, next⟩)
    · exact noBlock ⟨rfl, next⟩

/-- A text that can be read is cut into pieces. -/
theorem scan_scanned {src : Text} {p : Pos} {ts : List Token} (ran : scan src p = .ok ts) :
    Scanned src p ts := by
  fun_induction scan src p generalizing ts with
  | case1 p =>
    cases ran
    exact .done
  | case2 p rest =>
    cases ran
    exact .zero
  | case3 => cases ran
  | case4 => cases ran
  | case5 p b rest nonzero more taken ts' scanned found =>
    rename_i ih
    cases ran
    rcases piece_ok found with ⟨-, gap⟩ | ⟨kind, other, -⟩
    · have all := Scanned.gap gap (ih scanned)
      rwa [List.cons_append, List.take_append_drop] at all
    · cases other
  | case6 p b rest nonzero more taken ts' kind scanned found =>
    rename_i ih
    cases ran
    rcases piece_ok found with ⟨other, -⟩ | ⟨k, same, lexeme, plain⟩
    · cases other
    · cases same
      have whole : (b :: rest.take more) ++ rest.drop more = b :: rest := by
        rw [List.cons_append, List.take_append_drop]
      rw [← whole] at plain ⊢
      exact .token lexeme plain (ih scanned)

end ImpCompiler.Lexer
