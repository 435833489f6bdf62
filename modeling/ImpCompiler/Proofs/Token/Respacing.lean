import ImpCompiler.Proofs.Token.Layout

/-!
# Proofs.Token.Respacing — tokens with a blank between them

What is written as a token is read as that token wherever a blank or nothing follows it
(`Lexeme.piece_eq`). The tokens of a source can therefore be written out again with one blank
between any two, and reading them gives the same kinds and values (`scan_respaced`).
-/

namespace ImpCompiler.Lexer

set_option autoImplicit false

variable {b : UInt8} {more rest : Text}

/-- Nothing of this text belongs to a token in front of it. -/
def Breaks (rest : Text) : Prop := ∀ b, rest.head? = some b → isSpace b = true

theorem breaks_nil : Breaks [] := by simp [Breaks]

theorem breaks_cons (rest : Text) (space : isSpace b = true) : Breaks (b :: rest) := by
  simpa [Breaks] using space

theorem isSpace_iff : isSpace b = true ↔ b = 0x20 ∨ b = 0x09 ∨ b = 0x0a ∨ b = 0x0c ∨ b = 0x0d := by
  simp [isSpace, or_assoc]

theorem isAlpha_of_isDigit (digit : isDigit b = true) : isAlpha b = false := by
  simp only [isDigit, isAlpha, decide_eq_true_eq, decide_eq_false_iff_not, UInt8.le_iff_toNat_le,
    UInt8.reduceToNat] at digit ⊢
  omega

theorem isWord_of_isSpace (space : isSpace b = true) : isWord b = false := by
  rcases isSpace_iff.1 space with rfl | rfl | rfl | rfl | rfl <;> decide

theorem isWord_eq_false (other : isWord b = false) : ¬ isAlpha b = true ∧ ¬ isDigit b = true := by
  simp only [isWord, Bool.or_eq_false_iff] at other
  simp [other]

theorem isDigit_of_isSpace (space : isSpace b = true) : isDigit b = false :=
  Bool.eq_false_iff.2 (isWord_eq_false (isWord_of_isSpace space)).2

/-- The longest front of a text with a property ends where the text goes on without it. -/
theorem takeWhile_front {f : UInt8 → Bool} {front rest : Text} (inside : ∀ b ∈ front, f b = true)
    (stops : ∀ b, rest.head? = some b → f b = false) : (front ++ rest).takeWhile f = front := by
  rw [List.takeWhile_append_of_pos inside]
  cases rest with
  | nil => rw [List.takeWhile_nil, List.append_nil]
  | cons b rest =>
    have other : ¬ f b = true := by simp [stops b rfl]
    rw [List.takeWhile_cons_of_neg other, List.append_nil]

/-! ## Numbers -/

theorem numberPiece_integer (b : UInt8) (digits : ∀ d ∈ more, isDigit d = true)
    (breaks : Breaks rest) : numberPiece b (more ++ rest) = .ok ⟨.token .integer, more.length⟩ := by
  have whole : (more ++ rest).takeWhile isDigit = more :=
    takeWhile_front digits fun c next => isDigit_of_isSpace (breaks c next)
  simp only [numberPiece, whole, List.drop_left]
  cases rest with
  | nil => rfl
  | cons c after =>
    have blank := breaks c rfl
    have point : ¬ (c = 0x2e ∧ after.head?.any isDigit = true) := by
      rintro ⟨rfl, -⟩
      exact absurd blank (by decide)
    have letter := (isWord_eq_false (isWord_of_isSpace blank)).1
    simp only [if_neg point, if_neg letter]

theorem exponentMarkLength_breaks {rest : Text} (breaks : Breaks rest) :
    exponentMarkLength rest = 0 := by
  cases rest with
  | nil => rfl
  | cons c after =>
    have blank := breaks c rfl
    have mark : ¬ (c = 0x65 ∨ c = 0x45) := by
      rintro (rfl | rfl) <;> exact absurd blank (by decide)
    simp only [exponentMarkLength, if_neg mark]

/-- A mark and a sign in front of digits. -/
theorem exponentMarkLength_some {mark : UInt8} {sign ds : Text} (rest : Text)
    (marks : mark = 0x65 ∨ mark = 0x45) (signs : sign = [] ∨ sign = [0x2b] ∨ sign = [0x2d])
    (digits : Digits ds) :
    exponentMarkLength (mark :: (sign ++ (ds ++ rest))) = sign.length + 1 := by
  obtain ⟨nonempty, all⟩ := digits
  rcases signs with rfl | rfl | rfl
  · cases ds with
    | nil => exact absurd rfl nonempty
    | cons d ds =>
      have plain : ¬ (d = 0x2b ∨ d = 0x2d) := by
        have digit := all d (by simp)
        rintro (rfl | rfl) <;> exact absurd digit (by decide)
      simp [exponentMarkLength, marks, plain]
  · simp [exponentMarkLength, marks]
  · simp [exponentMarkLength, marks]

/-- A spelled double before a break is cut as a whole. -/
theorem numberPiece_double {whole places exponent rest : Text} (b : UInt8)
    (digits : ∀ d ∈ whole, isDigit d = true) (fraction : Digits places) (ends : Exponent exponent)
    (breaks : Breaks rest) :
    numberPiece b (whole ++ 0x2e :: (places ++ (exponent ++ rest))) =
      .ok ⟨.token .double, (whole ++ 0x2e :: (places ++ exponent)).length⟩ := by
  -- each run of digits is followed by a byte that is no digit, so it ends where it did
  have first : (whole ++ 0x2e :: (places ++ (exponent ++ rest))).takeWhile isDigit = whole :=
    takeWhile_front digits fun c next => by cases next; decide
  have point : (places ++ (exponent ++ rest)).head?.any isDigit = true := by
    obtain ⟨nonempty, all⟩ := fraction
    cases places with
    | nil => exact absurd rfl nonempty
    | cons d places => exact all d (by simp)
  have second : (places ++ (exponent ++ rest)).takeWhile isDigit = places := by
    refine takeWhile_front fraction.2 fun c next => ?_
    cases ends with
    | none => exact isDigit_of_isSpace (breaks c next)
    | some mark =>
      cases next
      rcases mark with rfl | rfl <;> decide
  simp only [numberPiece, first, List.drop_left, point, and_self, if_true, second]
  cases ends with
  | none =>
    simp only [List.nil_append, exponentMarkLength_breaks breaks]
    simp
    omega
  | @some mark sign ds marks signs power =>
    have third :
        ((mark :: (sign ++ (ds ++ rest))).drop (sign.length + 1)).takeWhile isDigit = ds := by
      rw [List.drop_succ_cons, List.drop_left]
      exact takeWhile_front power.2 fun c next => isDigit_of_isSpace (breaks c next)
    have nonempty : ds.isEmpty = false := by simpa using power.1
    simp only [List.cons_append, List.append_assoc,
      exponentMarkLength_some rest marks signs power, third, nonempty]
    simp
    omega

/-! ## Strings and marks -/

/-- A quoted text is cut at its closing quote. -/
theorem stringLength?_quotable {inner : Text} (rest : Text) (quotable : Quotable inner) :
    stringLength? (inner ++ 0x22 :: rest) = some (inner.length + 1) := by
  induction quotable with
  | nil =>
    rw [List.nil_append, stringLength?.eq_def]
    simp
  | plain nonzero newline quote escape _ ih =>
    rw [List.cons_append, stringLength?.eq_def]
    simp [nonzero, newline, quote, escape, ih]
  | escape nonzero newline _ ih =>
    rw [List.cons_append, List.cons_append, stringLength?.eq_def]
    simp [nonzero, newline, ih]

theorem double?_blank (b : UInt8) {c : UInt8} (blank : isSpace c = true) :
    Punct.double? b c = none := by
  have solid : ∀ p ∈ Punct.doubles, p.spelling.getLast?.any isSpace = false := by decide
  refine List.find?_eq_none.2 fun p member same => ?_
  have last := solid p member
  rw [beq_iff_eq.1 same] at last
  simp [blank] at last

theorem piece_punct {rest : Text} (word : isWord b = false) (space : isSpace b = false)
    (quote : b ≠ 0x22) (plain : ¬ StartsComment (b :: rest)) :
    piece b rest = punctPiece b rest := by
  rw [startsComment_cons] at plain
  obtain ⟨letter, digit⟩ := isWord_eq_false word
  have line : ¬ (b = 0x23 ∨ b = 0x2f ∧ rest.head? = some 0x2f) := by tauto
  have block : ¬ (b = 0x2f ∧ rest.head? = some 0x2a) := by tauto
  rw [piece, if_neg letter, if_neg digit, if_neg (by simp [space]), if_neg quote, if_neg line,
    if_neg block]

/-- How a mark starts and how it goes on: with nothing, or with one byte. -/
theorem punct_spelled {p : Punct} {more : Text} (spelled : p.spelling = b :: more) :
    isWord b = false ∧ isSpace b = false ∧ b ≠ 0x22 ∧ b ≠ 0x23 ∧ (b = 0x2f → more = []) ∧
      (more = [] ∧ Punct.single? b = some p ∨
        more = [more.headD 0] ∧ Punct.double? b (more.headD 0) = some p) := by
  have table : ∀ q : Punct,
      isWord (q.spelling.headD 0) = false ∧ isSpace (q.spelling.headD 0) = false ∧
      q.spelling.headD 0 ≠ 0x22 ∧ q.spelling.headD 0 ≠ 0x23 ∧
      (q.spelling.headD 0 = 0x2f → q.spelling.tail = []) ∧
      (q.spelling.tail = [] ∧ Punct.single? (q.spelling.headD 0) = some q ∨
        q.spelling.tail = [q.spelling.tail.headD 0] ∧
          Punct.double? (q.spelling.headD 0) (q.spelling.tail.headD 0) = some q) := by
    intro q
    cases q <;> decide
  have facts := table p
  rw [spelled] at facts
  exact facts

theorem punct_piece {p : Punct} (spelled : p.spelling = b :: more)
    (breaks : Breaks rest) : piece b (more ++ rest) = .ok ⟨.token (.punct p), more.length⟩ := by
  obtain ⟨word, space, quote, hash, slash, goesOn⟩ := punct_spelled spelled
  have plain : ¬ StartsComment (b :: (more ++ rest)) := by
    rw [startsComment_cons]
    rintro (same | ⟨same, next⟩)
    · exact hash same
    · rw [slash same, List.nil_append] at next
      rcases next with next | next <;> exact absurd (breaks _ next) (by decide)
  rw [piece_punct word space quote plain]
  rcases goesOn with ⟨rfl, found⟩ | ⟨two, found⟩
  · have single : rest.head?.bind (Punct.double? b) = none := by
      cases rest with
      | nil => rfl
      | cons c rest => exact double?_blank b (breaks c rfl)
    simp only [punctPiece, List.nil_append, single, found]
    rfl
  · rw [two]
    simp only [punctPiece, List.cons_append, List.head?_cons, Option.bind_some, found]
    rfl

/-! ## Tokens -/

/-- What is written as a token is read as one if nothing behind it can belong to it. -/
theorem Lexeme.piece_eq {kind : TokenKind}
    (lexeme : Lexeme kind (b :: more)) (breaks : Breaks rest) :
    piece b (more ++ rest) = .ok ⟨.token kind, more.length⟩ := by
  generalize same : b :: more = taken at lexeme
  cases lexeme with
  | word first others =>
    cases same
    have front : (more ++ rest).takeWhile isWord = more :=
      takeWhile_front others fun c next => isWord_of_isSpace (breaks c next)
    simp only [piece, if_pos first, front, List.take_left]
  | integer digits =>
    subst same
    obtain ⟨digit, others⟩ := List.forall_mem_cons.1 digits.2
    rw [piece, if_neg (by simp [isAlpha_of_isDigit digit]), if_pos digit]
    exact numberPiece_integer b others breaks
  | @double whole places exponent digits fraction ends =>
    cases whole with
    | nil => exact absurd rfl digits.1
    | cons d whole =>
      cases same
      obtain ⟨digit, others⟩ := List.forall_mem_cons.1 digits.2
      rw [piece, if_neg (by simp [isAlpha_of_isDigit digit]), if_pos digit, List.append_eq,
        List.append_assoc, List.cons_append, List.append_assoc]
      exact numberPiece_double b others fraction ends breaks
  | string quotable =>
    cases same
    have closes := stringLength?_quotable rest quotable
    rw [piece, if_neg (by decide), if_neg (by decide), if_neg (by decide), if_pos rfl,
      List.append_assoc, List.singleton_append, closes, List.length_append]
    rfl
  | punct p => exact punct_piece same.symm breaks

/-- A spelled token before a break is scanned first. -/
theorem scan_token {kind : TokenKind} {taken rest : Text} (p : Pos) (lexeme : Lexeme kind taken)
    (breaks : Breaks rest) :
    scan (taken ++ rest) p =
      (scan rest (p.advance taken)).map (⟨kind, kind.value taken, p⟩ :: ·) := by
  cases taken with
  | nil => exact absurd rfl lexeme.ne_nil
  | cons b more =>
    have nonzero : ¬ b = 0 := fun zero => lexeme.zero_notMem (by simp [zero])
    rw [List.cons_append, scan, if_neg nonzero, lexeme.piece_eq breaks]
    simp only [List.drop_left, List.take_left]
    cases scan rest (p.advance (b :: more)) <;> rfl

/-- White space only moves the position. -/
theorem scan_blank (rest : Text) (p : Pos) (space : isSpace b = true) :
    scan (b :: rest) p = scan rest (p.advance [b]) := by
  have nonzero : ¬ b = 0 := by
    rintro rfl
    exact absurd space (by decide)
  obtain ⟨letter, digit⟩ := isWord_eq_false (isWord_of_isSpace space)
  have gap : piece b rest = .ok ⟨.gap, 0⟩ := by
    rw [piece, if_neg letter, if_neg digit, if_pos space]
  rw [scan, if_neg nonzero, gap]
  simp only [List.drop_zero, List.take_zero]
  cases scan rest (p.advance [b]) <;> rfl

/-! ## Sources -/

/-- Every token of a source is written as tokens of its kind are. -/
theorem Scanned.written {src : Text} {p : Pos} {ts : List Token} (scanned : Scanned src p ts) :
    ∃ body last, Ended ts body last ∧ (∀ t ∈ body, Lexeme t.kind t.spelling) ∧
      (0 ∉ src → last.value = []) := by
  induction scanned with
  | done => exact ⟨[], _, ⟨rfl, rfl, by simp⟩, by simp, fun _ => rfl⟩
  | zero => exact ⟨[], _, ⟨rfl, rfl, by simp⟩, by simp, fun plain => by simp at plain⟩
  | gap _ _ ih =>
    obtain ⟨body, last, ended, written, whole⟩ := ih
    exact ⟨body, last, ended, written, fun plain => whole fun zero =>
      plain (List.mem_append_right _ zero)⟩
  | @token kind taken rest p ts lexeme _ _ ih =>
    obtain ⟨body, last, ended, written, whole⟩ := ih
    refine ⟨_ :: body, last, ended.cons lexeme.kind_ne_eof, List.forall_mem_cons.2 ⟨?_, written⟩,
      fun plain => whole fun zero => plain (List.mem_append_right _ zero)⟩
    rw [lexeme.spelling]
    exact lexeme

/-- The kind and the value of a token, without its place. -/
def content (t : Token) : TokenKind × Text := (t.kind, t.value)

/-- The tokens as they are written, with one blank between any two. -/
def respaced (body : List Token) : Text := Text.joinWith " " (body.map Token.spelling)

/-- Behind the first token nothing follows that belongs to it. -/
theorem respaced_cons (t : Token) (rest : List Token) :
    ∃ after, respaced (t :: rest) = t.spelling ++ after ∧ Breaks after ∧
      ∀ p, ∃ q, scan after p = scan (respaced rest) q := by
  have blank : (" " : Text) = [0x20] := by decide
  cases rest with
  | nil => exact ⟨[], by simp [respaced, Text.joinWith], breaks_nil, fun p => ⟨p, rfl⟩⟩
  | cons u rest =>
    refine ⟨0x20 :: respaced (u :: rest), ?_, breaks_cons _ (by decide), fun p =>
      ⟨p.advance [0x20], scan_blank _ p (by decide)⟩⟩
    simp [respaced, Text.joinWith, blank]

theorem value_spelling (t : Token) : t.kind.value t.spelling = t.value := by
  by_cases string : t.kind = .string
  · have mark : ("\"" : Text) = [0x22] := by decide
    simp [TokenKind.value, Token.spelling, string, mark]
  · simp [TokenKind.value, Token.spelling, string]

/-- Tokens that are spelled with spaces between them are scanned again. -/
theorem scan_respaced : ∀ (body : List Token) (p : Pos), (∀ t ∈ body, Lexeme t.kind t.spelling) →
    ∃ ts body' last, scan (respaced body) p = .ok ts ∧ Ended ts body' last ∧
      body'.map content = body.map content ∧ last.value = []
  | [], p, _ => by
    refine ⟨_, [], ⟨.eof, [], p⟩, ?_, ⟨rfl, rfl, by simp⟩, rfl, rfl⟩
    simp [respaced, Text.joinWith, scan]
  | t :: rest, p, written => by
    obtain ⟨lexeme, others⟩ := List.forall_mem_cons.1 written
    obtain ⟨after, spelled, breaks, goesOn⟩ := respaced_cons t rest
    obtain ⟨q, same⟩ := goesOn (p.advance t.spelling)
    obtain ⟨ts, body', last, ran, ended, contents, value⟩ := scan_respaced rest q others
    refine ⟨_, ⟨t.kind, t.kind.value t.spelling, p⟩ :: body', last, ?_,
      ended.cons lexeme.kind_ne_eof, ?_, value⟩
    · rw [spelled, scan_token p lexeme breaks, same, ran]
      rfl
    · simp only [List.map_cons, contents, content, value_spelling]

/-- Reading is stable under new spacing. The tokens of a source before the end of the file can be
written out with single blanks between them, and what is read then has the same kinds and values
in the same order. Only the end of a source that a zero byte ends has another value. -/
theorem tokens_survive_new_spacing {src : Text} {ts : List Token} (read : tokens src = .ok ts) :
    ∃ body last ts' body' last', Ended ts body last ∧ tokens (respaced body) = .ok ts' ∧
      Ended ts' body' last' ∧ body'.map content = body.map content ∧
      (0 ∉ src → ts'.map content = ts.map content) := by
  obtain ⟨body, last, ended, written, whole⟩ := (scan_scanned read).written
  obtain ⟨ts', body', last', ran, ended', contents, value⟩ := scan_respaced body .start written
  refine ⟨body, last, ts', body', last', ended, ran, ended', contents, fun plain => ?_⟩
  have same : content last' = content last := by
    rw [content, content, ended'.eof, ended.eof, value, whole plain]
  rw [ended'.tokens, ended.tokens, List.map_append, List.map_append, contents, List.map_singleton,
    List.map_singleton, same]

/-- A division in front of a comment, numbers next to words and marks, and an escaped quote. -/
def crowdedText : Text := "x/1.5E-3//y\n==\"\\\"\";if(7<=-2)--i"

theorem crowdedText_respaced : ∃ ts body last ts', tokens crowdedText = .ok ts ∧
    Ended ts body last ∧ tokens (respaced body) = .ok ts' ∧ ts'.map content = ts.map content := by
  have read : (tokens crowdedText).toOption.isSome = true := by decide +kernel
  obtain ⟨ts, known⟩ := Option.isSome_iff_exists.1 read
  have ran := Except.toOption_eq_some.1 known
  obtain ⟨body, last, ts', -, -, ended, again, -, -, same⟩ := tokens_survive_new_spacing ran
  exact ⟨ts, body, last, ts', ran, ended, again, same (by decide +kernel)⟩

end ImpCompiler.Lexer
