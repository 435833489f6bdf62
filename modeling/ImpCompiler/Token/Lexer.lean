import ImpCompiler.Token

/-!
# Token.Lexer — reading tokens from a source text

`Lexer.tokens` cuts a source text into pieces from left to right: gaps (a blank, a
line end, a comment) and tokens. A piece is described by its first byte and the
number of bytes that it takes behind it, so that the pieces of a source are always
consecutive parts of it. Reading stops at the end of the text or at a zero byte.
-/

namespace ImpCompiler

set_option autoImplicit false

/-- Why a source text cannot be cut into tokens. -/
inductive LexCause where
  | unexpected (u : Text.CodeUnit)
  | malformedExponent (t : Text)
  | malformedNumber (t : Text)
  | unclosedString
  | unclosedComment
  deriving DecidableEq, Repr

namespace LexCause

def message : LexCause → Text
  | .unexpected u => "unexpected character " ++ Text.quoteSingle u
  | .malformedExponent t => "malformed exponent in " ++ Text.quote t
  | .malformedNumber t => "malformed number " ++ Text.quote t
  | .unclosedString => "unclosed string literal"
  | .unclosedComment => "unclosed block comment"

end LexCause

structure LexError where
  pos : Pos
  cause : LexCause
  deriving DecidableEq, Repr

def LexError.message (e : LexError) : Text := "line " ++ e.pos.text ++ ": " ++ e.cause.message

namespace Lexer

def isAlpha (b : UInt8) : Bool := decide (0x61 ≤ b ∧ b ≤ 0x7a ∨ 0x41 ≤ b ∧ b ≤ 0x5a)

def isDigit (b : UInt8) : Bool := decide (0x30 ≤ b ∧ b ≤ 0x39)

def isWord (b : UInt8) : Bool := isAlpha b || isDigit b || b == 0x5f

/-- Blank, tab, line end, form feed and carriage return. -/
def isSpace (b : UInt8) : Bool := b == 0x20 || b == 0x09 || b == 0x0a || b == 0x0c || b == 0x0d

inductive Form where
  | gap
  | token (kind : TokenKind)
  deriving DecidableEq, Repr

/-- A piece: what it is, and how many bytes it takes behind its first. -/
structure Piece where
  form : Form
  more : Nat
  deriving DecidableEq, Repr

/-- Why no piece starts here, and the text between here and the place where that is
reported. -/
structure Failure where
  cause : LexCause
  before : Text
  deriving DecidableEq, Repr

/-- The number of bytes of a line comment in the text behind its start: up to and
with the next line end or zero byte. -/
def lineCommentLength (rest : Text) : Nat :=
  let body := rest.takeWhile fun b => b != 0x0a && b != 0
  if body.length < rest.length then body.length + 1 else body.length

/-- The number of bytes of a block comment in the text behind its `/*`: up to and
with the first `*/`. -/
def blockCommentLength? : Text → Option Nat
  | [] => none
  | b :: rest =>
    if b = 0 then none
    else if b = 0x2a ∧ rest.head? = some 0x2f then some 2
    else (blockCommentLength? rest).map (· + 1)

/-- The number of bytes of a string literal in the text behind its opening quote: up
to and with the closing one. -/
def stringLength? : Text → Option Nat
  | [] => none
  | b :: rest =>
    if b = 0 ∨ b = 0x0a then none
    else if b = 0x22 then some 1
    else if b = 0x5c then
      match rest with
      | [] => none
      | c :: rest =>
        if c = 0 ∨ c = 0x0a then none else (stringLength? rest).map (· + 2)
    else (stringLength? rest).map (· + 1)

/-- The number of bytes of an exponent mark and its sign, 0 if there is no mark. -/
def exponentMarkLength : Text → Nat
  | [] => 0
  | b :: rest =>
    if b = 0x65 ∨ b = 0x45 then
      match rest with
      | c :: _ => if c = 0x2b ∨ c = 0x2d then 2 else 1
      | [] => 1
    else 0

/-- The piece of a number that starts with the digit `b`. -/
def numberPiece (b : UInt8) (rest : Text) : Except Failure Piece :=
  let whole := rest.takeWhile isDigit
  match rest.drop whole.length with
  | [] => .ok ⟨.token .integer, whole.length⟩
  | c :: after =>
    if c = 0x2e ∧ after.head?.any isDigit then
      let places := after.takeWhile isDigit
      let behind := after.drop places.length
      let size := whole.length + 1 + places.length
      match exponentMarkLength behind with
      | 0 => .ok ⟨.token .double, size⟩
      | mark + 1 =>
        let digits := (behind.drop (mark + 1)).takeWhile isDigit
        if digits.isEmpty then
          .error ⟨.malformedExponent (b :: rest.take (size + mark + 1)), []⟩
        else .ok ⟨.token .double, size + mark + 1 + digits.length⟩
    else if isAlpha c then .error ⟨.malformedNumber (b :: whole ++ [c]), []⟩
    else .ok ⟨.token .integer, whole.length⟩

def throughLastNewline (t : Text) : Text := (t.reverse.dropWhile (· != 0x0a)).reverse

/-- The piece of a block comment, where `rest` is the text behind its first byte. An
unclosed comment is reported at the start of the last line it reaches, or at its own
start if that is on the same line. -/
def blockCommentPiece (b : UInt8) (rest : Text) : Except Failure Piece :=
  match blockCommentLength? rest.tail with
  | some n => .ok ⟨.gap, n + 1⟩
  | none => .error ⟨.unclosedComment, throughLastNewline (b :: rest.takeWhile (· != 0))⟩

def punctPiece (b : UInt8) (rest : Text) : Except Failure Piece :=
  match rest.head?.bind (Punct.double? b) with
  | some p => .ok ⟨.token (.punct p), 1⟩
  | none =>
    match Punct.single? b with
    | some p => .ok ⟨.token (.punct p), 0⟩
    | none => .error ⟨.unexpected (Text.firstUnit b rest).1, []⟩

/-- The piece that starts with the byte `b` in front of `rest`. -/
def piece (b : UInt8) (rest : Text) : Except Failure Piece :=
  if isAlpha b then
    let more := (rest.takeWhile isWord).length
    .ok ⟨.token (.ofWord (b :: rest.take more)), more⟩
  else if isDigit b then numberPiece b rest
  else if isSpace b then .ok ⟨.gap, 0⟩
  else if b = 0x22 then
    match stringLength? rest with
    | some n => .ok ⟨.token .string, n⟩
    | none => .error ⟨.unclosedString, []⟩
  else if b = 0x23 ∨ (b = 0x2f ∧ rest.head? = some 0x2f) then .ok ⟨.gap, lineCommentLength rest⟩
  else if b = 0x2f ∧ rest.head? = some 0x2a then blockCommentPiece b rest
  else punctPiece b rest

/-- The tokens of the source text `src` that starts at `p`. -/
def scan (src : Text) (p : Pos) : Except LexError (List Token) :=
  match src with
  | [] => .ok [⟨.eof, [], p⟩]
  | b :: rest =>
    if b = 0 then .ok [⟨.eof, [b], p⟩]
    else
      match piece b rest with
      | .error f => .error ⟨p.advance f.before, f.cause⟩
      | .ok ⟨form, more⟩ =>
        let taken := b :: rest.take more
        match scan (rest.drop more) (p.advance taken), form with
        | .error e, _ => .error e
        | .ok ts, .gap => .ok ts
        | .ok ts, .token kind => .ok (⟨kind, kind.value taken, p⟩ :: ts)
termination_by src.length
decreasing_by simp only [List.length_drop, List.length_cons]; omega

def tokens (src : Text) : Except LexError (List Token) := scan src Pos.start

end Lexer

end ImpCompiler
