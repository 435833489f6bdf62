import ImpCompiler.Decimal.Nearest
import ImpCompiler.Token.Lexer
import ImpCompiler.Tree

/-!
# Tree.Parser — reading a tree from tokens

A parser takes the tokens that are left, the last of which is the end of the file,
and answers with a tree and the tokens left behind it. The end of the file is never
taken. Lists are read by `many`, which repeats a step until the step declines;
nested expressions and statements are read with a bound on their depth. Both bounds
are the number of tokens left, which is always enough, since a repetition and a
nesting each take a token.

Binary operators, from loose to tight: `||` and `&&`, which nest to the right; one
comparison; `+ -` and `* / %`, which nest to the left. Then come the signs `- !`
before an operand, and indices and members behind it.
-/

namespace ImpCompiler

set_option autoImplicit false

inductive SyntaxCause where
  | expected (kind : TokenKind) (got : Token)
  | expectedType (got : Token)
  | unclosedBlock
  | notAssignable
  | notVariable (op : Text)
  | integerRange (literal : Text)
  | doubleRange (literal : Text)
  | malformedString
  | unexpected (got : Token)
  | missingSize (elem : Ty)

namespace SyntaxCause

def describe (t : Token) : Text :=
  if t.kind = .eof then "end of file" else Text.quote t.value

def message : SyntaxCause → Text
  | .expected kind got => "expected " ++ kind.name ++ ", got " ++ describe got
  | .expectedType got => "expected type, got " ++ describe got
  | .unclosedBlock => "expected \x27\x7d\x27, got end of file"
  | .notAssignable => "cannot assign to expression"
  | .notVariable op => op ++ " requires a variable"
  | .integerRange literal => "integer literal " ++ literal ++ " out of range"
  | .doubleRange literal => "malformed double literal " ++ literal
  | .malformedString => "malformed string literal"
  | .unexpected got => "unexpected " ++ describe got
  | .missingSize elem => "expected array size after new " ++ elem.text

end SyntaxCause

structure SyntaxError where
  pos : Pos
  cause : SyntaxCause

def SyntaxError.message (e : SyntaxError) : Text :=
  "line " ++ e.pos.text ++ ": syntax error: " ++ e.cause.message

abbrev Parser := StateT (List Token) (Except SyntaxError)

namespace Parser

def first : List Token → Token
  | t :: _ => t
  | [] => ⟨.eof, [], Pos.unknown⟩

/-- The tokens left behind the first; the end of the file stays. -/
def behind : List Token → List Token
  | t :: rest => if t.kind = .eof then t :: rest else rest
  | [] => []

/-- The next token, which is not taken. -/
def peek : Parser Token := fun ts => .ok (first ts, ts)

def next : Parser Token := fun ts => .ok (first ts, behind ts)

def fail {α : Type} (p : Pos) (cause : SyntaxCause) : Parser α := fun _ => .error ⟨p, cause⟩

/-- Takes the next token if it is of the kind, and says whether it was. -/
def got (kind : TokenKind) : Parser Bool := do
  if (← peek).kind = kind then
    let _ ← next
    return true
  else return false

/-- Takes the next token, which has to be of the kind. -/
def expect (kind : TokenKind) : Parser Token := do
  let t ← peek
  if t.kind = kind then next else fail t.pos (.expected kind t)

/-- The answers of `step` until it declines, at most `n` of them. -/
def many {α : Type} (step : Parser (Option α)) : Nat → Parser (List α)
  | 0 => return []
  | n + 1 => do
    match ← step with
    | none => return []
    | some a => return a :: (← many step n)

/-! ## Types -/

def base? : TokenKind → Option Base
  | .keyword .intWord => some .int
  | .keyword .doubleWord => some .double
  | .keyword .booleanWord => some .boolean
  | .keyword .voidWord => some .void
  | _ => none

/-- The number of `[]` pairs at the start of the tokens, and the tokens behind them. -/
def pairs : List Token → Nat × List Token
  | a :: b :: rest =>
    if a.kind = .punct .lbracket ∧ b.kind = .punct .rbracket then
      ((pairs rest).1 + 1, (pairs rest).2)
    else (0, a :: b :: rest)
  | ts => (0, ts)

/-- A base type and any number of `[]` pairs. -/
def type : Parser Ty := do
  let t ← next
  match base? t.kind with
  | none => fail t.pos (.expectedType t)
  | some b => fun ts => .ok (⟨b, (pairs ts).1⟩, (pairs ts).2)

/-! ## Literals -/

/-- The integer that decimal digits stand for, or its negative, if 64 bits are enough. -/
def ofDigits? (negative : Bool) (digits : Text) : Option Int64 :=
  if digits.isEmpty || !digits.all Lexer.isDigit then none
  else
    let n : Int := Double.digitsValue digits
    let v := if negative then -n else n
    if -(Nat.pow 2 63 : Int) ≤ v ∧ v < Nat.pow 2 63 then some (Int64.ofInt v) else none

/-- The integer that decimal digits with or without a sign stand for. -/
def integer? : Text → Option Int64
  | 0x2d :: digits => ofDigits? true digits
  | 0x2b :: digits => ofDigits? false digits
  | digits => ofDigits? false digits

/-! ## Expressions

The parsers of this section take the parser of nested expressions as an argument,
and the bound `n` on repetitions. -/

def orOp? : TokenKind → Option BinOp
  | .punct .or => some .or
  | _ => none

def andOp? : TokenKind → Option BinOp
  | .punct .and => some .and
  | _ => none

def relOp? : TokenKind → Option BinOp
  | .punct .less => some .lt
  | .punct .le => some .le
  | .punct .greater => some .gt
  | .punct .ge => some .ge
  | .punct .eq => some .eq
  | .punct .ne => some .ne
  | _ => none

def addOp? : TokenKind → Option BinOp
  | .punct .plus => some .add
  | .punct .minus => some .sub
  | _ => none

def mulOp? : TokenKind → Option BinOp
  | .punct .star => some .mul
  | .punct .slash => some .div
  | .punct .percent => some .mod
  | _ => none

def unOp? : TokenKind → Option UnOp
  | .punct .minus => some .neg
  | .punct .bang => some .not
  | _ => none

inductive Suffix where
  | index (pos : Pos) (i : Expr)
  | member (pos : Pos) (name : Text)

def Suffix.apply (x : Expr) : Suffix → Expr
  | .index p i => .index p x i
  | .member p name => .length p x name

/-- The arguments of a call behind its opening parenthesis, and the closing one. -/
def arguments (expr : Parser Expr) (n : Nat) : Parser (List Expr) := do
  if ← got (.punct .rparen) then return []
  let first ← expr
  let rest ← many (do
    if ← got (.punct .rparen) then return none
    let _ ← expect (.punct .comma)
    return some (← expr)) n
  return first :: rest

def sizes (expr : Parser Expr) (n : Nat) : Parser (List Expr) :=
  many (do
    if ← got (.punct .lbracket) then
      let size ← expr
      let _ ← expect (.punct .rbracket)
      return some size
    else return none) n

/-- Literals, variables, calls, parentheses and array constructions. -/
def primary (expr : Parser Expr) (n : Nat) : Parser Expr := do
  let t ← next
  match t.kind with
  | .integer =>
    match integer? t.value with
    | some v => return .int t.pos v
    | none => fail t.pos (.integerRange t.value)
  | .double =>
    match Double.ofLiteral? t.value with
    | some v => return .double t.pos v
    | none => fail t.pos (.doubleRange t.value)
  | .keyword .trueWord => return .bool t.pos true
  | .keyword .falseWord => return .bool t.pos false
  | .string =>
    match Text.unescape t.value with
    | some v => return .string t.pos v
    | none => fail t.pos .malformedString
  | .ident =>
    if ← got (.punct .lparen) then return .call t.pos t.value (← arguments expr n)
    else return .ident t.pos t.value
  | .punct .lparen =>
    let e ← expr
    let _ ← expect (.punct .rparen)
    return e
  | .keyword .newWord =>
    let elem ← type
    let sizes ← sizes expr n
    if sizes.isEmpty then fail (← peek).pos (.missingSize elem)
    else return .new t.pos elem sizes
  | _ => fail t.pos (.unexpected t)

/-- An index or a member. -/
def suffix (expr : Parser Expr) : Parser (Option Suffix) := do
  let t ← peek
  match t.kind with
  | .punct .lbracket =>
    let _ ← next
    let i ← expr
    let _ ← expect (.punct .rbracket)
    return some (.index t.pos i)
  | .punct .dot =>
    let _ ← next
    let m ← expect .ident
    return some (.member t.pos m.value)
  | _ => return none

def operand (expr : Parser Expr) (n : Nat) : Parser Expr := do
  let x ← primary expr n
  let suffixes ← many (suffix expr) n
  return suffixes.foldl Suffix.apply x

def sign : Parser (Option (Pos × UnOp)) := do
  let t ← peek
  match unOp? t.kind with
  | none => return none
  | some op =>
    let _ ← next
    return some (t.pos, op)

def signed (expr : Parser Expr) (n : Nat) : Parser Expr := do
  let signs ← many sign n
  let x ← operand expr n
  return signs.foldr (fun s x => .unary s.1 s.2 x) x

/-- An operator that `op?` knows, and what stands behind it. -/
structure Link where
  pos : Pos
  op : BinOp
  right : Expr

def link (op? : TokenKind → Option BinOp) (part : Parser Expr) : Parser (Option Link) := do
  let t ← peek
  match op? t.kind with
  | none => return none
  | some op =>
    let _ ← next
    return some ⟨t.pos, op, ← part⟩

def nestLeft (x : Expr) (links : List Link) : Expr :=
  links.foldl (fun x l => .binary l.pos l.op x l.right) x

def nestRight (x : Expr) : List Link → Expr
  | [] => x
  | l :: rest => .binary l.pos l.op x (nestRight l.right rest)

/-- Parts with operators between them. -/
def chain (op? : TokenKind → Option BinOp) (nest : Expr → List Link → Expr) (part : Parser Expr)
    (n : Nat) : Parser Expr := do
  let x ← part
  let links ← many (link op? part) n
  return nest x links

def product (expr : Parser Expr) (n : Nat) : Parser Expr :=
  chain mulOp? nestLeft (signed expr n) n

def sum (expr : Parser Expr) (n : Nat) : Parser Expr :=
  chain addOp? nestLeft (product expr n) n

/-- At most one comparison. -/
def comparison (expr : Parser Expr) (n : Nat) : Parser Expr :=
  chain relOp? nestLeft (sum expr n) 1

def conjunction (expr : Parser Expr) (n : Nat) : Parser Expr :=
  chain andOp? nestRight (comparison expr n) n

def disjunction (expr : Parser Expr) (n : Nat) : Parser Expr :=
  chain orOp? nestRight (conjunction expr n) n

/-- An expression of nesting depth at most `n`. -/
def expr : Nat → Parser Expr
  | 0 => do
    let t ← peek
    fail t.pos (.unexpected t)
  | n + 1 => disjunction (expr n) n

/-! ## Statements -/

def declItem (n : Nat) : Parser DeclItem := do
  let name ← expect .ident
  if ← got (.punct .assign) then return ⟨name.pos, name.value, some (← expr n)⟩
  else return ⟨name.pos, name.value, none⟩

def declaration (n : Nat) : Parser Stmt := do
  let start ← peek
  let t ← type
  let first ← declItem n
  let rest ← many (do
    if ← got (.punct .comma) then return some (← declItem n) else return none) n
  let _ ← expect (.punct .semicolon)
  return .decl start.pos t (first :: rest)

def condition (n : Nat) : Parser Expr := do
  let _ ← expect (.punct .lparen)
  let e ← expr n
  let _ ← expect (.punct .rparen)
  return e

/-- The statements of a block and its closing brace. -/
def statements (stmt : Parser Stmt) (n : Nat) : Parser (List Stmt) :=
  many (do
    if ← got (.punct .rbrace) then return none
    let t ← peek
    if t.kind = .eof then fail t.pos .unclosedBlock else return some (← stmt)) n

/-- A block: the place of its opening brace, and its statements. -/
def block (stmt : Parser Stmt) (n : Nat) : Parser (Pos × List Stmt) := do
  let brace ← expect (.punct .lbrace)
  return (brace.pos, ← statements stmt n)

def isAssignable : Expr → Bool
  | .ident .. | .index .. => true
  | _ => false

/-- What follows the expression `e` that starts a statement at `p`, up to the
semicolon. -/
def simpleTail (p : Pos) (e : Expr) (n : Nat) : Parser Stmt := do
  let op ← peek
  match op.kind with
  | .punct .assign =>
    if isAssignable e then
      let _ ← next
      return .assign p e (← expr n)
    else fail op.pos .notAssignable
  | .punct .inc | .punct .dec =>
    match e with
    | .ident _ name =>
      let _ ← next
      return .incr p name (op.kind = .punct .dec)
    | _ => fail op.pos (.notVariable op.value)
  | _ => return .expr p e

def returning (n : Nat) : Parser Stmt := do
  let t ← next
  if ← got (.punct .semicolon) then return .retVoid t.pos
  let e ← expr n
  let _ ← expect (.punct .semicolon)
  return .ret t.pos e

/-- A condition with one or two branches; an alternative belongs to the nearest
condition. -/
def conditional (stmt : Parser Stmt) (n : Nat) : Parser Stmt := do
  let t ← next
  let c ← condition n
  let yes ← stmt
  if ← got (.keyword .elseWord) then return .ifElse t.pos c yes (← stmt)
  else return .ifThen t.pos c yes

def whileLoop (stmt : Parser Stmt) (n : Nat) : Parser Stmt := do
  let t ← next
  let c ← condition n
  return .while t.pos c (← stmt)

def forLoop (stmt : Parser Stmt) (n : Nat) : Parser Stmt := do
  let t ← next
  let _ ← expect (.punct .lparen)
  let elem ← type
  let name ← expect .ident
  let _ ← expect (.punct .colon)
  let array ← expr n
  let _ ← expect (.punct .rparen)
  return .forEach t.pos elem name.value array (← stmt)

/-- An assignment, a count or a call. -/
def simple (n : Nat) : Parser Stmt := do
  let t ← peek
  let e ← expr n
  let s ← simpleTail t.pos e n
  let _ ← expect (.punct .semicolon)
  return s

/-- A statement of nesting depth at most `n`. -/
def stmt : Nat → Parser Stmt
  | 0 => do
    let t ← peek
    fail t.pos (.unexpected t)
  | n + 1 => do
    let t ← peek
    match t.kind with
    | .punct .semicolon =>
      let _ ← next
      return .empty t.pos
    | .punct .lbrace =>
      let (p, body) ← block (stmt n) n
      return .block p body
    | .keyword .returnWord => returning n
    | .keyword .ifWord => conditional (stmt n) n
    | .keyword .whileWord => whileLoop (stmt n) n
    | .keyword .forWord => forLoop (stmt n) n
    | kind => if (base? kind).isSome then declaration n else simple n

/-! ## Programs -/

def param : Parser Param := do
  let start ← peek
  let t ← type
  let name ← expect .ident
  return ⟨start.pos, t, name.value⟩

/-- The parameters of a function behind the opening parenthesis, and the closing
one. -/
def parameters (n : Nat) : Parser (List Param) := do
  if ← got (.punct .rparen) then return []
  let first ← param
  let rest ← many (do
    if ← got (.punct .rparen) then return none
    let _ ← expect (.punct .comma)
    return some (← param)) n
  return first :: rest

def function (n : Nat) : Parser FuncDef := do
  let start ← peek
  let ret ← type
  let name ← expect .ident
  let _ ← expect (.punct .lparen)
  let params ← parameters n
  let (bodyPos, body) ← block (stmt n) n
  return ⟨start.pos, name.value, ret, params, bodyPos, body⟩

/-- Functions up to the end of the file. -/
def program (n : Nat) : Parser Program := do
  let fs ← many (do
    if (← peek).kind = .eof then return none else return some (← function n)) n
  return ⟨fs⟩

end Parser

inductive SourceError where
  | lexical (e : LexError)
  | grammatical (e : SyntaxError)

def SourceError.message : SourceError → Text
  | .lexical e => e.message
  | .grammatical e => e.message

namespace Program

def ofTokens (ts : List Token) : Except SyntaxError Program :=
  match Parser.program ts.length ts with
  | .ok (p, _) => .ok p
  | .error e => .error e

def parse (src : Text) : Except SourceError Program :=
  match Lexer.tokens src with
  | .error e => .error (.lexical e)
  | .ok ts =>
    match ofTokens ts with
    | .error e => .error (.grammatical e)
    | .ok p => .ok p

end Program

end ImpCompiler
