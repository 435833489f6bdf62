import ImpCompiler.Text.Quoted
import ImpCompiler.Text.Columns

/-!
# Token — the words of the source language

A token has a kind, a value and the place where it starts. Its value is the text it
was read from, except that a string literal's value lacks the quotes around it;
`Token.spelling` gives the text back. The list of the tokens of a source ends with
one token of kind `eof`.
-/

namespace ImpCompiler

set_option autoImplicit false

inductive Keyword where
  | intWord | doubleWord | booleanWord | voidWord | trueWord | falseWord
  | ifWord | elseWord | whileWord | forWord | returnWord | newWord
  deriving DecidableEq, Repr

namespace Keyword

def all : List Keyword :=
  [.intWord, .doubleWord, .booleanWord, .voidWord, .trueWord, .falseWord,
   .ifWord, .elseWord, .whileWord, .forWord, .returnWord, .newWord]

def spelling : Keyword → Text
  | .intWord => "int"
  | .doubleWord => "double"
  | .booleanWord => "boolean"
  | .voidWord => "void"
  | .trueWord => "true"
  | .falseWord => "false"
  | .ifWord => "if"
  | .elseWord => "else"
  | .whileWord => "while"
  | .forWord => "for"
  | .returnWord => "return"
  | .newWord => "new"

def name : Keyword → Text
  | .intWord => "INT"
  | .doubleWord => "DOUBLE_TYPE"
  | .booleanWord => "BOOLEAN"
  | .voidWord => "VOID"
  | .trueWord => "TRUE"
  | .falseWord => "FALSE"
  | .ifWord => "IF"
  | .elseWord => "ELSE"
  | .whileWord => "WHILE"
  | .forWord => "FOR"
  | .returnWord => "RETURN"
  | .newWord => "NEW"

def ofText? (t : Text) : Option Keyword := all.find? fun k => k.spelling == t

end Keyword

inductive Punct where
  | lparen | rparen | lbrace | rbrace | lbracket | rbracket
  | semicolon | comma | dot | colon
  | assign | less | greater | bang | plus | minus | star | slash | percent
  | eq | ne | le | ge | and | or | inc | dec
  deriving DecidableEq, Repr

namespace Punct

def singles : List Punct :=
  [.lparen, .rparen, .lbrace, .rbrace, .lbracket, .rbracket, .semicolon, .comma, .dot, .colon,
   .assign, .less, .greater, .bang, .plus, .minus, .star, .slash, .percent]

def doubles : List Punct := [.eq, .ne, .le, .ge, .and, .or, .inc, .dec]

def spelling : Punct → Text
  | .lparen => "("
  | .rparen => ")"
  | .lbrace => "\x7b"
  | .rbrace => "\x7d"
  | .lbracket => "["
  | .rbracket => "]"
  | .semicolon => ";"
  | .comma => ","
  | .dot => "."
  | .colon => ":"
  | .assign => "="
  | .less => "<"
  | .greater => ">"
  | .bang => "!"
  | .plus => "+"
  | .minus => "-"
  | .star => "*"
  | .slash => "/"
  | .percent => "%"
  | .eq => "=="
  | .ne => "!="
  | .le => "<="
  | .ge => ">="
  | .and => "&&"
  | .or => "||"
  | .inc => "++"
  | .dec => "--"

def name (p : Punct) : Text :=
  match p with
  | .eq => "EQ"
  | .ne => "NE"
  | .le => "LE"
  | .ge => "GE"
  | .and => "AND"
  | .or => "OR"
  | .inc => "INC"
  | .dec => "DEC"
  | _ => "\x27" ++ p.spelling ++ "\x27"

def single? (b : UInt8) : Option Punct := singles.find? fun p => p.spelling == [b]

def double? (b c : UInt8) : Option Punct := doubles.find? fun p => p.spelling == [b, c]

end Punct

inductive TokenKind where
  | eof | error | ident | integer | double | string
  | keyword (k : Keyword)
  | punct (p : Punct)
  deriving DecidableEq, Repr

namespace TokenKind

def name : TokenKind → Text
  | .eof => "EOF"
  | .error => "ERROR"
  | .ident => "IDENTIFIER"
  | .integer => "INTEGER"
  | .double => "DOUBLE"
  | .string => "STRING"
  | .keyword k => k.name
  | .punct p => p.name

/-- A word is a reserved word or else an identifier. -/
def ofWord (t : Text) : TokenKind :=
  match Keyword.ofText? t with
  | some k => .keyword k
  | none => .ident

/-- The value of a token of this kind that was read from `taken`. -/
def value (k : TokenKind) (taken : Text) : Text :=
  if k = .string then taken.tail.dropLast else taken

end TokenKind

structure Token where
  kind : TokenKind
  value : Text
  pos : Pos
  deriving DecidableEq, Repr

namespace Token

def spelling (t : Token) : Text :=
  if t.kind = .string then "\"" ++ t.value ++ "\"" else t.value

/-- A value in quotes; one of more than `most` bytes is cut to `shown` code points. -/
def shorten (most shown : Nat) (value : Text) : Text :=
  if most < value.length then Text.quoteUpTo shown value ++ "..." else Text.quote value

def text (t : Token) : Text :=
  match t.kind with
  | .eof => "EOF"
  | .error => t.value ++ " [ERROR]"
  | _ => shorten 10 10 t.value ++ " (line " ++ t.pos.text ++ ")"

def row (t : Token) : Text.Row :=
  ⟨[shorten 20 17 t.value, t.kind.name], "line: " ++ t.pos.text⟩

/-- The listing of tokens up to the end of the source. -/
def listing (ts : List Token) : Text :=
  Text.table ⟨10, 2⟩
    (⟨["Value", "Type"], "Position"⟩ :: (ts.takeWhile fun t => t.kind != .eof).map row)

end Token

end ImpCompiler
