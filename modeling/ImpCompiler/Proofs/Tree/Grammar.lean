import ImpCompiler.Decimal.Nearest
import ImpCompiler.Token
import ImpCompiler.Tree

/-!
# Proofs.Tree.Grammar — the grammar of programs

A phrase is a derivation in the grammar, with tokens as its leaves. It has a `yield`, its
tokens from left to right, and a `tree`, which is what it stands for. In the tree a node
has the place of one token of its phrase: the operator of a unary or binary expression, the
bracket of an index, the dot of a member, and the first token of anything else.

    program  ::= {function}
    function ::= type ident '(' [type ident {',' type ident}] ')' block
    type     ::= ('int' | 'double' | 'boolean' | 'void') {'[' ']'}
    block    ::= '{' {stmt} '}'
    stmt     ::= ';' | block | type item {',' item} ';' | 'return' [expr] ';'
               | 'if' '(' expr ')' stmt ['else' stmt] | 'while' '(' expr ')' stmt
               | 'for' '(' type ident ':' expr ')' stmt
               | expr ['=' expr | '++' | '--'] ';'
    item     ::= ident ['=' expr]

An expression is made of levels of operators, from loose to tight (`Level`). Three rules are
not in the productions and are kept by the types of phrases: an alternative belongs to the
nearest condition, comparisons do not chain, and the sizes of an array construction are all
the brackets behind its type.
-/

namespace ImpCompiler.Grammar

set_option autoImplicit false

/-! ## Tokens -/

@[ext]
structure Tok (k : TokenKind) where
  token : Token
  kind : token.kind = k

abbrev Mark (p : Punct) : Type := Tok (.punct p)

abbrev Word (k : Keyword) : Type := Tok (.keyword k)

namespace Tok

variable {k : TokenKind}

def pos (t : Tok k) : Pos := t.token.pos

def value (t : Tok k) : Text := t.token.value

end Tok

def startOf : List Token → Pos
  | t :: _ => t.pos
  | [] => Pos.unknown

/-- The number that decimal digits stand for. -/
inductive Numeral : Text → Nat → Prop
  | digit {b : UInt8} : 0x30 ≤ b → b ≤ 0x39 → Numeral [b] (b.toNat - 0x30)
  | more {t : Text} {n : Nat} {b : UInt8} : Numeral t n → 0x30 ≤ b → b ≤ 0x39 →
      Numeral (t ++ [b]) (n * 10 + (b.toNat - 0x30))

/-- The number that decimal digits stand for, with or without a sign before them. -/
inductive Integer : Text → Int → Prop
  | plain {t : Text} {n : Nat} : Numeral t n → Integer t n
  | plus {t : Text} {n : Nat} : Numeral t n → Integer (0x2b :: t) n
  | minus {t : Text} {n : Nat} : Numeral t n → Integer (0x2d :: t) (-n)

/-- The tokens that are expressions by themselves. An integer has to be in the range of 64
bits. -/
inductive Literal : Token → Expr → Prop
  | integer {t : Token} {v : Int64} : t.kind = .integer → Integer t.value v.toInt →
      Literal t (.int t.pos v)
  | double {t : Token} {v : Double} : t.kind = .double → Double.ofLiteral? t.value = some v →
      Literal t (.double t.pos v)
  | yes {t : Token} : t.kind = .keyword .trueWord → Literal t (.bool t.pos true)
  | no {t : Token} : t.kind = .keyword .falseWord → Literal t (.bool t.pos false)
  | string {t : Token} {v : Text} : t.kind = .string → Text.unescape t.value = some v →
      Literal t (.string t.pos v)

/-! ## Types -/

inductive BaseWord : TokenKind → Base → Prop
  | int : BaseWord (.keyword .intWord) .int
  | double : BaseWord (.keyword .doubleWord) .double
  | boolean : BaseWord (.keyword .booleanWord) .boolean
  | void : BaseWord (.keyword .voidWord) .void

/-- A base type and any number of `[]` pairs. -/
structure TypePhrase where
  word : Token
  base : Base
  names : BaseWord word.kind base
  pairs : List (Mark .lbracket × Mark .rbracket)

namespace TypePhrase

def yieldPairs (ps : List (Mark .lbracket × Mark .rbracket)) : List Token :=
  ps.flatMap fun p => [p.1.token, p.2.token]

def yield (t : TypePhrase) : List Token := t.word :: yieldPairs t.pairs

def tree (t : TypePhrase) : Ty := ⟨t.base, t.pairs.length⟩

end TypePhrase

/-! ## Expressions -/

/-- The levels of binary operators, from loose to tight. -/
inductive Level where
  | disjunction | conjunction | comparison | sum | product

/-- How operators of one level nest. -/
inductive Side where
  | left | right | neither
  deriving DecidableEq

namespace Level

def side : Level → Side
  | .disjunction | .conjunction => .right
  | .comparison => .neither
  | .sum | .product => .left

/-- What stands between the operators of a level: the next level, or else an operand with
its signs. -/
def tighter : Level → Option Level
  | .disjunction => some .conjunction
  | .conjunction => some .comparison
  | .comparison => some .sum
  | .sum => some .product
  | .product => none

/-- Whether there may be more than one operator of the level in a row. -/
def chains (l : Level) : Bool := l.side != .neither

end Level

inductive Operator : Level → TokenKind → BinOp → Prop
  | or : Operator .disjunction (.punct .or) .or
  | and : Operator .conjunction (.punct .and) .and
  | lt : Operator .comparison (.punct .less) .lt
  | le : Operator .comparison (.punct .le) .le
  | gt : Operator .comparison (.punct .greater) .gt
  | ge : Operator .comparison (.punct .ge) .ge
  | eq : Operator .comparison (.punct .eq) .eq
  | ne : Operator .comparison (.punct .ne) .ne
  | add : Operator .sum (.punct .plus) .add
  | sub : Operator .sum (.punct .minus) .sub
  | mul : Operator .product (.punct .star) .mul
  | div : Operator .product (.punct .slash) .div
  | mod : Operator .product (.punct .percent) .mod

inductive Sign : TokenKind → UnOp → Prop
  | neg : Sign (.punct .minus) .neg
  | not : Sign (.punct .bang) .not

/-- The symbols of the grammar of expressions. -/
inductive Sym where
  /-- The operators of a level and what stands between them; without a level, an operand
  with its signs. -/
  | level (l : Option Level)
  /-- Operators of a level, each with what stands behind it; none, unless there may be some. -/
  | links (l : Level) (linked : Bool)
  | operand
  /-- Indices and members; no index comes first, unless it may. -/
  | suffixes (indexed : Bool)
  | primary
  /-- The arguments of a call up to its closing parenthesis. -/
  | args
  | moreArgs
  /-- The sizes of an array construction. -/
  | sizes

/-- What a phrase stands for. Operators and suffixes stand for what they make of the
expression before them. -/
abbrev Sym.Tree : Sym → Type
  | .level _ | .operand | .primary => Expr
  | .links _ _ | .suffixes _ => Expr → Expr
  | .args | .moreArgs | .sizes => List Expr

abbrev Sym.expr : Sym := .level (some .disjunction)

/-- The derivations from a symbol. -/
inductive Phrase : Sym → Type
  | chain {l : Level} (x : Phrase (.level l.tighter)) (more : Phrase (.links l true)) :
      Phrase (.level (some l))
  | noLinks {l : Level} {linked : Bool} : Phrase (.links l linked)
  | link {l : Level} (t : Token) (op : BinOp) (known : Operator l t.kind op)
      (y : Phrase (.level l.tighter)) (more : Phrase (.links l l.chains)) : Phrase (.links l true)
  | unsigned (x : Phrase .operand) : Phrase (.level none)
  | signed (t : Token) (op : UnOp) (known : Sign t.kind op) (x : Phrase (.level none)) :
      Phrase (.level none)
  | operand (x : Phrase .primary) (more : Phrase (.suffixes true)) : Phrase .operand
  | creation (word : Word .newWord) (elem : TypePhrase) (sizes : Phrase .sizes)
      (more : Phrase (.suffixes false)) : Phrase .operand
  | noSuffix {indexed : Bool} : Phrase (.suffixes indexed)
  | index (opening : Mark .lbracket) (i : Phrase .expr) (closing : Mark .rbracket)
      (more : Phrase (.suffixes true)) : Phrase (.suffixes true)
  | member {indexed : Bool} (dot : Mark .dot) (name : Tok .ident) (more : Phrase (.suffixes true)) :
      Phrase (.suffixes indexed)
  | literal (t : Token) (e : Expr) (known : Literal t e) : Phrase .primary
  | var (name : Tok .ident) : Phrase .primary
  | call (name : Tok .ident) (opening : Mark .lparen) (args : Phrase .args) : Phrase .primary
  | paren (opening : Mark .lparen) (x : Phrase .expr) (closing : Mark .rparen) : Phrase .primary
  | noArgs (closing : Mark .rparen) : Phrase .args
  | firstArg (x : Phrase .expr) (more : Phrase .moreArgs) : Phrase .args
  | lastArg (closing : Mark .rparen) : Phrase .moreArgs
  | nextArg (comma : Mark .comma) (x : Phrase .expr) (more : Phrase .moreArgs) : Phrase .moreArgs
  | lastSize (opening : Mark .lbracket) (x : Phrase .expr) (closing : Mark .rbracket) :
      Phrase .sizes
  | nextSize (opening : Mark .lbracket) (x : Phrase .expr) (closing : Mark .rbracket)
      (more : Phrase .sizes) : Phrase .sizes

namespace Phrase

@[simp]
def yield : {s : Sym} → Phrase s → List Token
  | _, .chain x more => x.yield ++ more.yield
  | _, .noLinks => []
  | _, .link t _ _ y more => t :: (y.yield ++ more.yield)
  | _, .unsigned x => x.yield
  | _, .signed t _ _ x => t :: x.yield
  | _, .operand x more => x.yield ++ more.yield
  | _, .creation word elem sizes more =>
    word.token :: (elem.yield ++ (sizes.yield ++ more.yield))
  | _, .noSuffix => []
  | _, .index opening i closing more =>
    opening.token :: (i.yield ++ closing.token :: more.yield)
  | _, .member dot name more => dot.token :: name.token :: more.yield
  | _, .literal t _ _ => [t]
  | _, .var name => [name.token]
  | _, .call name opening args => name.token :: opening.token :: args.yield
  | _, .paren opening x closing => opening.token :: (x.yield ++ [closing.token])
  | _, .noArgs closing => [closing.token]
  | _, .firstArg x more => x.yield ++ more.yield
  | _, .lastArg closing => [closing.token]
  | _, .nextArg comma x more => comma.token :: (x.yield ++ more.yield)
  | _, .lastSize opening x closing => opening.token :: (x.yield ++ [closing.token])
  | _, .nextSize opening x closing more =>
    opening.token :: (x.yield ++ closing.token :: more.yield)

@[simp]
def tree : {s : Sym} → Phrase s → s.Tree
  | _, .chain x more => more.tree x.tree
  | _, .noLinks => fun x => x
  | _, @link l t op _ y more => fun x =>
    match l.side with
    | .right => .binary t.pos op x (more.tree y.tree)
    | .left | .neither => more.tree (.binary t.pos op x y.tree)
  | _, .unsigned x => x.tree
  | _, .signed t op _ x => .unary t.pos op x.tree
  | _, .operand x more => more.tree x.tree
  | _, .creation word elem sizes more => more.tree (.new word.pos elem.tree sizes.tree)
  | _, .noSuffix => fun x => x
  | _, .index opening i _ more => fun x => more.tree (.index opening.pos x i.tree)
  | _, .member dot name more => fun x => more.tree (.length dot.pos x name.value)
  | _, .literal _ e _ => e
  | _, .var name => .ident name.pos name.value
  | _, .call name _ args => .call name.pos name.value args.tree
  | _, .paren _ x _ => x.tree
  | _, .noArgs _ => []
  | _, .firstArg x more => x.tree :: more.tree
  | _, .lastArg _ => []
  | _, .nextArg _ x more => x.tree :: more.tree
  | _, .lastSize _ x _ => [x.tree]
  | _, .nextSize _ x _ more => x.tree :: more.tree

end Phrase

/-! ## Statements -/

/-- One phrase or more, with commas between them. -/
structure Listed (α : Type) where
  first : α
  more : List (Mark .comma × α)

namespace Listed

variable {α β : Type}

def yieldMore (yield : α → List Token) (more : List (Mark .comma × α)) : List Token :=
  more.flatMap fun p => p.1.token :: yield p.2

def yield (yield : α → List Token) (xs : Listed α) : List Token :=
  yield xs.first ++ yieldMore yield xs.more

def tree (tree : α → β) (xs : Listed α) : List β := tree xs.first :: xs.more.map fun p => tree p.2

end Listed

/-- One name of a declaration, with the expression it starts with. -/
structure ItemPhrase where
  name : Tok .ident
  init : Option (Mark .assign × Phrase .expr)

namespace ItemPhrase

def yield (i : ItemPhrase) : List Token :=
  i.name.token :: match i.init with
    | none => []
    | some (mark, x) => mark.token :: x.yield

def tree (i : ItemPhrase) : DeclItem := ⟨i.name.pos, i.name.value, i.init.map fun p => p.2.tree⟩

end ItemPhrase

structure Condition where
  opening : Mark .lparen
  x : Phrase .expr
  closing : Mark .rparen

def Condition.yield (c : Condition) : List Token :=
  c.opening.token :: (c.x.yield ++ [c.closing.token])

/-- The expressions that a value can be assigned to. -/
inductive Target : Expr → Prop
  | ident {p : Pos} {name : Text} : Target (.ident p name)
  | index {p : Pos} {x i : Expr} : Target (.index p x i)

inductive Counter : TokenKind → Bool → Prop
  | inc : Counter (.punct .inc) false
  | dec : Counter (.punct .dec) true

/-- What may follow the expression `e` at the start of a statement. -/
inductive Tail (e : Expr) where
  | assign (target : Target e) (mark : Mark .assign) (value : Phrase .expr)
  | count (p : Pos) (name : Text) (is : e = .ident p name) (mark : Token) (down : Bool)
      (known : Counter mark.kind down)
  | none

namespace Tail

variable {e : Expr}

def yield : Tail e → List Token
  | .assign _ mark value => mark.token :: value.yield
  | .count _ _ _ mark _ _ => [mark]
  | .none => []

/-- The statement of `e` and its tail that starts at `p`. -/
def tree (p : Pos) : Tail e → Stmt
  | .assign _ _ value => .assign p e value.tree
  | .count _ name _ _ down _ => .incr p name down
  | .none => .expr p e

end Tail

inductive StmtSym where
  /-- A statement; it is hanging if an alternative behind it would be part of it. -/
  | stmt (hanging : Bool)
  /-- The statements of a block up to its closing brace. -/
  | body

abbrev StmtSym.Tree : StmtSym → Type
  | .stmt _ => Stmt
  | .body => List Stmt

/-- The derivations of statements. The first branch of two is not hanging, so an alternative
belongs to the nearest condition. -/
inductive StmtPhrase : StmtSym → Type
  | empty (mark : Mark .semicolon) : StmtPhrase (.stmt false)
  | block (opening : Mark .lbrace) (body : StmtPhrase .body) : StmtPhrase (.stmt false)
  | decl (type : TypePhrase) (items : Listed ItemPhrase) (mark : Mark .semicolon) :
      StmtPhrase (.stmt false)
  | ret (word : Word .returnWord) (value : Option (Phrase .expr)) (mark : Mark .semicolon) :
      StmtPhrase (.stmt false)
  | ifThen {hanging : Bool} (word : Word .ifWord) (cond : Condition)
      (yes : StmtPhrase (.stmt hanging)) : StmtPhrase (.stmt true)
  | ifElse {hanging : Bool} (word : Word .ifWord) (cond : Condition)
      (yes : StmtPhrase (.stmt false)) (alternative : Word .elseWord)
      (no : StmtPhrase (.stmt hanging)) : StmtPhrase (.stmt hanging)
  | while {hanging : Bool} (word : Word .whileWord) (cond : Condition)
      (body : StmtPhrase (.stmt hanging)) : StmtPhrase (.stmt hanging)
  | forEach {hanging : Bool} (word : Word .forWord) (opening : Mark .lparen) (elem : TypePhrase)
      (name : Tok .ident) (colon : Mark .colon) (array : Phrase .expr) (closing : Mark .rparen)
      (body : StmtPhrase (.stmt hanging)) : StmtPhrase (.stmt hanging)
  | simple (x : Phrase .expr) (tail : Tail x.tree) (mark : Mark .semicolon) :
      StmtPhrase (.stmt false)
  | closed (closing : Mark .rbrace) : StmtPhrase .body
  | inner {hanging : Bool} (s : StmtPhrase (.stmt hanging)) (rest : StmtPhrase .body) :
      StmtPhrase .body

namespace StmtPhrase

def yieldValue : Option (Phrase .expr) → List Token
  | none => []
  | some x => x.yield

def treeValue (p : Pos) : Option (Phrase .expr) → Stmt
  | none => .retVoid p
  | some x => .ret p x.tree

@[simp]
def yield : {s : StmtSym} → StmtPhrase s → List Token
  | _, .empty mark => [mark.token]
  | _, .block opening body => opening.token :: body.yield
  | _, .decl type items mark => type.yield ++ (items.yield ItemPhrase.yield ++ [mark.token])
  | _, .ret word value mark => word.token :: (yieldValue value ++ [mark.token])
  | _, .ifThen word cond yes => word.token :: (cond.yield ++ yes.yield)
  | _, .ifElse word cond yes alternative no =>
    word.token :: (cond.yield ++ (yes.yield ++ alternative.token :: no.yield))
  | _, .while word cond body => word.token :: (cond.yield ++ body.yield)
  | _, .forEach word opening elem name colon array closing body =>
    word.token :: opening.token :: (elem.yield ++
      name.token :: colon.token :: (array.yield ++ closing.token :: body.yield))
  | _, .simple x tail mark => x.yield ++ (tail.yield ++ [mark.token])
  | _, .closed closing => [closing.token]
  | _, .inner s rest => s.yield ++ rest.yield

@[simp]
def tree : {s : StmtSym} → StmtPhrase s → s.Tree
  | _, .empty mark => Stmt.empty mark.pos
  | _, .block opening body => Stmt.block opening.pos body.tree
  | _, .decl type items _ => Stmt.decl type.word.pos type.tree (items.tree ItemPhrase.tree)
  | _, .ret word value _ => treeValue word.pos value
  | _, .ifThen word cond yes => Stmt.ifThen word.pos cond.x.tree yes.tree
  | _, .ifElse word cond yes _ no => Stmt.ifElse word.pos cond.x.tree yes.tree no.tree
  | _, .while word cond body => Stmt.while word.pos cond.x.tree body.tree
  | _, .forEach word _ elem name _ array _ body =>
    Stmt.forEach word.pos elem.tree name.value array.tree body.tree
  | _, .simple x tail _ => tail.tree (startOf x.yield)
  | _, .closed _ => []
  | _, .inner s rest => s.tree :: rest.tree

end StmtPhrase

/-! ## Programs -/

structure ParamPhrase where
  type : TypePhrase
  name : Tok .ident

namespace ParamPhrase

def yield (q : ParamPhrase) : List Token := q.type.yield ++ [q.name.token]

def tree (q : ParamPhrase) : Param := ⟨q.type.word.pos, q.type.tree, q.name.value⟩

end ParamPhrase

structure FunctionPhrase where
  ret : TypePhrase
  name : Tok .ident
  opening : Mark .lparen
  params : Option (Listed ParamPhrase)
  closing : Mark .rparen
  brace : Mark .lbrace
  body : StmtPhrase .body

namespace FunctionPhrase

def yieldParams : Option (Listed ParamPhrase) → List Token
  | none => []
  | some qs => qs.yield ParamPhrase.yield

def treeParams : Option (Listed ParamPhrase) → List Param
  | none => []
  | some qs => qs.tree ParamPhrase.tree

def yield (f : FunctionPhrase) : List Token :=
  f.ret.yield ++ f.name.token :: f.opening.token ::
    (yieldParams f.params ++ f.closing.token :: f.brace.token :: f.body.yield)

def tree (f : FunctionPhrase) : FuncDef :=
  ⟨f.ret.word.pos, f.name.value, f.ret.tree, treeParams f.params, f.brace.pos, f.body.tree⟩

end FunctionPhrase

abbrev ProgramPhrase : Type := List FunctionPhrase

namespace ProgramPhrase

def yield (p : ProgramPhrase) : List Token := p.flatMap FunctionPhrase.yield

def tree (p : ProgramPhrase) : Program := ⟨p.map FunctionPhrase.tree⟩

end ProgramPhrase

end ImpCompiler.Grammar
