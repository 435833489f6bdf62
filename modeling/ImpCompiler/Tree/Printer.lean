import ImpCompiler.Decimal.Layout
import ImpCompiler.Text.Quoted
import ImpCompiler.Tree

/-!
# Tree.Printer — the listing of a tree

One line a node, indented by two blanks a level, children below their parent. An
annotated expression shows its type behind its own line; of nested annotations the
outermost is shown.
-/

namespace ImpCompiler

set_option autoImplicit false

/-- A line of a listing and the level it is on. -/
structure Line where
  depth : Nat
  content : Text
  deriving DecidableEq, Repr

def Line.text (l : Line) : Text := Text.blanks (2 * l.depth) ++ l.content ++ "\n"

/-- One line at depth `d`. -/
def indented (d : Nat) (content : Text) : List Line := [⟨d, content⟩]

namespace Expr

def typeSuffix (note : Option Ty) : Text :=
  match note with
  | some t => " : " ++ t.text
  | none => []

mutual

/-- The lines of an expression at depth `d`, inside the annotation `note`. -/
def lines (d : Nat) (note : Option Ty) : Expr → List Line
  | .typed x t => lines d (note.or (some t)) x
  | .int _ v => indented d ("INTEGER " ++ Text.ofInt v.toInt ++ typeSuffix note)
  | .double _ v => indented d ("DOUBLE " ++ v.text ++ typeSuffix note)
  | .bool _ v =>
    indented d ("BOOLEAN " ++ (if v then "true" else "false" : Text) ++ typeSuffix note)
  | .string _ v => indented d ("STRING " ++ Text.quote v ++ typeSuffix note)
  | .ident _ n => indented d ("IDENTIFIER " ++ n ++ typeSuffix note)
  | .unary _ op x => indented d ("UNARY " ++ op.text ++ typeSuffix note) ++ lines (d + 1) none x
  | .binary _ op x y =>
    indented d ("BINARY " ++ op.text ++ typeSuffix note) ++ lines (d + 1) none x
      ++ lines (d + 1) none y
  | .call _ n args => indented d ("CALL " ++ n ++ typeSuffix note) ++ linesOfList (d + 1) args
  | .index _ x i =>
    indented d ("INDEX" ++ typeSuffix note) ++ lines (d + 1) none x ++ lines (d + 1) none i
  | .new _ t sizes => indented d ("NEW " ++ t.text ++ typeSuffix note) ++ linesOfList (d + 1) sizes
  | .length _ x m => indented d ("MEMBER " ++ m ++ typeSuffix note) ++ lines (d + 1) none x

def linesOfList (d : Nat) : List Expr → List Line
  | [] => []
  | e :: rest => lines d none e ++ linesOfList d rest

end

end Expr

namespace DeclItem

def lines (d : Nat) (i : DeclItem) : List Line :=
  indented d i.name ++ match i.init with
    | some e => e.lines (d + 1) none
    | none => []

end DeclItem

namespace Stmt

mutual

def lines (d : Nat) : Stmt → List Line
  | .block _ body => indented d "BLOCK" ++ linesOfList (d + 1) body
  | .decl _ t items =>
    indented d ("DECLARATION " ++ t.text) ++ items.flatMap (DeclItem.lines (d + 1))
  | .assign _ target value =>
    indented d "ASSIGNMENT" ++ target.lines (d + 1) none ++ value.lines (d + 1) none
  | .incr _ n decrement =>
    indented d ((if decrement then "DECREMENT " else "INCREMENT " : Text) ++ n)
  | .ifThen _ c yes => indented d "IF" ++ c.lines (d + 1) none ++ lines (d + 1) yes
  | .ifElse _ c yes no =>
    indented d "IF_ELSE" ++ c.lines (d + 1) none ++ lines (d + 1) yes ++ lines (d + 1) no
  | .while _ c body => indented d "WHILE" ++ c.lines (d + 1) none ++ lines (d + 1) body
  | .forEach _ t n array body =>
    indented d ("FOR " ++ t.text ++ " " ++ n) ++ array.lines (d + 1) none ++ lines (d + 1) body
  | .ret _ v => indented d "RETURN" ++ v.lines (d + 1) none
  | .retVoid _ => indented d "RETURN"
  | .expr _ e => indented d "EXPRESSION_STATEMENT" ++ e.lines (d + 1) none
  | .empty _ => indented d "EMPTY"

def linesOfList (d : Nat) : List Stmt → List Line
  | [] => []
  | s :: rest => lines d s ++ linesOfList d rest

end

end Stmt

def FuncDef.lines (f : FuncDef) : List Line :=
  let params := Text.joinWith ", " (f.params.map fun p => p.type.text ++ " " ++ p.name)
  indented 0 ("FUNCTION " ++ f.ret.text ++ " " ++ f.name ++ "(" ++ params ++ ")")
    ++ (Stmt.block f.bodyPos f.body).lines 1

def Program.listing (p : Program) : Text := (p.functions.flatMap FuncDef.lines).flatMap Line.text

end ImpCompiler
