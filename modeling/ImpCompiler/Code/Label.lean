import ImpCompiler.Text

/-!
# Code.Label — names of blocks

A block is named for its part in a statement, with a number that counts the blocks
of its kind in the function. The entry block has no number.
-/

namespace ImpCompiler

set_option autoImplicit false

/-- What a block is for. -/
inductive LabelKind where
  | entry
  | whileHead | whileBody | whileEnd
  | ifThen | ifElse | ifEnd
  | andRight | orRight | shortEnd
  | forHead | forBody | forEnd
  deriving DecidableEq, Repr

namespace LabelKind

def all : List LabelKind :=
  [.entry, .whileHead, .whileBody, .whileEnd, .ifThen, .ifElse, .ifEnd, .andRight, .orRight,
   .shortEnd, .forHead, .forBody, .forEnd]

def text : LabelKind → Text
  | .entry => "entry"
  | .whileHead => "while.head"
  | .whileBody => "while.body"
  | .whileEnd => "while.end"
  | .ifThen => "if.then"
  | .ifElse => "if.else"
  | .ifEnd => "if.end"
  | .andRight => "and.rhs"
  | .orRight => "or.rhs"
  | .shortEnd => "short.end"
  | .forHead => "for.head"
  | .forBody => "for.body"
  | .forEnd => "for.end"

def ofNumber? (n : Int) : Option LabelKind := if 0 ≤ n then all[n.toNat]? else none

def unknownMessage (n : Int) : Text := "unexpected label type " ++ Text.ofInt n

end LabelKind

/-- The kinds of the labels that were handed out, the latest first. -/
structure Labels where
  issued : List LabelKind
  deriving Repr

namespace Labels

def empty : Labels := ⟨[]⟩

/-- A label of a kind that was not handed out before, unless it is an entry label. -/
def fresh (l : Labels) (k : LabelKind) : Text × Labels :=
  (if k = .entry then k.text else k.text ++ "." ++ Text.ofNat (l.issued.count k),
   ⟨k :: l.issued⟩)

end Labels

end ImpCompiler
