import ImpCompiler.Text.Utf8

/-!
# Text.Columns — tables

A table is a list of rows with the same number of cells. Every cell but the last of
its row is padded with blanks to the width of its column, which is the widest cell
of the column and some padding behind it, and never less than a least width. Widths
count code points.
-/

namespace ImpCompiler.Text

set_option autoImplicit false

/-- One line of a table: the aligned cells, and the last cell, which is not padded. -/
structure Row where
  cells : List Text
  last : Text

structure ColumnStyle where
  least : Nat
  padding : Nat

namespace Row

/-- The column widths that `widths` grow to when the row is to fit too. -/
def widen (padding : Nat) : List Text → List Nat → List Nat
  | [], widths => widths
  | c :: cs, [] => (width c + padding) :: widen padding cs []
  | c :: cs, w :: ws => max w (width c + padding) :: widen padding cs ws

def pad : List Text → List Nat → Text
  | [], _ => []
  | c :: cs, [] => c ++ pad cs []
  | c :: cs, w :: ws => c ++ blanks (w - width c) ++ pad cs ws

end Row

def columnWidths (style : ColumnStyle) (rows : List Row) : List Nat :=
  (rows.foldl (fun ws r => Row.widen style.padding r.cells ws) []).map (max style.least)

def table (style : ColumnStyle) (rows : List Row) : Text :=
  let widths := columnWidths style rows
  rows.flatMap fun r => Row.pad r.cells widths ++ r.last ++ "\n"

end ImpCompiler.Text
