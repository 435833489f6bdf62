import ImpCompiler.Code.Func

/-!
# Code.Numbering — the order of instructions

Numbering lays the blocks of a function out in a line and counts their instructions
from 0. A block comes as soon as all its predecessors have come; when no block is
left of which that holds, as in a loop, the first one left in the layout comes.
-/

namespace ImpCompiler

set_option autoImplicit false

namespace Func

def nextBlock? (f : Func) (done rest : List BlockId) : Option BlockId :=
  (rest.find? fun b => (f.block b).preds.all fun p => done.contains p).or rest.head?

/-- The blocks in `rest` in the order they come after those in `done`, at most `n`
of them. -/
def arrange (f : Func) : Nat → List BlockId → List BlockId → List BlockId
  | 0, _, _ => []
  | n + 1, done, rest =>
    match f.nextBlock? done rest with
    | none => []
    | some b => b :: f.arrange n (b :: done) (rest.erase b)

def number (f : Func) : Func :=
  let order := f.arrange f.layout.length [] f.layout
  let line := order.flatMap fun b => (f.block b).instrs
  let numbered := f.mapArena fun n i =>
    match line.idxOf? n with
    | some k => { i with index := some k }
    | none => i
  { numbered with order }

end Func

end ImpCompiler
