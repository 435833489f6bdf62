import ImpCompiler.Code.Build

/-!
# Code.Flow — dead code and the flow of control

`Func.buildFlow` cuts every block behind its first terminator, drops the blocks that
control does not reach from the entry, and links the others with their predecessors
and successors. What is cut or dropped stays in the arena but is in no block any
more. It fails if control reaches a block that has no terminator; blocks are then
cut but neither dropped nor linked.
-/

namespace ImpCompiler

set_option autoImplicit false

inductive FlowError where
  | noBlocks (function : Text)
  | notTerminated (function block : Text)

def FlowError.message : FlowError → Text
  | .noBlocks function => "function " ++ function ++ " has no blocks"
  | .notTerminated function block =>
    "function " ++ function ++ ": block " ++ block ++ " is not terminated"

namespace Func

def entry (f : Func) : Except FlowError BlockId :=
  match f.layout with
  | b :: _ => .ok b
  | [] => .error (.noBlocks f.name)

def isTerminatorAt (f : Func) (n : Nat) : Bool := (f.arena[n]?).any Instr.isTerminator

/-- The instructions up to and with the first terminator, and those behind it. -/
def cut (f : Func) : List Nat → List Nat × List Nat
  | [] => ([], [])
  | n :: rest =>
    if f.isTerminatorAt n then ([n], rest)
    else (n :: (f.cut rest).1, (f.cut rest).2)

/-- Takes instructions out of their blocks in the arena. -/
def detach (f : Func) (ns : List Nat) : Func :=
  f.mapArena fun n i => if ns.contains n then { i with block := none } else i

/-- Cuts every block of the layout behind its first terminator. -/
def strip (f : Func) : Func :=
  let removed := f.layout.flatMap fun b => (f.cut (f.block b).instrs).2
  (f.detach removed).mapBlocks fun b k =>
    if f.layout.contains b then { k with instrs := (f.cut k.instrs).1 } else k

def targets (f : Func) (b : BlockId) : List BlockId :=
  match f.terminator? b with
  | some t => t.op.targets
  | none => []

/-- The blocks reached from those in `work`, which are reached already; at most `n`
of them are looked at. It fails at a block without a terminator. -/
def explore (f : Func) : Nat → List BlockId → List BlockId → Except BlockId (List BlockId)
  | 0, reached, _ => .ok reached
  | _ + 1, reached, [] => .ok reached
  | n + 1, reached, b :: work =>
    match f.terminator? b with
    | none => .error b
    | some t =>
      let found := t.op.targets.filter fun c => !reached.contains c
      f.explore n (reached ++ found) (found.reverse ++ work)

/-- Keeps the blocks in `reached` that have instructions and empties the others. -/
def keepReached (f : Func) (reached : List BlockId) : Func :=
  let isKept (b : BlockId) : Bool := reached.contains b && !(f.block b).instrs.isEmpty
  let dropped := f.layout.filter fun b => !isKept b
  let f := f.detach (dropped.flatMap fun b => (f.block b).instrs)
  let f := f.mapBlocks fun b k => if dropped.contains b then { k with instrs := [] } else k
  { f with layout := f.layout.filter isKept }

/-- The blocks of the layout with a branch to `b`. -/
def incoming (f : Func) (b : BlockId) : List BlockId :=
  f.layout.filter fun p => (f.targets p).contains b

/-- Links the blocks of the layout; a branch to a dropped block is added to the
predecessors that block had. -/
def link (f : Func) : Func :=
  let linked := f.mapBlocks fun b k =>
    if f.layout.contains b then { k with preds := f.incoming b, succs := f.targets b }
    else { k with preds := k.preds ++ f.incoming b }
  { linked with order := [] }

/-- Removes dead code and links the blocks. -/
def buildFlow (f : Func) : Func × Option FlowError :=
  let f := f.strip
  match f.entry with
  | .error e => (f, some e)
  | .ok b =>
    match f.explore f.blocks.size [b] [b] with
    | .error c => (f, some (.notTerminated f.name (f.label c)))
    | .ok reached => ((f.keepReached reached).link, none)

end Func

end ImpCompiler
