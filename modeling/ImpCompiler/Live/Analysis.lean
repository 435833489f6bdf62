import ImpCompiler.Code.Numbering
import ImpCompiler.Live.Intervals

/-!
# Live.Analysis — live values

A value is live at the start of a block if a path from there reaches a use of it
before its definition. `Func.liveIn` starts with the values that a block uses
without defining them before, and passes live values on to predecessors until
nothing changes. `Func.liveRanges` turns this into the instruction numbers at which
each value is live: up to and with its last use in a block, or to the end of the
block if it is live there, and just up to a copy that is its last use. A value that
is never used is live at its definition.
-/

namespace ImpCompiler

set_option autoImplicit false

inductive LiveError where
  | noDefinition (function : Text) (operand : Value) (n : Nat)
  | emptyBlock (function block : Text)

def LiveError.message : LiveError → Text
  | .noDefinition function v n =>
    "function " ++ function ++ ": operand " ++ valueText v ++ " of instruction " ++ valueText n
      ++ " has no definition"
  | .emptyBlock function block =>
    "function " ++ function ++ ": block " ++ block ++ " has no instructions"

/-- The values that are live at the start of each block, by its number. -/
abbrev LiveSets := Array (List Value)

namespace Func

/-- The values that instructions use before they define them, where those in `defs`
are defined. -/
def exposed (f : Func) (defs : List Value) : List Nat → List Value
  | [] => []
  | n :: rest =>
    match f.arena[n]? with
    | none => f.exposed defs rest
    | some i =>
      (i.args.filter fun v => !defs.contains v)
        ++ f.exposed (if i.hasValue then (n : Value) :: defs else defs) rest

/-- The values that a block uses without defining them before, in order. -/
def seeds (f : Func) (b : BlockId) : List Value :=
  sorted (fun v w => decide (v < w)) (f.exposed [] (f.block b).instrs).eraseDups

def defs (f : Func) (b : BlockId) : List Value :=
  ((f.block b).instrs.filter fun n => (f.arena[n]?).any Instr.hasValue).map Int.ofNat

def insertAll (s vs : List Value) : List Value :=
  vs.foldl (fun s v => if s.contains v then s else s ++ [v]) s

/-- The values that are live at the end of a block. -/
def liveOut (f : Func) (live : LiveSets) (b : BlockId) : List Value :=
  insertAll [] ((f.block b).succs.flatMap fun c => live.getD c [])

/-- Passes live values on to a block. -/
def updateBlock (f : Func) (live : LiveSets) (b : BlockId) : LiveSets :=
  live.modify b fun s => insertAll s ((f.liveOut live b).filter fun v => !(f.defs b).contains v)

/-- Passes live values on to every block, the last one first. -/
def updateBlocks (f : Func) (live : LiveSets) : LiveSets :=
  f.layout.reverse.foldl f.updateBlock live

/-- Repeats until nothing changes, at most `n` times. -/
def iterateLive (f : Func) : Nat → LiveSets → LiveSets
  | 0, live => live
  | n + 1, live =>
    let live' := f.updateBlocks live
    if live' = live then live else f.iterateLive n live'

def seedSets (f : Func) : LiveSets :=
  f.blocks.mapIdx fun b _ => if f.layout.contains b then f.seeds b else []

/-- The values that are live at the start of each block. Every repetition but the
last puts a value into a set, and there are no more values than seeds. -/
def liveIn (f : Func) : LiveSets :=
  let start := f.seedSets
  f.iterateLive (f.blocks.size * start.toList.flatten.length + 1) start

/-- The number of an instruction. -/
def indexOf (f : Func) (n : Nat) : Int :=
  match f.arena[n]?.bind Instr.index with
  | some k => k
  | none => -1

/-- Where a value starts to be live in block `b`, whose first instruction has number
`start`. -/
def liveFrom (f : Func) (b : BlockId) (start : Int) (v : Value) : Int :=
  match f.instr? v with
  | some i => if i.block = some b then (i.index.elim (-1) fun k => (k : Int)) else start
  | none => start

/-- The ranges that instructions of block `b` add, from the last to the first, where
the values in `live` are live behind them. -/
def rangesBackward (f : Func) (b : BlockId) (start : Int) (live : List Value) :
    List Nat → List (Value × Range)
  | [] => []
  | n :: rest =>
    match f.arena[n]? with
    | none => f.rangesBackward b start live rest
    | some i =>
      let k := f.indexOf n
      let use := if i.op = .copy then k else k + 1
      let fresh := (i.args.filter fun v => !live.contains v).eraseDups
      let live := fresh ++ live
      let own :=
        if i.hasValue && !live.contains (n : Value) then [((n : Value), ⟨k, k + 1⟩)] else []
      (fresh.map fun v => (v, ⟨f.liveFrom b start v, use⟩)) ++ own
        ++ f.rangesBackward b start live rest

def blockRanges (f : Func) (live : LiveSets) (b : BlockId) : List (Value × Range) :=
  match (f.block b).instrs.head?, (f.block b).instrs.getLast? with
  | some first, some last =>
    let start := f.indexOf first
    let stop := f.indexOf last + 1
    let out := f.liveOut live b
    (out.map fun v => (v, ⟨f.liveFrom b start v, stop⟩))
      ++ f.rangesBackward b start out (f.block b).instrs.reverse
  | _, _ => []

/-- Whether a value is defined by an instruction in a block. -/
def isDefined (f : Func) (v : Value) : Bool :=
  match f.instr? v with
  | some i => i.block.isSome && i.hasValue
  | none => false

/-- The first operand without a definition, with the instruction that uses it. -/
def undefinedOperand? (f : Func) : Option (Nat × Value) :=
  f.code.findSome? fun (n, i) => (i.args.find? fun v => !f.isDefined v).map fun v => (n, v)

def liveRanges (f : Func) : Except LiveError Intervals :=
  match f.undefinedOperand? with
  | some (n, v) => .error (.noDefinition f.name v n)
  | none =>
    match f.layout.find? fun b => (f.block b).instrs.isEmpty with
    | some b => .error (.emptyBlock f.name (f.label b))
    | none =>
      let live := f.liveIn
      .ok ((f.layout.flatMap (f.blockRanges live)).foldl (fun iv (v, r) => iv.add v r)
        (Intervals.empty f.name))

/-- Numbers a function and computes its live ranges. -/
def intervals (f : Func) : Func × Except LiveError Intervals := (f.number, f.number.liveRanges)

end Func

namespace Module

def number (m : Module) : Module := { m with functions := m.functions.map Func.number }

/-- Numbers functions and computes their live ranges, up to the first for which that
fails. -/
def intervalsOf : List Func → List Func × Except LiveError (List Intervals)
  | [] => ([], .ok [])
  | f :: rest =>
    match f.intervals with
    | (f, .error e) => (f :: rest, .error e)
    | (f, .ok iv) =>
      let (rest, ivs) := intervalsOf rest
      (f :: rest, ivs.map (iv :: ·))

def intervals (m : Module) : Module × Except LiveError (List Intervals) :=
  let (fs, ivs) := intervalsOf m.functions
  ({ m with functions := fs }, ivs)

end Module

end ImpCompiler
