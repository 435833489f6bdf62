import ImpCompiler.Jobs
import ImpCompiler.Live.Analysis
import ImpCompiler.Machine.Target

/-!
# Machine.LinearScan — places for values

The values of a function get registers in one scan over their live ranges, by the
starts of these. A value that is copied shares a place with its copy where their
ranges allow it. A register is taken back when the last range of its value has
ended. If there is none left for a value, the value of its class whose ranges end
last goes to a spill slot, which may be the value itself.
-/

namespace ImpCompiler

set_option autoImplicit false

/-- What allocation did to a function. -/
structure AllocStats where
  function : Text
  /-- The number of values. -/
  values : Nat
  /-- The number of copies that share the place of their source. -/
  coalesced : Nat
  /-- The number of spill slots. -/
  spilled : Nat
  deriving DecidableEq, Repr

inductive AllocError where
  | live (e : LiveError)
  /-- A copy has no operand. -/
  | noSource
  | noInterval (function : Text) (n : Nat)

def AllocError.message : AllocError → Text
  | .live e => e.message
  | .noSource => "copy without a source"
  | .noInterval function n => "function " ++ function ++ ": no interval for " ++ valueText n

/-- A value in a register, and where its ranges end. -/
structure Active where
  value : Value
  stop : Int
  reg : Register
  deriving DecidableEq, Repr

structure Scan where
  file : RegisterFile
  /-- The values in registers, by the ends of their ranges. -/
  active : List Active
  places : Assoc Value Loc
  /-- The number of spill slots. -/
  spilled : Nat

namespace Scan

def start (file : RegisterFile) : Scan := ⟨file, [], [], 0⟩

/-- Takes back the registers of values whose ranges ended before or at `i`. -/
def expire (s : Scan) (i : Int) : Scan :=
  let ended := s.active.filter fun a => decide (a.stop ≤ i)
  { s with
    file := ended.foldl (fun file a => file.free a.reg.cls a.reg.number) s.file
    active := s.active.filter fun a => !decide (a.stop ≤ i) }

/-- Gives a value a register. It goes behind the values that end no later. -/
def assign (s : Scan) (a : Active) : Scan :=
  { s with
    active := insertSorted (fun a b => decide (a.stop < b.stop)) a s.active
    places := Assoc.set a.value (.register a.reg) s.places }

def spill (s : Scan) (v : Value) : Scan :=
  { s with places := Assoc.set v (.spill s.spilled) s.places, spilled := s.spilled + 1 }

/-- The value of a class that ends last. -/
def victim? (s : Scan) (c : RegClass) : Option Active :=
  s.active.reverse.find? fun a => a.reg.cls == c

def step (s : Scan) (c : RegClass) (v : Value) (r : RangeSet) : Scan :=
  let s := s.expire r.start
  match s.file.next c with
  | (some reg, file) => { s with file }.assign ⟨v, r.stop, reg⟩
  | (none, _) =>
    match s.victim? c with
    | none => s.spill v
    | some a =>
      if a.stop ≤ r.stop then s.spill v
      else
        let s := s.spill a.value
        { s with active := s.active.erase a }.assign ⟨v, r.stop, a.reg⟩

end Scan

namespace Func

def classOf (f : Func) (v : Value) : RegClass :=
  match f.instr? v with
  | some i => i.type.regClass
  | none => .int

/-- Lets copies share the places of their sources where possible; the answer is how
many do. -/
def coalesce (f : Func) (iv : Intervals) : List (Nat × Instr) → Except AllocError (Nat × Intervals)
  | [] => return (0, iv)
  | (n, i) :: rest =>
    if i.op = .copy then
      match i.args with
      | [] => throw .noSource
      | source :: _ => do
        let (joined, iv) := iv.join source n fun a b => f.classOf a == f.classOf b
        let (k, iv) ← f.coalesce iv rest
        return (if joined then k + 1 else k, iv)
    else f.coalesce iv rest

def scan (f : Func) (file : RegisterFile) (iv : Intervals) : Scan :=
  iv.entries.foldl (fun s (v, r) => s.step (f.classOf v) v r) (Scan.start file)

/-- The place of a value: that of its class. -/
def place? (iv : Intervals) (s : Scan) (n : Nat) : Option Loc :=
  s.places.lookup (iv.representative n)

/-- Writes the places of values into the instructions of the function. -/
def setPlaces (f : Func) (iv : Intervals) (s : Scan) : Func :=
  f.mapArena fun n i =>
    if i.hasValue && f.instrs.contains n then
      match place? iv s n with
      | some loc => { i with loc }
      | none => i
    else i

/-- Places for the values of a numbered function with the given live ranges. -/
def allocateWith (f : Func) (file : RegisterFile) (iv : Intervals) :
    Except AllocError (Func × AllocStats) := do
  let (coalesced, iv) ← f.coalesce iv f.code
  let s := f.scan file iv
  let values := f.code.filter fun p => p.2.hasValue
  match values.find? fun p => (place? iv s p.1).isNone with
  | some (n, _) => throw (.noInterval f.name n)
  | none => return (f.setPlaces iv s, ⟨f.name, values.length, coalesced, s.spilled⟩)

/-- Places for the values of a function from the free registers of a file. The
function is numbered in any case. -/
def allocate (f : Func) (file : RegisterFile) : Func × Except AllocError AllocStats :=
  match f.intervals with
  | (f, .error e) => (f, .error (.live e))
  | (f, .ok iv) =>
    match f.allocateWith file iv with
    | .error e => (f, .error e)
    | .ok (g, stats) => (g, .ok stats)

end Func

namespace Module

/-- A function with what allocation did to it, allocated for a machine. -/
def allocateJob (arch : Arch) (p : Func × Option AllocStats) :
    (Func × Option AllocStats) × Option AllocError :=
  match p.1.allocate arch.registers with
  | (f, .ok stats) => ((f, some stats), none)
  | (f, .error e) => ((f, none), some e)

/-- Places for the values of all functions on a machine; every function has all
registers to itself. -/
def allocate (m : Module) (threads : Int) (arch : Arch) :
    Module × Except AllocError (List AllocStats) :=
  let (results, stop) := Jobs.run threads (allocateJob arch) (m.functions.map fun f => (f, none))
  let m := { m with functions := results.map Prod.fst }
  match stop with
  | some e => (m, .error e)
  | none => (m, .ok (results.filterMap Prod.snd))

end Module

end ImpCompiler
