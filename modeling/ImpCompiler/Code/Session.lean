import ImpCompiler.Code.Build

/-!
# Code.Session — making a module call by call

A module is made by calls, one after another. A call makes a function, or a block, a
slot or an instruction of a function that was made before, and answers with the number
of what it made. Functions are numbered in the order they were made. A call that is
refused stops where it is: the next call goes on with the module as it was left there.
-/

namespace ImpCompiler

set_option autoImplicit false

/-- A call on a module. `owner` is the number of a function, and `kind` the number of a
kind of labels. -/
inductive Call where
  | function (name : Text) (ret : DataType) (params : List DataType)
  | block (owner : Nat) (kind : Int)
  | slot (owner : Nat) (name : Text) (type : DataType)
  | instr (owner : Nat) (block : BlockId) (r : Request)

inductive CallError where
  | noFunction (owner : Nat)
  | noBlock (owner : Nat) (block : BlockId)
  | refused (e : BuildError)

/-- Steps that make a module. What was changed before an error stays changed. -/
abbrev ModuleBuilder := ExceptT CallError (StateM Module)

namespace ModuleBuilder

def function (k : Nat) : ModuleBuilder Func := do
  match (← get).functions[k]? with
  | some f => return f
  | none => throw (.noFunction k)

/-- Takes steps on the function with a number. The function stays as they left it, also
where they were refused. -/
def inFunction {α : Type} (k : Nat) (x : Builder α) : ModuleBuilder α := do
  let f ← function k
  let (answer, f) := x.run.run f
  modify fun m => { m with functions := m.functions.set k f }
  match answer with
  | .ok a => return a
  | .error e => throw (.refused e)

def perform : Call → ModuleBuilder Nat
  | .function name ret params => do
    let n := (← get).functions.length
    modify fun m => { m with functions := m.functions ++ [Func.empty name ret params] }
    return n
  | .block k kind => inFunction k (Builder.block kind)
  | .slot k name type => inFunction k (Builder.slot name type)
  | .instr k b r => do
    let f ← function k
    if f.blocks.size ≤ b then throw (.noBlock k b) else inFunction k (Builder.create b r)

end ModuleBuilder

namespace Module

/-- What a call answers, and the module that it leaves. -/
def call (m : Module) (c : Call) : Except CallError Nat × Module := (ModuleBuilder.perform c).run.run m

/-- The module that calls leave, whether they are refused or not. -/
def after (m : Module) (calls : List Call) : Module := calls.foldl (fun m c => (m.call c).2) m

end Module

end ImpCompiler
