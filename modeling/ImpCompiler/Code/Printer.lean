import ImpCompiler.Code.Func
import ImpCompiler.Decimal.Layout
import ImpCompiler.Text.Quoted

/-!
# Code.Printer — the listing of code

A numbered instruction shows its number, and one that computes a value shows which
and, once it has one, its place.
-/

namespace ImpCompiler

set_option autoImplicit false

def valueText (v : Value) : Text := "%" ++ Text.ofInt v

def valuesText (vs : List Value) : Text := Text.joinWith ", " (vs.map valueText)

def Constant.text : Constant → Text
  | .int v => "int " ++ Text.ofInt v.toInt
  | .double v => "double " ++ v.text
  | .bool v => "bool " ++ (if v then "true" else "false" : Text)
  | .null => "ptr null"

namespace Func

/-- An instruction behind its name, with the blocks of `f` as targets. -/
def operationText (f : Func) (i : Instr) : Text :=
  match i.op with
  | .param n => " " ++ i.type.text ++ " " ++ Text.ofNat n
  | .const c => " " ++ c.text
  | .string s => " " ++ Text.quote s
  | .load n => " " ++ i.type.text ++ " slot" ++ Text.ofNat n
  | .store n => " slot" ++ Text.ofNat n ++ ", " ++ valuesText i.args
  | .arith op => " " ++ op.text ++ " " ++ i.type.text ++ " " ++ valuesText i.args
  | .compare rel => " " ++ rel.text ++ " " ++ valuesText i.args
  | .call name => " " ++ i.type.text ++ " " ++ name ++ "(" ++ valuesText i.args ++ ")"
  | .newArray elem dims =>
    " " ++ elem.text ++ " " ++ Text.ofInt dims ++ " [" ++ valuesText i.args ++ "]"
  | .loadElem elem | .storeElem elem => " " ++ elem.text ++ " " ++ valuesText i.args
  | .branch b => " " ++ f.label b
  | .condBranch b c => " " ++ valuesText i.args ++ ", " ++ f.label b ++ ", " ++ f.label c
  | .copy | .arrayLen | .ret | .unreachable =>
    if i.args.isEmpty then [] else " " ++ valuesText i.args

def instrText (f : Func) (n : Nat) (i : Instr) : Text :=
  let index : Text := match i.index with
    | some k => Text.padLeft 4 (Text.ofNat k) ++ ": "
    | none => []
  let target : Text := if i.hasValue then valueText n ++ " = " else []
  let place : Text := if i.hasValue && i.loc.isAssigned then "\t; " ++ i.loc.text else []
  index ++ target ++ i.op.name ++ f.operationText i ++ place

/-- A block: its label, the labels of its predecessors, and its instructions. -/
def blockText (f : Func) (b : BlockId) : Text :=
  let k := f.block b
  let preds : Text :=
    if k.preds.isEmpty then []
    else "\t; preds:" ++ Text.concatMap k.preds fun p => " " ++ f.label p
  let lines := Text.concatMap k.instrs fun n =>
    match f.arena[n]? with
    | some i => "\t" ++ f.instrText n i ++ "\n"
    | none => []
  k.label ++ ":" ++ preds ++ "\n" ++ lines

def slotLines (n : Nat) : List Slot → Text
  | [] => []
  | s :: rest =>
    "\tslot" ++ Text.ofNat n ++ " " ++ s.type.text ++ " " ++ s.name ++ "\n"
      ++ slotLines (n + 1) rest

def text (f : Func) : Text :=
  "function " ++ f.name ++ "(" ++ Text.joinWith ", " (f.params.map DataType.text) ++ "): "
    ++ f.ret.text ++ " \x7b\n" ++ slotLines 0 f.slots ++ f.layout.flatMap f.blockText ++ "\x7d\n"

end Func

namespace Module

def stringLines (n : Nat) : List Text → Text
  | [] => []
  | s :: rest => "str" ++ Text.ofNat n ++ " = " ++ Text.quote s ++ "\n" ++ stringLines (n + 1) rest

def text (m : Module) : Text :=
  "Module: " ++ m.name ++ "\n" ++ stringLines 0 m.strings ++ "\n"
    ++ Text.concatMap m.functions fun f => f.text ++ "\n"

end Module

end ImpCompiler
