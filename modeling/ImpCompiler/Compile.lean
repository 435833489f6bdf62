import ImpCompiler.Code.Lower
import ImpCompiler.Files
import ImpCompiler.Live.Listing
import ImpCompiler.Machine.LinearScan
import ImpCompiler.Options
import ImpCompiler.Tree.Fold
import ImpCompiler.Tree.Parser
import ImpCompiler.Tree.Printer
import ImpCompiler.Typing.Check

/-!
# Compile — from source to listing

The phases of the compiler one after another: the source is parsed, checked, folded
on demand, lowered and allocated. What the options ask for is gathered and written
in one piece at the end, so that a compilation that fails writes nothing.
-/

namespace ImpCompiler

set_option autoImplicit false

inductive ReadError where
  | file (path : Text) (e : FileError)
  | input (reason : Text)
  | noInput

def ReadError.message : ReadError → Text
  | .file path e => Text.within ("could not read " ++ path) e.message
  | .input reason => Text.within "could not read stdin" reason
  | .noInput => "expected input from stdin, got none"

/-- The source on the standard input, which must not be empty. -/
def sourceOfInput (input : Except Text Text) : Except ReadError Text :=
  match input with
  | .error reason => .error (.input reason)
  | .ok t => if t.isEmpty then .error .noInput else .ok t

namespace Module

inductive AllocFailure where
  | noMachine (n : Int)
  | function (e : AllocError)

/-- Places for the values of all functions on the machine with a number. -/
def allocateOn (m : Module) (threads machine : Int) :
    Module × Except AllocFailure (List AllocStats) :=
  match Arch.ofNumber? machine with
  | none => (m, .error (.noMachine machine))
  | some arch =>
    match m.allocate threads arch with
    | (m, .ok stats) => (m, .ok stats)
    | (m, .error e) => (m, .error (.function e))

def AllocFailure.message : AllocFailure → Text
  | .noMachine n => Arch.unsupportedMessage n
  | .function e => e.message

end Module

inductive CompileError where
  | read (e : ReadError)
  | tokens (e : LexError)
  | parse (e : SourceError)
  | check (r : Typing.Refusal)
  | fold (e : Expr)
  | llvm
  | lower (f : Lower.Failure)
  | allocate (f : Module.AllocFailure)
  | live (e : LiveError)
  | write (e : WriteError)

def llvmMessage : Text := "jlc built without LLVM support, rebuild with -tags llvm"

def CompileError.message : CompileError → Text
  | .read e => e.message
  | .tokens e => Text.within "syntax error" e.message
  | .parse e => Text.within "syntax error" e.message
  | .check r => Text.within "type error" r.message
  | .fold e => e.unfoldableMessage
  | .llvm => Text.within "error reported by LLVM" llvmMessage
  | .lower f => Text.within "LIR generation error" f.message
  | .allocate f => Text.within "register allocation error" f.message
  | .live e => e.message
  | .write e => e.message

/-- What a verbose compilation tells about its progress. -/
inductive Progress where
  | parsed (functions : Nat)
  | checked
  | folded
  | lowered
  | function (stats : AllocStats)
  | allocated

/-- A line of progress, where `elapsed` is the time since the start. -/
def Progress.line (elapsed : Text) : Progress → Text
  | .parsed n => "jlc: parsed " ++ Text.ofNat n ++ " functions in " ++ elapsed ++ "\n"
  | .checked => "jlc: type checked in " ++ elapsed ++ "\n"
  | .folded => "jlc: folded constants in " ++ elapsed ++ "\n"
  | .lowered => "jlc: generated LIR in " ++ elapsed ++ "\n"
  | .function s =>
    "jlc: " ++ s.function ++ ": " ++ Text.ofNat s.values ++ " values, " ++ Text.ofNat s.coalesced
      ++ " coalesced, " ++ Text.ofNat s.spilled ++ " spilled\n"
  | .allocated => "jlc: allocated registers in " ++ elapsed ++ "\n"

/-- A compilation under way: what is to be written, and the progress so far. -/
structure Work where
  writer : Writer
  progress : List Progress

/-- Phases of a compilation. What was done before a failure is kept. -/
abbrev Phase := ExceptT CompileError (StateM Work)

namespace Compile

def report (p : Progress) : Phase Unit := modify fun w => { w with progress := w.progress ++ [p] }

def put (t : Text) : Phase Unit := modify fun w => { w with writer := w.writer.add t }

/-- The result of a step, or a failure with the cause of its error. -/
def orFail {ε α : Type} (cause : ε → CompileError) : Except ε α → Phase α
  | .ok a => return a
  | .error e => throw (cause e)

/-- The tree of a source, checked and folded as the options ask. -/
def tree (o : Options) (source : Text) : Phase Program := do
  let p ← orFail .parse (Program.parse source)
  report (.parsed p.functions.length)
  let (p, refusal) := p.check
  match refusal with
  | some r => throw (.check r)
  | none => report .checked
  if !o.fold then return p
  let r := p.fold o.threads
  match r.stop with
  | some e => throw (.fold e)
  | none => report .folded
  return r.tree

/-- The code of a tree, allocated. The listing before allocation is put out as the
options ask. -/
def code (o : Options) (p : Program) : Phase Module := do
  let m ← orFail .lower (p.lower o.threads o.source)
  report .lowered
  if o.code then put m.text
  let (m, stats) := m.allocateOn o.threads o.machine
  let stats ← orFail .allocate stats
  stats.forM fun s => report (.function s)
  report .allocated
  return m

def listing (m : Module) (live : Bool) : Phase Text := do
  let (_, sink, stop) := m.write live Sink.unlimited
  match stop with
  | none => return sink.content
  | some (.live e) => throw (.live e)
  | some (.write e) => throw (.write e)

/-- All phases. Allocated code is listed if live ranges are asked for or nothing
else is. -/
def phases (o : Options) (source : Except ReadError Text) : Phase Unit := do
  let source ← orFail .read source
  if o.tokens then
    let ts ← orFail .tokens (Lexer.tokens source)
    put (Token.listing ts)
  else
    let p ← tree o source
    if o.tree then put p.listing
    if o.llvm then throw .llvm
    let m ← code o p
    if o.live || !(o.tree || o.code) then put (← listing m o.live)

end Compile

structure CompileReport where
  sink : Sink
  progress : List Progress
  error : Option CompileError

def compile (o : Options) (source : Except ReadError Text) (sink : Sink) : CompileReport :=
  match (Compile.phases o source).run.run ⟨Writer.empty, []⟩ with
  | (.error e, work) => ⟨sink, work.progress, some e⟩
  | (.ok _, work) =>
    let (_, sink, refused) := work.writer.flush sink
    ⟨sink, work.progress, refused.map .write⟩

namespace CompileReport

def verdict (r : CompileReport) : Text :=
  match r.error with
  | none => "OK\n"
  | some e => "ERROR\n" ++ e.message ++ "\n"

/-- What a compilation tells: its progress, if that is asked for, and the verdict. -/
def diagnostics (r : CompileReport) (verbose : Bool) (elapsed : Text) : Text :=
  (if verbose then r.progress.flatMap (Progress.line elapsed) else []) ++ r.verdict

/-- The exit code of a program that ends with the compilation. -/
def exitCode (r : CompileReport) : Nat := if r.error.isNone then 0 else 1

end CompileReport

end ImpCompiler
