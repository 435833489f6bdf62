import ImpCompiler.Compile

/-!
# CommandLine — the tool

The tool on a file store: its arguments say what to compile and where the result
goes. The output file is emptied before the source is read.
-/

namespace ImpCompiler

set_option autoImplicit false

/-- What a run of the tool leaves behind. -/
structure Session where
  exitCode : Nat
  output : Text
  diagnostics : Text
  files : FileStore

namespace CommandLine

def argumentMessage (e : ArgError) : Text := "Command line argument error: " ++ e.message ++ "\n"

def source (o : Options) (input : Text) (files : FileStore) : Except ReadError Text :=
  if o.source.isEmpty then sourceOfInput (.ok input)
  else
    match files.read o.source with
    | .ok t => .ok t
    | .error e => .error (.file o.source e)

def toOutput (o : Options) (input : Text) (files : FileStore) (elapsed : Text) : Session :=
  let r := compile o (source o input files) Sink.unlimited
  ⟨r.exitCode, r.sink.content, r.diagnostics o.verbose elapsed, files⟩

def toFile (o : Options) (input : Text) (files : FileStore) (elapsed : Text) : Session :=
  match files.outputPlace o.output with
  | .error e => ⟨1, [], e.message ++ "\n", files⟩
  | .ok place =>
    let r := compile o (source o input (files.put place [])) Sink.unlimited
    ⟨r.exitCode, [], r.diagnostics o.verbose elapsed, files.put place r.sink.content⟩

/-- Runs the tool; `elapsed` is shown where the time since the start would be. -/
def run (args : List Text) (input : Text) (files : FileStore) (elapsed : Text) : Session :=
  match Options.parse args with
  | (_, .error e) => ⟨1, [], argumentMessage e, files⟩
  | (_, .ok .help) => ⟨0, Options.helpText, [], files⟩
  | (_, .ok .version) => ⟨0, Options.version ++ "\n", [], files⟩
  | (o, .ok .compile) =>
    if o.output.isEmpty then toOutput o input files elapsed else toFile o input files elapsed

end CommandLine

end ImpCompiler
