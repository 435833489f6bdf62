import ImpCompiler.CommandLine

/-!
# Main — the program

Reads the arguments, the source and the clock, compiles, and writes the results.
-/

open ImpCompiler

set_option autoImplicit false

def bytes (t : Text) : ByteArray := ⟨t.toArray⟩

def causeOf : IO.Error → FileCause
  | .noFileOrDirectory .. => .missing
  | .inappropriateType _ 20 _ => .notDirectory
  | .inappropriateType .. => .isDirectory
  | .invalidArgument _ 36 _ => .nameTooLong
  | e => .other (Text.ofString (toString e))

/-- The failure to read a file; a directory can be opened but not read. -/
def readFailure (path : Text) (e : IO.Error) : FileError :=
  let cause := causeOf e
  ⟨if cause = .isDirectory then "read" else "open", path, cause⟩

def readSource (o : Options) (path : String) : IO (Except ReadError Text) := do
  if path.isEmpty then
    let input ← (← IO.getStdin).readBinToEnd.toBaseIO
    match input with
    | .ok content => return sourceOfInput (.ok content.data.toList)
    | .error e => return sourceOfInput (.error (Text.ofString (toString e)))
  else
    match ← (IO.FS.readBinFile path).toBaseIO with
    | .ok content => return .ok content.data.toList
    | .error e => return .error (.file o.source (readFailure o.source e))

def main (args : List String) : IO UInt32 := do
  let stdout ← IO.getStdout
  let stderr ← IO.getStderr
  match Options.parse (args.map Text.ofString) with
  | (_, .error e) =>
    stderr.write (bytes (CommandLine.argumentMessage e))
    return 1
  | (_, .ok .help) =>
    stdout.write (bytes Options.helpText)
    return 0
  | (_, .ok .version) =>
    stdout.write (bytes (Options.version ++ "\n"))
    return 0
  | (o, .ok .compile) =>
    let target := (o.output.toString?).getD ""
    let start ← IO.monoMsNow
    if !target.isEmpty then
      match ← (IO.FS.writeBinFile target ByteArray.empty).toBaseIO with
      | .ok _ => pure ()
      | .error e =>
        stderr.write (bytes (FileError.message ⟨"open", o.output, causeOf e⟩ ++ "\n"))
        return 1
    let source ← readSource o ((o.source.toString?).getD "")
    let report := compile o source Sink.unlimited
    let code := report.exitCode
    if target.isEmpty then stdout.write (bytes report.sink.content)
    else IO.FS.writeBinFile target (bytes report.sink.content)
    let elapsed := Text.ofNat ((← IO.monoMsNow) - start) ++ "ms"
    stderr.write (bytes (report.diagnostics o.verbose elapsed))
    return code.toUInt32
