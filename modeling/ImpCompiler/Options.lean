import ImpCompiler.Machine.Target
import ImpCompiler.Text.Columns

/-!
# Options — the command line

Arguments are read from left to right. Most flags are switches; `-o`, `-t` and
`-arch` take the next argument as their value, which must not look like a flag. The
source file comes last. Asking for help or the version ends the reading.
-/

namespace ImpCompiler

set_option autoImplicit false

structure Options where
  /-- The path of the source; empty for the standard input. -/
  source : Text
  /-- The path of the output; empty for the standard output. -/
  output : Text
  threads : Int
  verbose : Bool
  /-- List the tokens and do nothing else. -/
  tokens : Bool
  /-- Print the annotated tree. -/
  tree : Bool
  /-- Print the code before allocation. -/
  code : Bool
  /-- Print the live ranges. -/
  live : Bool
  /-- Fold constants. -/
  fold : Bool
  /-- Make code for LLVM. -/
  llvm : Bool
  /-- The number of the machine. -/
  machine : Int
  deriving DecidableEq, Repr

inductive Action where
  | compile | help | version
  deriving DecidableEq, Repr

inductive ArgError where
  | noValue (flag : Text)
  | flagForValue (flag value : Text)
  | notInteger (value : Text)
  | threadRange
  | unknownMachine (value : Text)
  | unknownFlag (flag : Text)
  | sourceNotLast (path : Text)
  deriving DecidableEq, Repr

namespace Options

def initial : Options :=
  ⟨[], [], 1, false, false, false, false, false, false, false, Arch.aarch64.number⟩

def maxThreads : Nat := 64

def version : Text := "jlc 1.0"

end Options

def ArgError.message : ArgError → Text
  | .noValue flag => "got flag " ++ flag ++ " but no argument"
  | .flagForValue flag value => "expected argument to " ++ flag ++ ", got new flag " ++ value
  | .notInteger value => "expected integer thread count, got: " ++ value
  | .threadRange =>
    "thread count must be integer in range [1, " ++ Text.ofNat Options.maxThreads ++ "]"
  | .unknownMachine value => "unexpected architecture identifier: " ++ value
  | .unknownFlag flag => "unexpected flag: " ++ flag
  | .sourceNotLast path => "source file " ++ path ++ " must be the last argument"

namespace Options

/-- The value of decimal digits behind the value of those before them. -/
def digitsFrom? (n : Nat) : Text → Option Nat
  | [] => some n
  | d :: rest => if 0x30 ≤ d ∧ d ≤ 0x39 then digitsFrom? (n * 10 + (d.toNat - 0x30)) rest else none

/-- The value of decimal digits, of which there has to be one. -/
def digits? (t : Text) : Option Nat := if t.isEmpty then none else digitsFrom? 0 t

/-- An integer of 64 bits in decimal, with or without a sign. -/
def integer? (t : Text) : Option Int :=
  let n? : Option Int := match t with
    | 0x2B :: rest => (digits? rest).map fun n => (n : Int)
    | 0x2D :: rest => (digits? rest).map fun n => -(n : Int)
    | _ => (digits? t).map fun n => (n : Int)
  let limit : Int := Nat.pow 2 63
  n?.filter fun n => decide (-limit ≤ n) && decide (n < limit)

def helpFlags : List Text := ["-h", "--h", "-help", "--help"]

def versionFlags : List Text := ["-v", "--v", "-version", "--version"]

def switches : List (Text × (Options → Options)) :=
  [("-vb", fun o => { o with verbose := true }),
   ("-ts", fun o => { o with tokens := true }),
   ("-tree", fun o => { o with tree := true }),
   ("-lir", fun o => { o with code := true }),
   ("-live", fun o => { o with live := true }),
   ("-O", fun o => { o with fold := true }),
   ("-ll", fun o => { o with llvm := true })]

def setThreads (o : Options) (value : Text) : Except ArgError Options :=
  match integer? value with
  | none => .error (.notInteger value)
  | some n => if n < 1 ∨ maxThreads < n then .error .threadRange else .ok { o with threads := n }

def setMachine (o : Options) (value : Text) : Except ArgError Options :=
  if value = Arch.aarch64.name then .ok { o with machine := Arch.aarch64.number }
  else if value = Arch.riscv64.name then .ok { o with machine := Arch.riscv64.number }
  else .error (.unknownMachine value)

def settings : List (Text × (Options → Text → Except ArgError Options)) :=
  [("-o", fun o value => .ok { o with output := value }),
   ("-t", setThreads),
   ("-arch", setMachine)]

def isFlag (arg : Text) : Bool := arg.head? == some 0x2D

/-- Reads arguments on top of what was read before. What was read stays if there is
an error. -/
def parseFrom (o : Options) : List Text → Options × Except ArgError Action
  | [] => (o, .ok .compile)
  | arg :: rest =>
    if helpFlags.contains arg then (o, .ok .help)
    else if versionFlags.contains arg then (o, .ok .version)
    else
      match switches.lookup arg with
      | some switch => parseFrom (switch o) rest
      | none =>
        match settings.lookup arg with
        | some setting =>
          match rest with
          | [] => (o, .error (.noValue arg))
          | value :: rest' =>
            if isFlag value then (o, .error (.flagForValue arg value))
            else
              match setting o value with
              | .ok o' => parseFrom o' rest'
              | .error e => (o, .error e)
        | none =>
          if isFlag arg then (o, .error (.unknownFlag arg))
          else if rest.isEmpty then ({ o with source := arg }, .ok .compile)
          else (o, .error (.sourceNotLast arg))

def parse (args : List Text) : Options × Except ArgError Action := parseFrom initial args

def helpRows : List Text.Row :=
  [⟨["usage: jlc [flags] [sourceFile]"], "Source is read from stdin when sourceFile is omitted."⟩,
   ⟨["-h, -help"], "Prints this help message and exits the application."⟩,
   ⟨["-v, -version"], "Prints application version and exits the application."⟩,
   ⟨["-vb"], "Verbose mode: print phase timings to stderr."⟩,
   ⟨["-ts"], "Output the tokens of the source code and exit."⟩,
   ⟨["-tree"], "Print the type annotated syntax tree."⟩,
   ⟨["-lir"], "Print the lowered LIR."⟩,
   ⟨["-live"], "Print live intervals and allocated locations."⟩,
   ⟨["-O"], "Fold constant expressions before lowering."⟩,
   ⟨["-ll"], "Emit LLVM IR instead of LIR. Requires a build with the llvm tag."⟩,
   ⟨["-o"], "Path and name of the output file."⟩,
   ⟨["-t"], "Number of functions processed in parallel. Must be in range [1, "
      ++ Text.ofNat maxThreads ++ "]."⟩,
   ⟨["-arch"], "Register file for allocation: 'aarch64' (default) or 'riscv64'."⟩]

def helpText : Text := Text.table ⟨6, 1⟩ helpRows

end Options

end ImpCompiler
