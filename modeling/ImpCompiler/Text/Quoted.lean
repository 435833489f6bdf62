import ImpCompiler.Text.Utf8
import ImpCompiler.Text.Printable

/-!
# Text.Quoted — quoted texts

A quoted text stands between double quotes and shows every byte: printable code
points as they are, the quote and the backslash behind a backslash, everything else
as an escape. `quote` writes this form, `unescape` reads what stands between the
quotes of a string literal of the source language. A literal may use more escapes
than `quote` writes: octal ones, and hexadecimal ones for any code point.
-/

namespace ImpCompiler.Text

set_option autoImplicit false

/-- The controls that have a letter of their own behind the backslash. -/
def letterEscapes : List (UInt8 × UInt8) :=
  [(0x07, 0x61), (0x08, 0x62), (0x0c, 0x66), (0x0a, 0x6e), (0x0d, 0x72), (0x09, 0x74), (0x0b, 0x76)]

/-- A code point inside quotes of the kind `mark`. -/
def escapeChar (mark c : Char) : Text :=
  if c = mark ∨ c = '\\' then "\\" ++ ofChar c
  else if isPrintable c then ofChar c
  else match letterEscapes.find? fun e => e.1.toNat == c.toNat with
    | some e => "\\" ++ [e.2]
    | none =>
      if c.toNat < 0x80 then "\\x" ++ hex 2 c.toNat
      else if c.toNat < 0x10000 then "\\u" ++ hex 4 c.toNat
      else "\\U" ++ hex 8 c.toNat

def escapeUnit : CodeUnit → Text
  | .scalar c => escapeChar '\x22' c
  | .stray b => "\\x" ++ hex 2 b.toNat

def quoteUnits (us : List CodeUnit) : Text := "\"" ++ us.flatMap escapeUnit ++ "\""

def quote (t : Text) : Text := quoteUnits (units t)

/-- The first `n` code points of a text between double quotes. -/
def quoteUpTo (n : Nat) (t : Text) : Text := quoteUnits ((units t).take n)

/-- A code point between single quotes; a stray byte shows as the replacement
character. -/
def quoteSingle (u : CodeUnit) : Text :=
  let c := match u with
    | .scalar c => c
    | .stray _ => '�'
  "\x27" ++ escapeChar '\x27' c ++ "\x27"

def hexDigit? (b : UInt8) : Option Nat :=
  if 0x30 ≤ b ∧ b ≤ 0x39 then some (b.toNat - 0x30)
  else if 0x61 ≤ b ∧ b ≤ 0x66 then some (b.toNat - 0x61 + 10)
  else if 0x41 ≤ b ∧ b ≤ 0x46 then some (b.toNat - 0x41 + 10)
  else none

def octalDigit? (b : UInt8) : Option Nat :=
  if 0x30 ≤ b ∧ b ≤ 0x37 then some (b.toNat - 0x30) else none

/-- The number that exactly `n` digits of base `base` write at the start of a text,
and the rest. -/
def number? (base : Nat) (digit? : UInt8 → Option Nat) : Nat → Nat → Text → Option (Nat × Text)
  | 0, acc, t => some (acc, t)
  | _ + 1, _, [] => none
  | n + 1, acc, b :: rest => do number? base digit? n (acc * base + (← digit? b)) rest

/-- The encoding of the code point that `n` hexadecimal digits name, and the rest. -/
def namedChar? (n : Nat) (t : Text) : Option (Text × Text) := do
  let (v, rest) ← number? 16 hexDigit? n 0 t
  let c ← scalar? 0 v
  return (ofChar c, rest)

/-- What the escape behind a backslash stands for, and the rest. -/
def unescapeOne : Text → Option (Text × Text)
  | [] => none
  | b :: rest =>
    if b = 0x78 then do
      let (v, rest) ← number? 16 hexDigit? 2 0 rest
      return ([v.toUInt8], rest)
    else if b = 0x75 then namedChar? 4 rest
    else if b = 0x55 then namedChar? 8 rest
    else if b = 0x5c ∨ b = 0x22 then some ([b], rest)
    else match letterEscapes.find? fun e => e.2 == b with
      | some e => some ([e.1], rest)
      | none => do
        let (v, rest) ← number? 8 octalDigit? 3 0 (b :: rest)
        if v < 256 then return ([v.toUInt8], rest) else none

/-- `unescape` on at most `n` bytes. -/
def unescapeUpTo : Nat → Text → Option Text
  | _, [] => some []
  | 0, _ :: _ => none
  | n + 1, b :: rest =>
    if b = 0x22 ∨ b = 0x0a then none
    else if b = 0x5c then do
      let (value, rest) ← unescapeOne rest
      return value ++ (← unescapeUpTo n rest)
    else
      let (u, rest) := firstUnit b rest
      let bytes := match u with
        | .scalar c => ofChar c
        | .stray _ => ofChar '�'
      do return bytes ++ (← unescapeUpTo n rest)

/-- The value of a string literal, given what stands between its quotes. A stray
byte becomes the replacement character; a malformed escape, a bare quote or a line
end makes the literal malformed. -/
def unescape (t : Text) : Option Text := unescapeUpTo t.length t

end ImpCompiler.Text
