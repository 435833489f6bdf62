/-!
# Text — byte strings

Source code, names and everything the compiler prints are byte strings: a source
file need not be well-formed UTF-8, and a name or a literal taken from it reaches
messages and listings byte for byte. A Lean string literal stands for its UTF-8
bytes.
-/

namespace ImpCompiler

set_option autoImplicit false

/-- A byte string. -/
abbrev Text := List UInt8

namespace Text

def ofString (s : String) : Text := s.toUTF8.data.toList

instance : Coe String Text := ⟨ofString⟩

/-- The bytes of a text as a string, unless the text is not well-formed UTF-8. -/
def toString? (t : Text) : Option String := String.fromUTF8? ⟨t.toArray⟩

def ofNat (n : Nat) : Text := (Nat.toDigits 10 n).map fun c => c.toNat.toUInt8

/-- The decimal digits of an integer, with a minus sign if it is negative. -/
def ofInt : Int → Text
  | .ofNat n => ofNat n
  | .negSucc n => "-" ++ ofNat (n + 1)

def blanks (n : Nat) : Text := List.replicate n 0x20

def zeros (n : Nat) : Text := List.replicate n 0x30

/-- The digits of a number, right-aligned in a field of `width` bytes. -/
def padLeft (width : Nat) (t : Text) : Text := blanks (width - t.length) ++ t

/-- The parts with `sep` between neighbours. -/
def joinWith (sep : Text) (parts : List Text) : Text := (parts.intersperse sep).flatten

def concatMap {α : Type} (xs : List α) (f : α → Text) : Text := xs.flatMap f

/-- The lower-case hexadecimal digits of `n`, at least `width` of them. -/
def hex (width : Nat) (n : Nat) : Text :=
  let digits := (Nat.toDigits 16 n).map fun c => c.toNat.toUInt8
  zeros (width - digits.length) ++ digits

/-- The part after the last byte `b`, or all of the text if `b` does not occur. -/
def afterLast (b : UInt8) (t : Text) : Text :=
  (t.reverse.takeWhile (· != b)).reverse

end Text

/-- A place in a source text: line and column, both counted from 1, columns in
bytes. A place that is not in a source text may have any numbers. -/
structure Pos where
  line : Int
  col : Int
  deriving DecidableEq, Repr, Inhabited

namespace Pos

def start : Pos := ⟨1, 1⟩

def unknown : Pos := ⟨0, 0⟩

def step (p : Pos) (b : UInt8) : Pos :=
  if b = 0x0a then ⟨p.line + 1, 1⟩ else ⟨p.line, p.col + 1⟩

def advance (p : Pos) (t : Text) : Pos := t.foldl step p

/-- `line:col` in decimal. -/
def text (p : Pos) : Text := Text.ofInt p.line ++ ":" ++ Text.ofInt p.col

end Pos

end ImpCompiler
