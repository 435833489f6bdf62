import ImpCompiler.Text

/-!
# Text.Utf8 — code points in a byte string

A byte string is read as a sequence of units: a well-formed UTF-8 encoding of a code
point, or else a single stray byte. Reading never fails and loses no byte.
-/

namespace ImpCompiler.Text

set_option autoImplicit false

/-- What a byte string is made of: encoded code points and bytes that belong to
none. -/
inductive CodeUnit where
  | scalar (c : Char)
  | stray (b : UInt8)
  deriving DecidableEq, Repr

/-- The low six bits of a continuation byte. -/
def continuation? (b : UInt8) : Option Nat :=
  if 0x80 ≤ b ∧ b ≤ 0xbf then some (b.toNat - 0x80) else none

/-- The code point `n`, if it is one and its shortest encoding starts at `least`. -/
def scalar? (least n : Nat) : Option Char :=
  if h : least ≤ n ∧ n.isValidChar then some (Char.ofNatAux n h.2) else none

/-- The code point encoded at the start of a text and the number of its bytes. -/
def decodeChar? : Text → Option (Char × Nat)
  | [] => none
  | b :: rest =>
    if b < 0x80 then (scalar? 0 b.toNat).map (·, 1)
    else if 0xc0 ≤ b ∧ b ≤ 0xdf then
      match rest with
      | c :: _ => do
        let x ← continuation? c
        let u ← scalar? 0x80 ((b.toNat - 0xc0) * 64 + x)
        return (u, 2)
      | [] => none
    else if 0xe0 ≤ b ∧ b ≤ 0xef then
      match rest with
      | c :: d :: _ => do
        let x ← continuation? c
        let y ← continuation? d
        let u ← scalar? 0x800 (((b.toNat - 0xe0) * 64 + x) * 64 + y)
        return (u, 3)
      | _ => none
    else if 0xf0 ≤ b ∧ b ≤ 0xf7 then
      match rest with
      | c :: d :: e :: _ => do
        let x ← continuation? c
        let y ← continuation? d
        let z ← continuation? e
        let u ← scalar? 0x10000 ((((b.toNat - 0xf0) * 64 + x) * 64 + y) * 64 + z)
        return (u, 4)
      | _ => none
    else none

/-- The first unit of a nonempty text and the bytes behind it. -/
def firstUnit (b : UInt8) (rest : Text) : CodeUnit × Text :=
  match decodeChar? (b :: rest) with
  | some (c, n) => (.scalar c, rest.drop (n - 1))
  | none => (.stray b, rest)

def unitsUpTo : Nat → Text → List CodeUnit
  | 0, _ => []
  | _ + 1, [] => []
  | n + 1, b :: rest => (firstUnit b rest).1 :: unitsUpTo n (firstUnit b rest).2

/-- The units of a text: there are no more of them than bytes. -/
def units (t : Text) : List CodeUnit := unitsUpTo t.length t

/-- The number of units of a text: its width on a page. -/
def width (t : Text) : Nat := (units t).length

def ofChar (c : Char) : Text := String.utf8EncodeChar c

end ImpCompiler.Text
