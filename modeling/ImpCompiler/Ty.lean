import ImpCompiler.Text

/-!
# Ty — the types of the source language

A type is a base type under some number of array dimensions; an array of arrays has
the dimensions of both. The base type `error` is the type of nothing: it stands
where no type is known.
-/

namespace ImpCompiler

set_option autoImplicit false

inductive Base where
  | error | int | double | boolean | string | void
  deriving DecidableEq, Repr, Inhabited

namespace Base

def name : Base → Text
  | .error => "error"
  | .int => "int"
  | .double => "double"
  | .boolean => "boolean"
  | .string => "string"
  | .void => "void"

end Base

/-- A base type under `dims` array dimensions. -/
structure Ty where
  base : Base
  dims : Nat
  deriving DecidableEq, Repr, Inhabited

namespace Ty

def error : Ty := ⟨.error, 0⟩
def int : Ty := ⟨.int, 0⟩
def double : Ty := ⟨.double, 0⟩
def boolean : Ty := ⟨.boolean, 0⟩
def string : Ty := ⟨.string, 0⟩
def void : Ty := ⟨.void, 0⟩

/-- The array type of `n` dimensions over `t`; no dimension is added if `n` is not
positive. -/
def arrayOf (t : Ty) (n : Int) : Ty := ⟨t.base, t.dims + n.toNat⟩

/-- What the innermost dimension of an array holds. -/
def scalar (t : Ty) : Ty := ⟨t.base, 0⟩

def isArray (t : Ty) : Bool := t.dims != 0

def elem? (t : Ty) : Option Ty :=
  match t.dims with
  | 0 => none
  | n + 1 => some ⟨t.base, n⟩

def isNumeric (t : Ty) : Bool := t == int || t == double

def text (t : Ty) : Text := t.base.name ++ (List.replicate t.dims ("[]" : Text)).flatten

/-- What is wrong with taking the elements of `t`, which is not an array. -/
def noElementMessage (t : Ty) : Text := "cannot take element type of non-array type " ++ t.text

end Ty

/-- The kind of a type: its base type, or that it is an array. -/
inductive Kind where
  | base (b : Base)
  | array
  deriving DecidableEq, Repr

namespace Kind

def all : List Kind :=
  [.base .error, .base .int, .base .double, .base .boolean, .base .string, .base .void, .array]

def name : Kind → Text
  | .base b => b.name
  | .array => "array"

def number (k : Kind) : Nat := all.idxOf k

/-- The name of the kind with a number, also for a number that no kind has. -/
def nameOfNumber (n : Int) : Text :=
  match if 0 ≤ n then all[n.toNat]? else none with
  | some k => k.name
  | none => "kind(" ++ Text.ofInt n ++ ")"

end Kind

namespace Ty

def kind (t : Ty) : Kind := if t.isArray then .array else .base t.base

/-- The kind of the base of an array; `error` if the type is no array. -/
def elemKind (t : Ty) : Kind := if t.isArray then .base t.base else .base .error

end Ty

/-- The type of a function: those of its parameters, and the one it returns. -/
structure Signature where
  params : List Ty
  ret : Ty
  deriving DecidableEq, Repr, Inhabited

def Signature.text (s : Signature) : Text :=
  "(" ++ Text.joinWith ", " (s.params.map Ty.text) ++ ") -> " ++ s.ret.text

end ImpCompiler
