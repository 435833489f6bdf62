import ImpCompiler.Typing.Error

/-!
# Typing.Env — what is declared

An environment has a stack of scopes, the innermost first, the signatures of all
functions, and the function that is being checked. A name may be declared again in
an inner scope, where it hides the outer one, but not twice in one scope.
-/

namespace ImpCompiler

set_option autoImplicit false

/-- The names declared in one scope and their types, the latest first. -/
abbrev Scope := List (Text × Ty)

structure Env where
  scopes : List Scope
  signatures : List (Text × Signature)
  /-- The name of the function being checked; empty before the first. -/
  current : Text
  currentType : Signature
  deriving Repr

/-- A demand on an environment that it cannot meet. -/
inductive ScopeMisuse where
  | exitWithoutScope
  | declareWithoutScope (name : Text)
  deriving DecidableEq, Repr

def ScopeMisuse.message : ScopeMisuse → Text
  | .exitWithoutScope => "ExitScope called with no scope pushed"
  | .declareWithoutScope name => "AddVar(" ++ name ++ ") called with no scope pushed"

inductive Stop where
  | error (e : TypeError)
  | misuse (m : ScopeMisuse)
  deriving DecidableEq, Repr

namespace Env

def empty : Env := ⟨[], [], [], ⟨[], Ty.error⟩⟩

def enter (env : Env) : Env := { env with scopes := [] :: env.scopes }

def exit? (env : Env) : Except ScopeMisuse Env :=
  match env.scopes with
  | [] => .error .exitWithoutScope
  | _ :: rest => .ok { env with scopes := rest }

/-- Closes the innermost scope, if there is one. -/
def leave (env : Env) : Env := { env with scopes := env.scopes.tail }

def depth (env : Env) : Nat := env.scopes.length

def declare (env : Env) (name : Text) (t : Ty) (p : Pos) : Except Stop Env :=
  match env.scopes with
  | [] => .error (.misuse (.declareWithoutScope name))
  | scope :: rest =>
    if (scope.lookup name).isSome then .error (.error ⟨.duplicateVariable name, p⟩)
    else .ok { env with scopes := ((name, t) :: scope) :: rest }

/-- The type of a variable in the innermost of `scopes` that declares it. -/
def lookupIn : List Scope → Text → Option Ty
  | [], _ => none
  | scope :: rest, name => (scope.lookup name).or (lookupIn rest name)

def typeOf (env : Env) (name : Text) (p : Pos) : Except TypeError Ty :=
  match lookupIn env.scopes name with
  | some t => .ok t
  | none => .error ⟨.undeclaredVariable name, p⟩

def addFunction (env : Env) (name : Text) (s : Signature) (p : Pos) : Except TypeError Env :=
  if (env.signatures.lookup name).isSome then .error ⟨.duplicateFunction name, p⟩
  else .ok { env with signatures := (name, s) :: env.signatures }

def signatureOf (env : Env) (name : Text) (p : Pos) : Except TypeError Signature :=
  match env.signatures.lookup name with
  | some s => .ok s
  | none => .error ⟨.undeclaredFunction name, p⟩

def enterFunction (env : Env) (name : Text) (p : Pos) : Except TypeError Env :=
  match env.signatureOf name p with
  | .ok s => .ok { env with current := name, currentType := s }
  | .error e => .error e

end Env

/-- The functions every program may call. -/
def builtins : List (Text × Signature) :=
  [("printInt", ⟨[Ty.int], Ty.void⟩),
   ("printDouble", ⟨[Ty.double], Ty.void⟩),
   ("printString", ⟨[Ty.string], Ty.void⟩),
   ("readInt", ⟨[], Ty.int⟩),
   ("readDouble", ⟨[], Ty.double⟩)]

def isBuiltin (name : Text) : Bool := (builtins.lookup name).isSome

end ImpCompiler
