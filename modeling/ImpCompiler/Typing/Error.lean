import ImpCompiler.Tree

/-!
# Typing.Error — why a program is not well typed

An error has a cause and the place of the offending node. Causes fall into numbered
kinds, which have names of their own; two causes of one kind differ in their
message.
-/

namespace ImpCompiler

set_option autoImplicit false

inductive ErrorKind where
  | undeclaredVariable | undeclaredFunction | duplicateVariable | duplicateFunction
  | invalidOperandType | incompatibleOperandTypes | arityError | argumentTypeError
  | assignmentTypeMismatch | initializerTypeMismatch | conditionNotBoolean | returnTypeMismatch
  | missingReturn | expressionMustBeVoid | notAnInteger | notAnArray | unknownMember
  | invalidIndexDepth | onlyIntegerIndicesAllowed | missingMain | indexingOfNonArrayType
  | loopVariableTypeMismatch | voidVariable
  deriving DecidableEq, Repr

namespace ErrorKind

def all : List ErrorKind :=
  [.undeclaredVariable, .undeclaredFunction, .duplicateVariable, .duplicateFunction,
   .invalidOperandType, .incompatibleOperandTypes, .arityError, .argumentTypeError,
   .assignmentTypeMismatch, .initializerTypeMismatch, .conditionNotBoolean, .returnTypeMismatch,
   .missingReturn, .expressionMustBeVoid, .notAnInteger, .notAnArray, .unknownMember,
   .invalidIndexDepth, .onlyIntegerIndicesAllowed, .missingMain, .indexingOfNonArrayType,
   .loopVariableTypeMismatch, .voidVariable]

def name : ErrorKind → Text
  | .undeclaredVariable => "UndeclaredVariable"
  | .undeclaredFunction => "UndeclaredFunction"
  | .duplicateVariable => "DuplicateVariable"
  | .duplicateFunction => "DuplicateFunction"
  | .invalidOperandType => "InvalidOperandType"
  | .incompatibleOperandTypes => "IncompatibleOperandTypes"
  | .arityError => "ArityError"
  | .argumentTypeError => "ArgumentTypeError"
  | .assignmentTypeMismatch => "AssignmentTypeMismatch"
  | .initializerTypeMismatch => "InitializerTypeMismatch"
  | .conditionNotBoolean => "ConditionNotBoolean"
  | .returnTypeMismatch => "ReturnTypeMismatch"
  | .missingReturn => "MissingReturn"
  | .expressionMustBeVoid => "ExpressionMustBeVoid"
  | .notAnInteger => "NotAnInteger"
  | .notAnArray => "NotAnArray"
  | .unknownMember => "UnknownMember"
  | .invalidIndexDepth => "InvalidIndexDepth"
  | .onlyIntegerIndicesAllowed => "OnlyIntegerIndicesAllowed"
  | .missingMain => "MissingMain"
  | .indexingOfNonArrayType => "IndexingOfNonArrayType"
  | .loopVariableTypeMismatch => "LoopVariableTypeMismatch"
  | .voidVariable => "VoidVariable"

/-- The name of the kind with a number, also for a number that no kind has. -/
def nameOfNumber (n : Int) : Text :=
  match if 0 ≤ n then all[n.toNat]? else none with
  | some k => k.name
  | none => "ErrorKind(" ++ Text.ofInt n ++ ")"

end ErrorKind

inductive TypeCause where
  | undeclaredVariable (name : Text)
  | undeclaredFunction (name : Text)
  | duplicateVariable (name : Text)
  | duplicateFunction (name : Text)
  | unaryOperand (type : Ty) (op : UnOp)
  | binaryOperand (type : Ty) (op : BinOp)
  | arrayElement (elem : Ty)
  | incompatibleOperands (left right : Ty) (op : BinOp)
  | arity (function : Text) (expected got : Nat)
  | argument (number : Nat) (function : Text) (expected got : Ty)
  | notAssignable
  | assignment (value target : Ty)
  | initializer (declared : Ty) (name : Text) (got : Ty)
  | condition (got : Ty)
  | valueFromVoid (function : Text)
  | returned (function : Text) (expected got : Ty)
  | nothingReturned (function : Text) (expected : Ty)
  | missingReturn (function : Text) (expected : Ty)
  | unusedValue (got : Ty)
  | counter (name : Text) (got : Ty)
  | memberOf (got : Ty)
  | iteration (got : Ty)
  | unknownMember (member : Text) (type : Ty)
  | indexDepth (type : Ty) (indices : Nat)
  | missingSize
  | indexType (got : Ty)
  | sizeType (got : Ty)
  | missingMain
  | notIndexable
  | loopVariable (name : Text) (declared elem : Ty)
  | voidVariable
  | voidParameter (name : Text)
  deriving DecidableEq, Repr

namespace TypeCause

def kind : TypeCause → ErrorKind
  | .undeclaredVariable _ => .undeclaredVariable
  | .undeclaredFunction _ => .undeclaredFunction
  | .duplicateVariable _ => .duplicateVariable
  | .duplicateFunction _ => .duplicateFunction
  | .unaryOperand .. | .binaryOperand .. | .arrayElement _ => .invalidOperandType
  | .incompatibleOperands .. => .incompatibleOperandTypes
  | .arity .. => .arityError
  | .argument .. => .argumentTypeError
  | .notAssignable | .assignment .. => .assignmentTypeMismatch
  | .initializer .. => .initializerTypeMismatch
  | .condition _ => .conditionNotBoolean
  | .valueFromVoid _ | .returned .. | .nothingReturned .. => .returnTypeMismatch
  | .missingReturn .. => .missingReturn
  | .unusedValue _ => .expressionMustBeVoid
  | .counter .. => .notAnInteger
  | .memberOf _ | .iteration _ => .notAnArray
  | .unknownMember .. => .unknownMember
  | .indexDepth .. | .missingSize => .invalidIndexDepth
  | .indexType _ | .sizeType _ => .onlyIntegerIndicesAllowed
  | .missingMain => .missingMain
  | .notIndexable => .indexingOfNonArrayType
  | .loopVariable .. => .loopVariableTypeMismatch
  | .voidVariable | .voidParameter _ => .voidVariable

def message : TypeCause → Text
  | .undeclaredVariable name => "undeclared variable " ++ name
  | .undeclaredFunction name => "undeclared function " ++ name
  | .duplicateVariable name => "variable " ++ name ++ " already declared in this scope"
  | .duplicateFunction name => "function " ++ name ++ " already declared"
  | .unaryOperand t op => "invalid operand type " ++ t.text ++ " for unary operator " ++ op.text
  | .binaryOperand t op => "invalid operand type " ++ t.text ++ " for operator " ++ op.text
  | .arrayElement t => "cannot construct array of " ++ t.text
  | .incompatibleOperands t u op =>
    "incompatible operand types " ++ t.text ++ " and " ++ u.text ++ " for operator " ++ op.text
  | .arity f n m =>
    "function " ++ f ++ " expects " ++ Text.ofNat n ++ " arguments, got " ++ Text.ofNat m
  | .argument i f t u =>
    "argument " ++ Text.ofNat i ++ " of " ++ f ++ ": expected " ++ t.text ++ ", got " ++ u.text
  | .notAssignable => "cannot assign to expression"
  | .assignment value target => "cannot assign " ++ value.text ++ " to " ++ target.text
  | .initializer t name u => "cannot initialise " ++ t.text ++ " " ++ name ++ " with " ++ u.text
  | .condition t => "condition must be boolean, got " ++ t.text
  | .valueFromVoid f => "void function " ++ f ++ " cannot return a value"
  | .returned f t u => "function " ++ f ++ " returns " ++ t.text ++ ", got " ++ u.text
  | .nothingReturned f t => "function " ++ f ++ " must return " ++ t.text
  | .missingReturn f t => "function " ++ f ++ " may end without returning " ++ t.text
  | .unusedValue t => "expression statement must be void, got " ++ t.text
  | .counter name t => name ++ " must be int, got " ++ t.text
  | .memberOf t => "expected array, got " ++ t.text
  | .iteration t => "cannot iterate over " ++ t.text
  | .unknownMember m t => "unknown member " ++ m ++ " of type " ++ t.text
  | .indexDepth t n => "cannot index " ++ t.text ++ " with " ++ Text.ofNat n ++ " indices"
  | .missingSize => "array construction requires at least one size"
  | .indexType t => "array index must be int, got " ++ t.text
  | .sizeType t => "array size must be int, got " ++ t.text
  | .missingMain => "missing function main"
  | .notIndexable => "expression cannot be indexed"
  | .loopVariable name t u =>
    "loop variable " ++ name ++ " has type " ++ t.text ++ ", elements have type " ++ u.text
  | .voidVariable => "variables cannot have type void"
  | .voidParameter name => "parameter " ++ name ++ " cannot have type void"

end TypeCause

/-- A cause and the place of the node it was found at. -/
structure TypeError where
  cause : TypeCause
  pos : Pos
  deriving DecidableEq, Repr

/-- A message with its place, if it is the place of a source text. -/
def Pos.locate (p : Pos) (message : Text) : Text :=
  if p.line < 1 then message else "line " ++ p.text ++ ": " ++ message

def Text.within (context message : Text) : Text := context ++ ": " ++ message

def TypeError.message (e : TypeError) : Text := e.pos.locate e.cause.message

end ImpCompiler
