import Dispatch.Value

/-!
# What can be raised

An error is a cause. Its class and its message are functions of the cause. An arity says how many
positional arguments a method takes: the required ones, and up to so many more.
-/

namespace Dispatch

structure Arity where
  required : Nat
  optional : Nat
  deriving DecidableEq

namespace Arity

def most (arity : Arity) : Nat := arity.required + arity.optional

def accepts (arity : Arity) (given : Nat) : Bool :=
  decide (arity.required ≤ given ∧ given ≤ arity.most)

def display (arity : Arity) : String :=
  if arity.optional = 0 then arity.required.repr
  else arity.required.repr ++ ".." ++ arity.most.repr

def exactly (n : Nat) : Arity := ⟨n, 0⟩

theorem accepts_iff {arity : Arity} {given : Nat} :
    arity.accepts given = true ↔ arity.required ≤ given ∧ given ≤ arity.most := decide_eq_true_iff

theorem accepts_exactly (n given : Nat) : (exactly n).accepts given = (given == n) := by
  rw [Bool.eq_iff_iff, accepts_iff, beq_iff_eq]
  show n ≤ given ∧ given ≤ n + 0 ↔ given = n
  omega

end Arity

inductive Error
  | arity (given : Nat) (expected : Arity)
  | missingArgument (name : String)
  | missingKeyword (name : String)
  | unknownKeyword (name : String)
  | typeMismatch (expected found : Kind)
  | noMethod (method receiver : String)
  | invalidName (name : String)
  | uninitializedConstant (name : String)
  | nilField (name : String)
  | signature (text : String)
  | duplicateParam (name : String)
  | call (text : String)
  deriving DecidableEq

namespace Error

def className : Error → String
  | .arity .. | .missingArgument _ | .missingKeyword _ | .unknownKeyword _ => "ArgumentError"
  | .typeMismatch .. => "TypeError"
  | .noMethod .. => "NoMethodError"
  | .invalidName _ | .uninitializedConstant _ => "NameError"
  | .nilField _ => "StandardError"
  | .signature _ | .duplicateParam _ | .call _ => "SyntaxError"

def message : Error → String
  | .arity given expected =>
    "wrong number of arguments (given " ++ given.repr ++ ", expected " ++ expected.display ++ ")"
  | .missingArgument name => "missing argument `" ++ name ++ "`"
  | .missingKeyword name => "missing keyword: :" ++ name
  | .unknownKeyword name => "unknown keyword: :" ++ name
  | .typeMismatch expected found =>
    "no implicit conversion of " ++ found.className ++ " into " ++ expected.className
  | .noMethod method receiver => "undefined method `" ++ method ++ "' for " ++ receiver
  | .invalidName name => "invalid attribute name `" ++ name ++ "'"
  | .uninitializedConstant name => "uninitialized constant " ++ name
  | .nilField name => name ++ " field is nil."
  | .signature text => "parsing signature `" ++ text ++ "` failed"
  | .duplicateParam name => "duplicated argument name `" ++ name ++ "`"
  | .call text => "parsing call `" ++ text ++ "` failed"

end Error

end Dispatch
