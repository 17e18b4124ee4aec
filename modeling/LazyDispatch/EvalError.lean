import LazyDispatch.Ref

/-!
# Evaluation errors

The errors that evaluation reports, by cause.  An early return travels like an
error until the closure whose frame it names catches it.
-/

namespace LazyDispatch

/-- What is wrong with an argument. -/
inductive ArgumentError where
  /-- `...` is used where no function has it as a formal. -/
  | dotsOutOfContext
  /-- An empty argument is evaluated. -/
  | emptyArgument
  | argumentCount (count : Nat) (builtin : String) (least most : Nat)
  | specialArgumentCount (count : Nat) (builtin : String)
  | argumentMissing (position : Nat) (builtin : String)
  | genericNotAString (call : String)
  | nextMethodAnonymous
  | nextMethodGeneric
  | standardGenericName
  | missingNotASymbol
  | missingNotAnArgument
  | attributeOnNull
  | invalidClass
  | unclassEnvironment
  | whatNotCharacter
  | invalidFrameCount
  | noSuchFrame

/-- The text of a wrong argument. -/
def ArgumentError.message : ArgumentError → String
  | dotsOutOfContext => "'...' used in an incorrect context"
  | emptyArgument => "argument is missing, with no default"
  | argumentCount count builtin least most =>
    let required :=
      if least = most then toString least else toString least ++ " to " ++ toString most
    toString count ++ " arguments passed to '" ++ builtin ++ "' which requires " ++ required
  | specialArgumentCount count builtin =>
    toString count ++ " arguments passed to '" ++ builtin ++ "'"
  | argumentMissing position builtin =>
    "argument " ++ toString position ++ " of '" ++ builtin ++ "' is missing"
  | genericNotAString call => "'generic' argument must be a character string in " ++ call
  | nextMethodAnonymous => "'NextMethod' called from an anonymous function"
  | nextMethodGeneric => "invalid generic argument to 'NextMethod'"
  | standardGenericName => "argument to 'standardGeneric' must be a non-empty character string"
  | missingNotASymbol => "invalid use of 'missing'"
  | missingNotAnArgument => "'missing' can only be used for arguments"
  | attributeOnNull => "attempt to set an attribute on NULL"
  | invalidClass => "attempt to set invalid 'class' attribute"
  | unclassEnvironment => "cannot unclass an environment"
  | whatNotCharacter => "'what' must be a character vector"
  | invalidFrameCount => "invalid 'n' value"
  | noSuchFrame => "not that many frames on the stack"

/-- Which operation does not apply to the types of its operands. -/
inductive TypeError where
  | integerOverflow
  | nonNumeric
  | invalidUnary
  | notAtomic
  | notLogical
  | emptyCondition
deriving DecidableEq

/-- The text of a type error. -/
def TypeError.message : TypeError → String
  | integerOverflow => "integer overflow"
  | nonNumeric => "non-numeric argument to binary operator"
  | invalidUnary => "invalid unary operator"
  | notAtomic => "comparison is possible only for atomic types"
  | notLogical => "argument is not interpretable as logical"
  | emptyCondition => "argument is of length zero"

/-- The errors that evaluation reports. -/
inductive EvalError where
  | noApplicableMethod (generic cls : String)
  | outsideFunction
  | inappropriateUse
  | outsideMethodDispatch
  | noMethodToInvoke
  | noMoreMethods (generic : String)
  | noCallingGeneric
  | genericNotSpecified
  | objectNotSpecified
  | invalidArgument (cause : ArgumentError)
  | unusedArguments (count : Nat) (args call : String)
  | multipleMatch (formal : String)
  | ambiguousArgument (position : Nat)
  | missingArgument (name : String)
  | unboundVariable (name : String)
  | functionNotFound (name : String)
  | notAFunction
  | recursivePromise
  | type (cause : TypeError)
  /-- Raised by `stop()` and by hooks of the host. -/
  | user (message : String)
  /-- An early return with a value from the closure that works in `env`. -/
  | earlyReturn (value env : Ref)
  | noNonGeneric (name : String)
  | notFromGeneric (name : String)
  | methodsUnavailable (name : String)
  | tooDeep

/-- The text of an error. -/
def EvalError.message : EvalError → String
  | noApplicableMethod generic cls =>
    "no applicable method for '" ++ generic ++ "' applied to an object of class " ++ cls
  | outsideFunction => "UseMethod called from outside a function"
  | inappropriateUse => "'UseMethod' used in an inappropriate fashion"
  | outsideMethodDispatch => "NextMethod called from outside a method dispatch"
  | noMethodToInvoke => "no method to invoke"
  | noMoreMethods generic => "no more methods for '" ++ generic ++ "'"
  | noCallingGeneric => "no calling generic was found: was a method called directly?"
  | genericNotSpecified => "generic function not specified"
  | objectNotSpecified => "object not specified"
  | invalidArgument cause => cause.message
  | unusedArguments count args call =>
    "unused argument" ++ (if count = 1 then "" else "s") ++ " (" ++ args ++ ") in " ++ call
  | multipleMatch formal =>
    "formal argument \"" ++ formal ++ "\" matched by multiple actual arguments"
  | ambiguousArgument position =>
    "argument " ++ toString position ++ " matches multiple formal arguments"
  | missingArgument name => "argument \"" ++ name ++ "\" is missing, with no default"
  | unboundVariable name => "object '" ++ name ++ "' not found"
  | functionNotFound name => "could not find function \"" ++ name ++ "\""
  | notAFunction => "attempt to apply non-function"
  | recursivePromise =>
    "promise already under evaluation: recursive default argument reference or earlier problems?"
  | type cause => cause.message
  | user message => message
  | earlyReturn _ _ => "no function to return from, jumping to top level"
  | noNonGeneric name => "unable to find a non-generic version of function \"" ++ name ++ "\""
  | notFromGeneric name =>
    "call to standardGeneric(\"" ++ name ++
      "\") apparently not from the body of that generic function"
  | methodsUnavailable name =>
    "primitive function \"" ++ name ++
      "\" has been set for methods but no generic function supplied"
  | tooDeep => "evaluation nested too deeply: infinite recursion?"

end LazyDispatch
