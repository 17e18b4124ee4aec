import LazyDispatch.Eval.Basic

/-!
# Calls of builtins

What a builtin receives: its evaluated arguments, the call and the environment
of the call.  A special builtin receives no arguments and reads the call
instead.
-/

namespace LazyDispatch

/-- A call of a builtin. -/
structure Invocation where
  builtin : Builtin
  call : Expr
  args : List Arg
  /-- The environment that the call is evaluated in. -/
  env : Ref

namespace Invocation

/-- Raises an error unless the number of arguments is in a range. -/
def requireCount (least most : Nat) (invocation : Invocation) : Query Unit := do
  let count := invocation.args.length
  unless least ≤ count ∧ count ≤ most do
    raise (.invalidArgument (.argumentCount count invocation.builtin.name least most))

/-- The value of an argument, unless it is absent or empty. -/
def arg? (position : Nat) (invocation : Invocation) : Option Ref := do
  (← invocation.args[position]?).value

/-- The value of an argument. -/
def arg (position : Nat) (invocation : Invocation) : Query Ref :=
  match invocation.arg? position with
  | some ref => return ref
  | none => raise (.invalidArgument (.argumentMissing (position + 1) invocation.builtin.name))

/-- The only unevaluated argument of the call. -/
def soleExpr (invocation : Invocation) : Query Expr :=
  match invocation.call.callArgs with
  | [arg] => return arg.value
  | args => raise (.invalidArgument (.specialArgumentCount args.length invocation.builtin.name))

/-- The one or two unevaluated arguments of the call. -/
def exprPair (invocation : Invocation) : Query (Expr × Option Expr) :=
  match invocation.call.callArgs with
  | [first] => return (first.value, none)
  | [first, second] => return (first.value, some second.value)
  | args => raise (.invalidArgument (.specialArgumentCount args.length invocation.builtin.name))

end Invocation

end LazyDispatch
