import LazyDispatch.Eval.Invocation
import LazyDispatch.Eval.NextMethod
import LazyDispatch.Eval.StandardGeneric
import LazyDispatch.Eval.Vectors

/-!
# Special builtins

Builtins that receive their call unevaluated.
-/

namespace LazyDispatch.Eval

/-- The builtin `quote`. -/
def quote (invocation : Invocation) : Eval Ref := do
  match ← invocation.soleExpr with
  | .literal _ value => allocLiteral value
  | .symbol _ name => allocPayload (.symbol name)
  | expr => allocPayload (.language expr)

/-- The builtin `missing`. -/
def missing (invocation : Invocation) : Eval Ref := do
  match ← invocation.soleExpr with
  | .symbol _ name =>
    if name = (← get).reserved.dots then allocLogical (← dotsArgs invocation.env).isEmpty
    else allocLogical (← isMissingArg name invocation.env)
  | _ => raise (.invalidArgument .missingNotASymbol)

variable (run : Runner)

/-- The builtin `UseMethod`. -/
def useMethodBuiltin (invocation : Invocation) : Eval Ref := do
  let (generic, object) ← invocation.exprPair
  callUseMethod run invocation.call generic object invocation.env

/-- The builtin `standardGeneric`. -/
def standardGenericBuiltin (hooks : Hooks) (invocation : Invocation) : Eval Ref := do
  let (name, _) ← invocation.exprPair
  match ← asString? (← run (.eval name invocation.env)) with
  | some name => standardGeneric run hooks name invocation.env
  | none => raise (.invalidArgument .standardGenericName)

end LazyDispatch.Eval
