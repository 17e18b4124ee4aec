import LazyDispatch.Eval.Lookup
import LazyDispatch.Expr.Text
import LazyDispatch.Matching

/-!
# Arguments of calls

A closure receives its arguments as promises, a builtin receives their values.
In both cases `...` stands for the arguments that the calling function gathered,
and every new object is protected.
-/

namespace LazyDispatch.Eval

/-- The text of an expression. -/
def exprText (expr : Expr) : Query String :=
  return expr.text (← read).symbolName

/-- The text of the value of an argument in messages: the expression of a
promise, a constant, or the type of anything else. -/
def valueText (ref : Ref) : Query String := do
  match ← payload ref with
  | .promise deferred => exprText deferred.expr
  | .null => return "NULL"
  | .integer [i] => return integerText i ++ "L"
  | .double [d] => return Text.doubleText d
  | .logical [b] => return logicalText b
  | .character [s] => return Text.quote s
  | other => return "<" ++ other.typeName ++ ">"

/-- The text of an argument in messages. -/
def argText (arg : Arg) : Query String := do
  let value ← match arg.value with
    | some ref => valueText ref
    | none => pure ""
  return tagged (← read).symbolName arg.tag value

/-- Matches arguments to formals and reports errors about the call. -/
def matchCall (call : Expr) (formals : List Formal) (actuals : List Arg) :
    Query (List Matched) := do
  let state ← read
  match matchArgs state.symbolName state.reserved.dots formals actuals with
  | .ok matched => return matched
  | .error (.unused indices) =>
    let args ← (indices.filterMap (actuals[·]?)).mapM argText
    raise (.unusedArguments indices.length (", ".intercalate args) (← exprText call))
  | .error (.multipleMatch formal) => raise (.multipleMatch (← symbolName formal))
  | .error (.ambiguous index) => raise (.ambiguousArgument (index + 1))

/-- The arguments that `...` stands for in an environment. -/
def dotsArgs (env : Ref) : Query (List Arg) := do
  match ← findVar (← read).reserved.dots env with
  | ⟨.unbound, _⟩ => raise (.invalidArgument .dotsOutOfContext)
  | ⟨.missing, _⟩ | ⟨_, none⟩ => return []
  | ⟨_, some ref⟩ =>
    match ← payload ref with
    | .dots args => return args
    | _ => return []

/-- A protected value as an argument. -/
def protectedArg (tag : Option Symbol) (ref : Ref) : Eval Arg := do
  let _ ← protect ref
  return ⟨tag, some ref⟩

/-- Wraps an argument of a call for a closure: constants stand for themselves,
everything else becomes a promise. -/
def promiseArg (env : Ref) (arg : ExprArg) : Eval (List Arg) := do
  match arg.value with
  | .missing _ => return [⟨arg.tag, none⟩]
  | .literal _ value => return [← protectedArg arg.tag (← allocLiteral value)]
  | .symbol _ name =>
    if name = (← get).reserved.dots then dotsArgs env
    else return [← protectedArg arg.tag (← allocPromise arg.value env)]
  | expr => return [← protectedArg arg.tag (← allocPromise expr env)]

/-- Wraps the arguments of a call for a closure. -/
def promiseArgs (args : List ExprArg) (env : Ref) : Eval (List Arg) :=
  return (← args.mapM (promiseArg env)).flatten

/-- Wraps values as promises that are forced already.  The promises show the
arguments of the call if there are as many of them as values. -/
def forcedPromiseArgs (call : Expr) (args : List Arg) : Eval (List Arg) := do
  let exprs :=
    if call.callArgs.length = args.length then call.callArgs.map (·.value)
    else args.map fun _ => .literal 0 .null
  (args.zip exprs).mapM fun (arg, expr) => do
    match arg.value with
    | none => return arg
    | some value => protectedArg arg.tag (← allocPayload (.promise (.forced expr value)))

variable (run : Runner)

/-- Forces an argument and protects its value. -/
def forceArg (arg : Arg) : Eval Arg := do
  match arg.value with
  | none => return arg
  | some ref => protectedArg arg.tag (← forceValue run ref)

/-- Evaluates an argument of a call for a builtin. -/
def evalArg (env : Ref) (arg : ExprArg) : Eval (List Arg) := do
  match arg.value with
  | .missing _ => return [⟨arg.tag, none⟩]
  | .symbol _ name =>
    if name = (← get).reserved.dots then (← dotsArgs env).mapM (forceArg run)
    else return [← protectedArg arg.tag (← run (.eval arg.value env))]
  | expr => return [← protectedArg arg.tag (← run (.eval expr env))]

/-- Evaluates the arguments of a call for a builtin. -/
def evalArgs (args : List ExprArg) (env : Ref) : Eval (List Arg) :=
  return (← args.mapM (evalArg run env)).flatten

end LazyDispatch.Eval
