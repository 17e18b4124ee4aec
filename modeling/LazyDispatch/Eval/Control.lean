import LazyDispatch.Eval.Invocation
import LazyDispatch.Eval.Vectors

/-!
# Builtins on the flow of evaluation

Early returns, messages, the calls in progress and collections.
-/

namespace LazyDispatch.Eval

/-- The optional first argument, or `NULL`. -/
def argOrNull (invocation : Invocation) : Eval Ref := do
  invocation.requireCount 0 1
  return (invocation.arg? 0).getD (← get).fixed.null

/-- The builtin `return`: leaves the closure that works in the environment of
the call. -/
def returnValue (invocation : Invocation) : Eval Ref := do
  let value ← argOrNull invocation
  raise (.earlyReturn value invocation.env)

/-- The message of a call of `stop` or `warning`: the texts of its arguments. -/
def messageText (invocation : Invocation) : Query String := do
  let texts : List String ← (Args.values invocation.args).mapM fun ref =>
    return (← payload ref).messageText
  return String.join texts

/-- The builtin `stop`. -/
def stop (invocation : Invocation) : Eval Ref := do
  raise (.user (← messageText invocation))

/-- The builtin `warning`. -/
def warning (invocation : Invocation) : Eval Ref := do
  let message ← messageText invocation
  warn message
  allocStrings [message]

/-- The builtin `environment`: the environment of a closure, or of the call. -/
def environmentOf (invocation : Invocation) : Eval Ref := do
  invocation.requireCount 0 1
  let null := (← get).fixed.null
  match (invocation.arg? 0).filter (· ≠ null) with
  | none => return invocation.env
  | some ref =>
    match ← payload ref with
    | .closure fn => return fn.env
    | _ => return null

/-- The environment a number of callers above `env`; outside of all calls it is
the global one. -/
def callerEnv (state : Interpreter) : Nat → Ref → Ref
  | 0, env => env
  | n + 1, env =>
    match state.functionWithEnv? env with
    | some context => callerEnv state n context.caller
    | none => state.fixed.global

/-- The builtin `parent.frame`. -/
def parentFrame (invocation : Invocation) : Eval Ref := do
  invocation.requireCount 0 1
  match invocation.arg? 0 with
  | none => return callerEnv (← get) 1 invocation.env
  | some ref =>
    match (← asInteger? ref).filter (1 ≤ ·) with
    | some count => return callerEnv (← get) count.toInt.toNat invocation.env
    | none => raise (.invalidArgument .invalidFrameCount)

/-- The builtin `sys.call`: the call in progress, as a quoted expression. -/
def sysCall (invocation : Invocation) : Eval Ref := do
  invocation.requireCount 0 0
  let state ← get
  match state.functionWithEnv? invocation.env with
  | some context => allocPayload (.language context.call)
  | none => return state.fixed.null

/-- The builtin `sys.function`: the function in progress. -/
def sysFunction (invocation : Invocation) : Eval Ref := do
  invocation.requireCount 0 0
  match (← get).functionWithEnv? invocation.env with
  | some context => return context.fn
  | none => raise (.invalidArgument .noSuchFrame)

/-- The builtin `is.function`. -/
def isFunction (invocation : Invocation) : Eval Ref := do
  invocation.requireCount 1 1
  allocLogical (← payload (← invocation.arg 0)).isFunction

/-- The builtin `gc`: the number of cells that a collection reclaimed, and of
those in use. -/
def gc (invocation : Invocation) : Eval Ref := do
  invocation.requireCount 0 0
  let reclaimed ← collectGarbage
  let used := (← get).heap.allocatedCells
  allocPayload (.integer [.ofNat reclaimed, .ofNat used])

end LazyDispatch.Eval
