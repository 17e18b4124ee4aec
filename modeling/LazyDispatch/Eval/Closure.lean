import LazyDispatch.Eval.Arguments

/-!
# Calling closures

The arguments are matched to the formals before the call begins, so that errors
in matching belong to the caller.  Every way out of the call ends its context
and drops its roots.
-/

namespace LazyDispatch.Eval

/-- How a formal is bound in the frame `env` of its function.  A missing formal
with a default is bound to the promise of the default. -/
def formalBinding (env : Ref) (formal : Formal) : Matched → Eval Binding
  | .supplied value => do
    match ← payload value with
    | .promise _ => return .promise value
    | _ => return .bound value
  | .missing =>
    match formal.default with
    | some default => return .missing (some (← allocPromise default env))
    | none => return .missing none
  | .dots [] => return .missing none
  | .dots args => return .bound (← allocPayload (.dots args))

/-- Binds the formals in the frame `env`. -/
def bindFormals (env : Ref) (formals : List (Formal × Matched)) : Eval Unit :=
  formals.forM fun (formal, matched) => do
    let binding ← formalBinding env formal matched
    updateFrame env (·.insert formal.name binding)

/-- Makes the frame of a closure that is called: the formals are bound to what
they matched, and the supplied bindings are added where the formals leave them
open. -/
def enterClosure (fn : Closure) (matched : List Matched) (supplied : List (Symbol × Ref)) :
    Eval Ref := do
  let env ← allocEnvironment (some fn.env)
  setContextEnv env
  bindFormals env (fn.formals.zip matched)
  updateFrame env (·.bindAbsent supplied)
  return env

variable (run : Runner)

/-- Runs the body of a closure in a new frame and catches an early return from
it. -/
def runClosure (fn : Closure) (matched : List Matched) (supplied : List (Symbol × Ref)) :
    Eval Ref := do
  let env ← enterClosure fn matched supplied
  match ← attempt (run (.eval fn.body env)) with
  | .error (.earlyReturn value target) =>
    if target = env then return value else raise (.earlyReturn value target)
  | result => settle result

/-- Calls a closure on behalf of `caller`. -/
def applyClosure (call : Expr) (fn : Ref) (args : List Arg) (caller : Ref)
    (supplied : List (Symbol × Ref)) : Eval Ref := do
  match ← closureAt? fn with
  | none => raise .notAFunction
  | some closure =>
    let matched ← matchCall call closure.formals args
    withContext {
      kind := .function, call, fn, caller, env := none, args, rootDepth := ← rootDepth }
      (runClosure run closure matched supplied)

end LazyDispatch.Eval
