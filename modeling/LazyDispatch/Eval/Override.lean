import LazyDispatch.Eval.Closure

/-!
# Overridden builtins

A host can give a builtin a generic function and methods.  Calls of the builtin
then consult them first, unless the generic itself is running.  The cached
methods are read again from the host after a reset.
-/

namespace LazyDispatch.Eval

/-- Changes the cached methods of a builtin as the host asks, and gives the
former state. -/
def setMethods (builtin : Builtin) (change : MethodUpdate) : Eval MethodState := do
  let entry ← cacheEntry builtin
  match entry.update? change with
  | none => raise (.methodsUnavailable builtin.name)
  | some changed =>
    updateCache builtin fun _ => changed
    return entry.state

/-- Sets the state of the cached methods of a builtin. -/
def setMethodState (builtin : Builtin) (state : MethodState) : Eval Unit :=
  updateCache builtin fun entry => { entry with state }

variable (hooks : Hooks) (run : Runner)

/-- Reads the methods of a builtin from the host; meanwhile the builtin does not
dispatch. -/
def rebuildMethods (builtin : Builtin) (env : Ref) : Eval Unit := do
  match hooks.methodProvider with
  | none => raise (.methodsUnavailable builtin.name)
  | some provider =>
    setMethodState builtin .suppressed
    match ← attempt (provider run builtin env) with
    | .error err =>
      setMethodState builtin .needsReset
      raise err
    | .ok methods =>
      updateCache builtin fun entry => { entry with state := .hasMethods, methods := some methods }

/-- Applies a method that the quick check of the host chose.  The roots above
`mark` are dropped afterwards. -/
def applyQuickMethod (mark : Nat) (call : Expr) (builtin : Builtin)
    (method : Ref) (args : List Arg) (env : Ref) : Eval Ref :=
  releasing mark do
    let _ ← protect method
    let args ← forcedPromiseArgs call args
    let generic ← protectedStrings [builtin.name]
    run (.apply call method args env [((← get).reserved.dotGeneric, generic)])

/-- Runs the generic of a builtin, during which the builtin does not dispatch.
The generic can leave the call to the builtin.  The roots above `mark` are
dropped afterwards. -/
def applyOverride (mark : Nat) (call : Expr) (builtin : Builtin) (args : List Arg)
    (env : Ref) : Eval (Option Ref) := do
  let missing : EvalError := .methodsUnavailable builtin.name
  match (← cacheEntry builtin).generic with
  | none => raise missing
  | some generic =>
    if (← closureAt? generic).isNone then raise missing
    else
      let value ← releasing mark do
        let args ← forcedPromiseArgs call args
        setMethodState builtin .suppressed
        let result ← attempt (applyClosure run call generic args env [])
        setMethodState builtin .hasMethods
        settle result
      return if value = (← get).fixed.deferred then none else some value

/-- Consults the cached methods of a builtin.  What is applied has the roots
dropped down to where they were before the host was asked. -/
def consultMethods (call : Expr) (builtin : Builtin) (args : List Arg) (env : Ref) :
    Eval (Option Ref) := do
  let mark ← rootDepth
  match (← cacheEntry builtin).methods, hooks.quickCheck with
  | some methods, some check =>
    match ← check run args methods builtin with
    | .useDefault => return none
    | .method method =>
      return some (← applyQuickMethod run mark call builtin method args env)
    | .search => applyOverride run mark call builtin args env
  | _, _ => applyOverride run mark call builtin args env

/-- Gives the methods of the host the first chance at a call of a builtin. -/
def overrideDispatch (call : Expr) (builtin : Builtin) (args : List Arg) (env : Ref) :
    Eval (Option Ref) := do
  match (← cacheEntry builtin).state with
  | .noMethods | .suppressed => return none
  | .needsReset =>
    rebuildMethods hooks run builtin env
    consultMethods hooks run call builtin args env
  | .hasMethods => consultMethods hooks run call builtin args env

end LazyDispatch.Eval
