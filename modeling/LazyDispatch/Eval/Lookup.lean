import LazyDispatch.Eval.Task

/-!
# Looking up variables

A variable is looked up in the frame of an environment and then in the frames
that enclose it.  A promise is forced when its value is needed, at most once.

Walks along enclosing environments carry the number of cells as fuel: a walk
that uses it up has come back to an environment that it met before.
-/

namespace LazyDispatch.Eval

/-- More steps than a walk without repetition can take. -/
def walkBudget : Query Nat :=
  return (← read).heap.totalCells + 1

/-! ## Bindings -/

/-- The binding of a symbol in the first of the frames from `cursor` outward
that has one. -/
def findVarFrom (symbol : Symbol) : Nat → Option Ref → Query Binding
  | _, none => return .unbound
  | 0, some _ => throw .outOfFuel
  | budget + 1, some ref => do
    match (← read).heap.get? ref with
    | some ⟨.environment env, _⟩ =>
      match env.frame.find? symbol with
      | some binding => return binding
      | none => findVarFrom symbol budget env.parent
    | _ => fail (.enclosingNotAnEnvironment ref)

/-- The binding of a symbol that is visible from an environment. -/
def findVar (symbol : Symbol) (ref : Ref) : Query Binding := do
  let env ← environmentAt ref
  match env.frame.find? symbol with
  | some binding => return binding
  | none => findVarFrom symbol (← walkBudget) env.parent

/-- Binds a symbol in the frame of an environment. -/
def defineVar (env : Ref) (symbol : Symbol) (value : Ref) : Eval Unit :=
  updateFrame env (·.bind symbol value)

/-- Binds a symbol in the first of the frames from `cursor` outward that has it,
or else in the global frame. -/
def setVarFrom (symbol : Symbol) (value : Ref) : Nat → Option Ref → Eval Unit
  | _, none => do defineVar (← get).fixed.global symbol value
  | 0, some _ => throw .outOfFuel
  | budget + 1, some ref => do
    let env ← environmentAt ref
    if env.frame.contains symbol then defineVar ref symbol value
    else setVarFrom symbol value budget env.parent

/-- Assigns to a variable outside of an environment's own frame. -/
def setVar (env : Ref) (symbol : Symbol) (value : Ref) : Eval Unit := do
  setVarFrom symbol value (← walkBudget) (← environmentAt env).parent

/-- The value that a symbol is bound to, and not merely promised, in the frame
of an environment. -/
def frameValue? (env : Ref) (symbol : Symbol) : Query (Option Ref) := do
  match (← environmentAt env).frame.find? symbol with
  | some ⟨.bound, value⟩ => return value
  | _ => return none

/-! ## Missing arguments -/

/-- Whether a binding stands for a missing argument: it is missing itself, or it
promises a variable of a frame that is bound to a missing argument there. -/
def isMissingBinding : Nat → Binding → Query Bool
  | _, ⟨.missing, _⟩ => return true
  | budget, ⟨.promise, some ref⟩ => do
    match (← promiseAt ref).pendingSymbol? with
    | none => return false
    | some (symbol, env) =>
      match (← environmentAt env).frame.find? symbol with
      | none => return false
      | some inner =>
        match budget with
        | 0 => throw .outOfFuel
        | budget + 1 => isMissingBinding budget inner
  | _, _ => return false

/-- Whether a formal of the function that works in `env` has no argument. -/
def isMissingArg (symbol : Symbol) (env : Ref) : Query Bool := do
  match (← environmentAt env).frame.find? symbol with
  | none => raise (.invalidArgument .missingNotAnArgument)
  | some binding => isMissingBinding (← walkBudget) binding

/-! ## Promises and values -/

variable (run : Runner)

/-- The value of a promise.  A pending promise is evaluated and remembers its
value; if that fails it stays pending. -/
def force (ref : Ref) : Eval Ref := do
  match ← promiseAt ref with
  | .forced _ value => return value
  | .underEvaluation _ _ => raise .recursivePromise
  | .pending expr env =>
    setPromise ref (.underEvaluation expr env)
    let result ← attempt <| withRoots do
      let _ ← protect ref
      run (.eval expr env)
    match result with
    | .ok value =>
      setPromise ref (.forced expr value)
      return value
    | .error err =>
      setPromise ref (.pending expr env)
      raise err

/-- The value of a promise, or of anything else the thing itself. -/
def forceValue (ref : Ref) : Eval Ref := do
  match ← payload ref with
  | .promise _ => force run ref
  | _ => return ref

/-- The value that a binding stands for, if it has one. -/
def bindingValue? : Binding → Eval (Option Ref)
  | ⟨.unbound, _⟩ | ⟨.missing, none⟩ => return none
  | ⟨.bound, value⟩ => return value
  | ⟨.promise, some ref⟩ | ⟨.missing, some ref⟩ => return some (← force run ref)
  | ⟨.promise, none⟩ => fail .promiseBindingEmpty

/-- The value of a variable. -/
def getVar (symbol : Symbol) (env : Ref) : Eval Ref := do
  match ← findVar symbol env with
  | ⟨.unbound, _⟩ => raise (.unboundVariable (← symbolName symbol))
  | ⟨.missing, none⟩ => raise (.missingArgument (← symbolName symbol))
  | binding =>
    match ← bindingValue? run binding with
    | some value => return value
    | none => fail .boundBindingEmpty

/-- The function that a frame binds a symbol to, if it does. -/
def functionInFrame? (symbol : Symbol) (frame : Frame) : Eval (Option Ref) := do
  match frame.find? symbol with
  | none => return none
  | some binding =>
    match ← bindingValue? run binding with
    | none => return none
    | some value => return if (← payload value).isFunction then some value else none

/-- The function of a name in the first of the frames from `cursor` outward that
binds it to one. -/
def findFunFrom (symbol : Symbol) : Nat → Option Ref → Eval (Option Ref)
  | _, none => return none
  | 0, some _ => throw .outOfFuel
  | budget + 1, some ref => do
    let env ← environmentAt ref
    match ← functionInFrame? run symbol env.frame with
    | some fn => return some fn
    | none => findFunFrom symbol budget env.parent

/-- The function of a name that is visible from an environment; bindings to
anything else are passed over. -/
def findFun? (symbol : Symbol) (env : Ref) : Eval (Option Ref) := do
  findFunFrom run symbol (← walkBudget) (some env)

/-- The function of a name that is visible from an environment. -/
def findFun (symbol : Symbol) (env : Ref) : Eval Ref := do
  match ← findFun? run symbol env with
  | some fn => return fn
  | none => raise (.functionNotFound (← symbolName symbol))

end LazyDispatch.Eval
