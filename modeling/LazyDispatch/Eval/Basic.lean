import LazyDispatch.Interpreter.State

/-!
# Evaluation steps

Evaluation transforms the state of an interpreter and yields a value, or stops.
An error stops it until something catches the error; a fault and an exhausted
nesting budget stop it for good.  The state that a stop leaves behind is kept.

A query only reads the state; it can be used as an evaluation step that changes
nothing.
-/

namespace LazyDispatch

/-- Why evaluation stops. -/
inductive Stop where
  | error (err : EvalError)
  | fault (fault : Fault)
  /-- The nesting budget is used up. -/
  | outOfFuel

/-- The text of a stop. -/
def Stop.message : Stop → String
  | error err => err.message
  | fault cause => cause.message
  | outOfFuel => "nesting budget used up"

/-- A step that reads the state. -/
abbrev Query := ReaderT Interpreter (Except Stop)

/-- A step that transforms the state. -/
abbrev Eval := EStateM Stop Interpreter

/-- Runs a query as a step that changes nothing. -/
def Query.toEval {α : Type} (query : Query α) : Eval α := fun state =>
  match query state with
  | .ok a => .ok a state
  | .error stop => .error stop state

instance : MonadLift Query Eval := ⟨Query.toEval⟩

/-- Stops with an error. -/
def raise {m : Type → Type} [MonadExceptOf Stop m] {α : Type} (err : EvalError)
    : m α :=
  throw (Stop.error err)

/-- Stops with a fault. -/
def fail {m : Type → Type} [MonadExceptOf Stop m] {α : Type} (fault : Fault) :
    m α :=
  throw (Stop.fault fault)

namespace Eval

/-- Turns an error of a step into a value; faults and an exhausted budget pass. -/
def attempt {α : Type} (action : Eval α) : Eval (Except EvalError α) := fun state =>
  match action state with
  | .ok a state => .ok (.ok a) state
  | .error (.error err) state => .ok (.error err) state
  | .error stop state => .error stop state

/-- Goes on with a value, or raises the error again. -/
def settle {α : Type} : Except EvalError α → Eval α
  | .ok a => pure a
  | .error err => raise err

/-- Runs an operation on the heap. -/
def onHeap {α : Type} (operation : Heap → Heap.Outcome α) : Eval α := fun state =>
  let heap := state.heap
  let state := { state with heap := default }
  match operation heap with
  | .ok a heap => .ok a { state with heap }
  | .error fault heap => .error (.fault fault) { state with heap }

/-- Runs an operation on the root stack. -/
def onRoots {α : Type} (operation : RootStack → RootStack.Outcome α) : Eval α :=
  fun state =>
    match operation state.roots with
    | .ok a roots => .ok a { state with roots }
    | .error fault roots => .error (.fault fault) { state with roots }

/-! ## Objects -/

/-- The object that a reference resolves to. -/
def fetch (ref : Ref) : Query HeapObject := fun state =>
  match state.heap.get? ref with
  | some object => .ok object
  | none => .error (.fault (.staleReference ref))

/-- The payload of an object. -/
def payload (ref : Ref) : Query Object :=
  return (← fetch ref).payload

/-- Changes an object in place. -/
def update (ref : Ref) (change : HeapObject → HeapObject) : Eval Unit := do
  let _ ← fetch ref
  onHeap fun heap => .ok () (heap.update ref change)

/-- The closure that a reference resolves to, if it is one. -/
def closureAt? (ref : Ref) : Query (Option Closure) :=
  return match ← payload ref with
    | .closure fn => some fn
    | _ => none

/-- The environment that a reference resolves to. -/
def environmentAt (ref : Ref) : Query Environment := do
  match ← payload ref with
  | .environment env => return env
  | other => fail (.notAnEnvironment other.typeName)

/-- The promise that a reference resolves to. -/
def promiseAt (ref : Ref) : Query Promise := do
  match ← payload ref with
  | .promise deferred => return deferred
  | other => fail (.notAPromise other.typeName)

/-- Changes the frame of an environment. -/
def updateFrame (ref : Ref) (change : Frame → Frame) : Eval Unit := do
  let env ← environmentAt ref
  update ref fun object => { object with payload := .environment ⟨env.parent, change env.frame⟩ }

/-- Changes the state of a promise. -/
def setPromise (ref : Ref) (deferred : Promise) : Eval Unit := do
  let _ ← promiseAt ref
  update ref fun object => { object with payload := .promise deferred }

/-- The first element of an integer, double or logical vector as an integer;
doubles are cut off toward zero and to the range of integers. -/
def asInteger? (ref : Ref) : Query (Option Int64) :=
  return match ← payload ref with
    | .integer values => values.head?
    | .double values => values.head?.map Float.toInt64
    | .logical values => values.head?.map fun b => if b then 1 else 0
    | _ => none

/-- The elements of a character vector. -/
def asStrings? (ref : Ref) : Query (Option (List String)) :=
  return match ← payload ref with
    | .character values => some values
    | _ => none

/-- The element of a character vector of length one, if it is not empty. -/
def asString? (ref : Ref) : Query (Option String) :=
  return match ← asStrings? ref with
    | some [s] => if s = "" then none else some s
    | _ => none

/-! ## Allocation -/

/-- Allocates an object. -/
def allocate (object : HeapObject) : Eval Ref := do
  let roots := (← get).rootRefs
  onHeap fun heap => heap.allocate object roots

/-- Allocates a payload without attributes; `NULL` exists already. -/
def allocPayload : Object → Eval Ref
  | .null => return (← get).fixed.null
  | object => allocate { payload := object }

/-- Allocates a character vector. -/
def allocStrings (values : List String) : Eval Ref :=
  allocPayload (.character values)

/-- Allocates the value of a constant. -/
def allocLiteral : Literal → Eval Ref
  | .null => allocPayload .null
  | .logical b => allocPayload (.logical [b])
  | .integer i => allocPayload (.integer [i])
  | .double d => allocPayload (.double [d])
  | .string s => allocStrings [s]

/-- Allocates an environment without bindings. -/
def allocEnvironment (parent : Option Ref) : Eval Ref :=
  allocPayload (.environment (.inside parent))

/-- Allocates a promise that is not evaluated yet. -/
def allocPromise (expr : Expr) (env : Ref) : Eval Ref :=
  allocPayload (.promise (.pending expr env))

/-- Runs a full collection and counts the cells that it reclaims. -/
def collectGarbage : Eval Nat := do
  let roots := (← get).rootRefs
  onHeap fun heap =>
    let (reclaimed, heap) := heap.collect roots
    .ok reclaimed heap

/-! ## Roots -/

/-- The depth of the root stack. -/
def rootDepth : Query Nat :=
  return (← read).roots.depth

/-- Protects a reference on behalf of the innermost call. -/
def protect (ref : Ref) : Eval RootToken := do
  let depth := (← get).contexts.length
  onRoots fun roots =>
    let (token, roots) := roots.protect ref depth
    .ok token roots

/-- Drops the roots above a depth. -/
def releaseRoots (depth : Nat) : Eval Unit :=
  onRoots fun roots => roots.truncate depth

/-- Drops the roots above a depth after a step, also when it raises an error. -/
def releasing {α : Type} (depth : Nat) (action : Eval α) : Eval α := do
  let result ← attempt action
  releaseRoots depth
  settle result

/-- Runs a step and drops the roots that it made, also when it raises an error. -/
def withRoots {α : Type} (action : Eval α) : Eval α := do
  releasing (← rootDepth) action

/-- Allocates a protected character vector. -/
def protectedStrings (values : List String) : Eval Ref := do
  let ref ← allocStrings values
  let _ ← protect ref
  return ref

/-! ## Names, contexts and warnings -/

/-- Interns a name. -/
def intern (name : String) : Eval Symbol :=
  modifyGet fun state =>
    let (symbol, naming) := (Naming.intern name).run state.naming
    (symbol, { state with naming })

/-- Takes the next unused site. -/
def freshSite : Eval Nat :=
  modifyGet fun state =>
    let (site, naming) := Naming.freshSite.run state.naming
    (site, { state with naming })

/-- Resolves a term to an expression. -/
def resolve (term : Term) : Eval Expr :=
  modifyGet fun state =>
    let (expr, naming) := term.resolve.run state.naming
    (expr, { state with naming })

/-- The name of a symbol of the interpreter's table. -/
def symbolName (symbol : Symbol) : Query String := do
  match (← read).naming.symbols.name? symbol with
  | some name => return name
  | none => fail .foreignSymbol

/-- A call with another operator, as a new expression. -/
def renamedCall (head : Symbol) (call : Expr) : Eval Expr :=
  return call.withHead (← freshSite) head

/-- Starts a call, unless too many are in progress. -/
def beginContext (context : CallContext) : Eval Unit := do
  let state ← get
  if state.maxDepth ≤ state.contexts.length then raise .tooDeep
  else set { state with contexts := context :: state.contexts }

/-- Takes the innermost call off. -/
def popContext : Eval CallContext := do
  match (← get).contexts with
  | [] => fail .contextUnderflow
  | context :: rest =>
    modify fun state => { state with contexts := rest }
    return context

/-- Ends the innermost call and drops its roots. -/
def endContext : Eval Unit := do
  let context ← popContext
  releaseRoots context.rootDepth

/-- Runs a step within a call; every way out of the step, an error as well as a
value, ends the call. -/
def withContext {α : Type} (context : CallContext) (action : Eval α) : Eval α := do
  beginContext context
  let result ← attempt action
  endContext
  settle result

/-- Notes the environment that the innermost call works in. -/
def setContextEnv (env : Ref) : Eval Unit :=
  modify fun state => { state with
    contexts := match state.contexts with
      | [] => []
      | context :: rest => { context with env := some env } :: rest }

/-- Adds a warning. -/
def warn (message : String) : Eval Unit :=
  modify fun state => { state with warnings := state.warnings ++ [message] }

/-- Takes the warnings away. -/
def takeWarnings : Eval (List String) :=
  modifyGet fun state => (state.warnings, { state with warnings := [] })

/-- The cached methods of a builtin. -/
def cacheEntry (builtin : Builtin) : Query MethodEntry :=
  return (← read).cache.get builtin

/-- Changes the cached methods of a builtin. -/
def updateCache (builtin : Builtin) (change : MethodEntry → MethodEntry) :
    Eval Unit :=
  modify fun state => { state with
    cache := state.cache.set builtin (change (state.cache.get builtin)) }

end Eval

end LazyDispatch
