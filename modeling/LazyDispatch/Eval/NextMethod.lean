import LazyDispatch.Eval.UseMethod

/-!
# Going on to the next method

`NextMethod` finds the method after the one in progress and applies it to the
same arguments.  Each argument that both the generic and the method have a
formal for is passed on as a promise of the method's formal, so the next method
sees what the method assigned to it.  Further arguments of the `NextMethod` call
are merged in.
-/

namespace LazyDispatch.Eval

/-- What `NextMethod` reads of the method in progress. -/
structure MethodInProgress where
  /-- The call of the method, and the name it was called by. -/
  call : Expr
  head : String
  fn : Ref
  args : List Arg
  /-- The environment that the method works in. -/
  env : Ref
  callEnv : Ref
  defEnv : Ref

/-- The method in progress in an environment. -/
def methodInProgress (env : Ref) : Query MethodInProgress := do
  let state ← read
  match state.functionWithEnv? env with
  | none => raise .outsideMethodDispatch
  | some context =>
    match context.call.callHead? with
    | none => raise (.invalidArgument .nextMethodAnonymous)
    | some head =>
      let callEnv := (← frameValue? env state.reserved.dotGenericCallEnv).getD env
      let defEnv := (← frameValue? env state.reserved.dotGenericDefEnv).getD state.fixed.global
      return {
        call := context.call, head := state.symbolName head, fn := context.fn,
        args := context.args, env, callEnv, defEnv }

/-- The formals of `NextMethod` itself. -/
def nextMethodFormals (reserved : Reserved) : List Formal :=
  [⟨reserved.generic, none⟩, ⟨reserved.object, none⟩, ⟨reserved.dots, none⟩]

/-- The place after the first class whose method is the running one, or else the
first place. -/
def resumeIndex (base current : String) (classes : List String) : Nat :=
  match classes.findIdx? fun cls => methodName base cls == current with
  | some index => index + 1
  | none => 0

/-- The strings that a dispatch variable holds. -/
def dispatchStrings? (env : Ref) (symbol : Symbol) : Query (Option (List String)) := do
  match ← frameValue? env symbol with
  | some ref => asStrings? ref
  | none => return none

/-- Replaces the value of the first argument that has it. -/
def replaceValue (old new : Ref) : List Arg → List Arg
  | [] => []
  | arg :: rest =>
    if arg.value = some old then ⟨arg.tag, some new⟩ :: rest
    else arg :: replaceValue old new rest

/-- The formal that a value was matched to. -/
def formalOf? (formals : List (Formal × Matched)) (value : Ref) :
    Option Formal :=
  (formals.find? fun (_, matched) => matched = .supplied value).map (·.1)

/-- Whether a formal is missing in the frame of its function. -/
def isMissingFormal (env : Ref) (formal : Formal) : Query Bool := do
  match (← environmentAt env).frame.find? formal.name with
  | some binding => return binding.origin = .missing
  | none => return false

/-- Passes on one argument as a promise of the method's formal for it. -/
def rebindArg (env : Ref) (formals : List (Formal × Matched)) (args : List Arg) :
    Matched → Eval (List Arg)
  | .supplied value => do
    match formalOf? formals value with
    | none => return args
    | some formal =>
      if ← isMissingFormal env formal then return args
      else if args.any (·.value = some value) then
        let promised ← allocPromise (.symbol 0 formal.name) env
        let _ ← protect promised
        return replaceValue value promised args
      else return args
  | _ => return args

/-- Passes on the arguments of the method in progress, given the formals of the
generic. -/
def rebindArgs (method : MethodInProgress) (formals : List Formal) : Eval (List Arg) := do
  let matched ← matchCall method.call formals method.args
  let ownFormals := match ← closureAt? method.fn with
    | some closure => closure.formals
    | none => formals
  let ownMatched ← matchCall method.call ownFormals method.args
  matched.foldlM (rebindArg method.env (ownFormals.zip ownMatched)) method.args

/-- The name under which the running method was selected: the first that
`.Method` has for an operand, or else the one it was called by. -/
def runningName (head : String) (names : List String) : String :=
  (names.find? (· ≠ "")).getD head

/-- Whether `.Method` has different names for different operands. -/
def namesDiffer (names : List String) : Bool :=
  match names.filter (· ≠ "") with
  | [] => false
  | first :: rest => rest.any (· ≠ first)

/-- The names of the next method for the operands that had a name. -/
def nextNames (next : String) (names : Option (List String)) : List String :=
  match names with
  | some names => names.map fun name => if name = "" then "" else next
  | none => [next]

variable (run : Runner)

/-- The arguments of the `NextMethod` call: the name of the generic, if given,
and those to merge in. -/
def nextMethodArgs (call : Expr) (env : Ref) : Eval (Option String × List Arg) := do
  let args ← promiseArgs call.callArgs env
  let matched : List Matched ← matchCall call (nextMethodFormals (← get).reserved) args
  let generic ← match matched.head? with
    | some (.supplied ref) =>
      let value ← forceValue run ref
      if value = (← get).fixed.null then pure none
      else
        match ← asString? value with
        | some name => pure (some name)
        | none => raise (.invalidArgument .nextMethodGeneric)
    | _ => pure none
  let extras : List Arg := match matched[2]? with
    | some (Matched.dots extras) => extras
    | _ => []
  return (generic, extras)

/-- The name of the generic: what the method finds in its frame, or else the
given one. -/
def genericName (env : Ref) (given : Option String) : Query String := do
  let name ← match ← frameValue? env (← read).reserved.dotGeneric with
    | some ref => asString? ref
    | none => pure given
  match name with
  | some name => return name
  | none => raise .genericNotSpecified

/-- The formals of the generic, or else those of the method in progress. -/
def genericFormals (generic : Symbol) (method : MethodInProgress) : Eval (List Formal) := do
  let closure ← match ← findFun? run generic method.env with
    | some fn => closureAt? fn
    | none => pure none
  match closure with
  | some closure => return closure.formals
  | none =>
    match ← closureAt? method.fn with
    | some closure => return closure.formals
    | none => raise .noCallingGeneric

/-- The classes that dispatch goes on with. -/
def remainingClasses (method : MethodInProgress) : Eval (List String) := do
  match ← frameValue? method.env (← get).reserved.dotClass with
  | some ref => return (← asStrings? ref).getD []
  | none =>
    if method.args.isEmpty then raise .objectNotSpecified
    else classVector (← dispatchObject run method.fn method.args)

/-- The builtin of the generic's name that is visible from the method in
progress. -/
def genericBuiltin (generic : String) (symbol : Symbol) (env : Ref) : Eval Ref := do
  match ← findFun? run symbol env with
  | none => raise (.noMoreMethods generic)
  | some fn =>
    match ← payload fn with
    | .builtin _ => return fn
    | _ => raise .noMethodToInvoke

/-- What comes after the last class method: the default method, unless it is the
one in progress, or a builtin of the generic's name. -/
def lastMethod (generic : String) (symbol : Symbol) (current : String) (method : MethodInProgress) :
    Eval Ref := do
  let name := methodName generic "default"
  let default ←
    if current = name then pure none
    else lookupMethod run method.callEnv method.defEnv name
  match default with
  | some fn => return fn
  | none => genericBuiltin run generic symbol method.env

/-- A call of `NextMethod` that knows its generic. -/
structure NextCall where
  /-- The method that makes the call. -/
  method : MethodInProgress
  generic : String
  /-- The arguments to merge in. -/
  extras : List Arg

/-- The generic that a call of `NextMethod` goes on with, and the method that it
goes on from. -/
def callingGeneric (call : Expr) (env : Ref) : Eval NextCall := do
  let method ← methodInProgress env
  let (given, extras) ← nextMethodArgs run call env
  if (← lookupMethod run env method.defEnv method.head).isNone then raise .noCallingGeneric
  return { method, generic := ← genericName env given, extras }

/-- The arguments of the next method. -/
def passedArgs (symbol : Symbol) (next : NextCall) : Eval (List Arg) := do
  let formals ← genericFormals run symbol next.method
  return Args.merge (← rebindArgs next.method formals) next.extras

/-- Where dispatch stands in a method in progress. -/
structure ResumePoint where
  /-- The classes that dispatch goes on with. -/
  classes : List String
  /-- The value of `.Group`, and the group it names. -/
  groupValue : Option Ref
  group : String
  /-- What `.Method` holds, and the name that the method was selected under. -/
  names : Option (List String)
  current : String

/-- Reads where dispatch stands. -/
def resumePoint (method : MethodInProgress) : Eval ResumePoint := do
  let classes ← remainingClasses run method
  let reserved := (← get).reserved
  let groupValue ← frameValue? method.env reserved.dotGroup
  let group := ((← dispatchStrings? method.env reserved.dotGroup).bind (·.head?)).getD ""
  let names ← dispatchStrings? method.env reserved.dotMethod
  if namesDiffer (names.getD []) then warn "Incompatible methods ignored"
  return { classes, groupValue, group, names, current := runningName method.head (names.getD []) }

/-- The next method with its name, and the search that looked for it. -/
def findNext (generic : String) (symbol : Symbol) (method : MethodInProgress)
    (point : ResumePoint) : Eval (Ref × String × MethodSearch) := do
  let base := if point.group = "" then generic else point.group
  let start := resumeIndex base point.current point.classes
  let (found, search) ← findMethod run (.start generic (some point.group) point.classes)
    method.callEnv method.defEnv start false
  match found with
  | some found => return (found.method, found.name, search)
  | none =>
    let next ← lastMethod run generic symbol point.current method
    return (next, methodName generic "default", search)

/-- Gets the next method ready that a search found from `point` on: protects it
and allocates its dispatch variables. -/
def selectFollowing (generic : String) (method : MethodInProgress)
    (point : ResumePoint) (next : Ref) (name : String) (search : MethodSearch) :
    Eval Selection := do
  let _ ← protect next
  let classes ← dispatchClasses search.classes search.index true
  let names ← protectedStrings (nextNames name point.names)
  let genericValue ← protectedStrings [generic]
  let group ← match point.groupValue with
    | some ref => pure ref
    | none => protectedStrings [""]
  return {
    name, method := next,
    vars := {
      classes, generic := genericValue, method := names, group,
      callEnv := method.callEnv, defEnv := method.defEnv } }

/-- Selects the method after the one in progress. -/
def selectNext (generic : String) (symbol : Symbol) (method : MethodInProgress) :
    Eval Selection := do
  let point ← resumePoint run method
  let (next, name, search) ← findNext run generic symbol method point
  selectFollowing generic method point next name search

/-- Goes on from a method in progress. -/
def resumeDispatch (call : Expr) (env : Ref) : Eval Ref := do
  let next ← callingGeneric run call env
  let symbol ← intern next.generic
  let args ← passedArgs run symbol next
  let selection ← selectNext run next.generic symbol next.method
  applyMethod run selection next.method.call args next.method.callEnv

/-- A call of `NextMethod`. -/
def callNextMethod (call : Expr) (env : Ref) : Eval Ref :=
  withRoots (resumeDispatch run call env)

end LazyDispatch.Eval
