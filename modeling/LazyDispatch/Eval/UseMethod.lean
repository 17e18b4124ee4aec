import LazyDispatch.Eval.Classes
import LazyDispatch.Eval.Arguments
import LazyDispatch.Eval.MethodLookup

/-!
# Dispatch on a class

`UseMethod` selects a method by the class of an object and applies it to the
arguments of the generic.  The value of the method becomes the value of the
generic, which ends there.
-/

namespace LazyDispatch.Eval

/-- The value of `.Class` for a method that a search over `classes` found. -/
def foundClasses (found : MethodMatch) (classes : List String) : Eval Ref := do
  if found.isDefault then return (← get).fixed.null
  else dispatchClasses classes found.index true

/-- Gets a method ready that a search over `classes` found: protects it and
allocates its dispatch variables. -/
def selectFound (generic : String) (found : MethodMatch) (classes : List String)
    (callEnv defEnv : Ref) : Eval Selection := do
  let _ ← protect found.method
  let classes ← foundClasses found classes
  let generic ← protectedStrings [generic]
  let method ← protectedStrings [found.name]
  let group ← protectedStrings [""]
  return {
    name := found.name, method := found.method,
    vars := { classes, generic, method, group, callEnv, defEnv } }

variable (run : Runner)

/-- Dispatches a generic on the class of an object and applies the method, if
there is one. -/
def useMethod (generic : String) (object : Ref) (call : Expr) (args : List Arg)
    (callEnv defEnv : Ref) : Eval (Option Ref) := do
  let start := MethodSearch.start generic none (← classVector object)
  let (found, search) ← findMethod run start callEnv defEnv 0 true
  match found with
  | none => return none
  | some found =>
    withRoots do
      let selection ← selectFound generic found search.classes callEnv defEnv
      return some (← applyMethod run selection call args callEnv)

/-- The argument that stands for the first formal of a generic: the one with its
name as tag, else the first with a tag that begins its name, else the first
without a tag, else the first. -/
def dispatchArg (names : Symbol → String) (formal : Symbol) (args : List Arg) :
    Option Arg :=
  args.find? (·.tag = some formal) <|>
    args.find? (fun arg => arg.tag.any fun tag => Text.begins (names tag) (names formal)) <|>
    args.find? (·.tag.isNone) <|>
    args.head?

/-- The argument that a generic dispatches on. -/
def dispatchArgOf (fn : Ref) (args : List Arg) : Query (Option Arg) := do
  let state ← read
  let formal : Option Formal := match ← closureAt? fn with
    | some closure => closure.formals.head?
    | none => none
  match (formal.map (·.name)).filter (· ≠ state.reserved.dots) with
  | some formal => return dispatchArg state.symbolName formal args
  | none => return args.head?

/-- The object that a generic dispatches on when none is given. -/
def dispatchObject (fn : Ref) (args : List Arg) : Eval Ref := do
  match (← dispatchArgOf fn args).bind (·.value) with
  | some ref => forceValue run ref
  | none => return (← get).fixed.null

/-- The environment where a generic is defined, as seen from the environment
that its caller works in. -/
def definitionEnv (generic : Symbol) (env : Ref) : Eval Ref := do
  let base := (← get).fixed.base
  match ← findFun? run generic ((← environmentAt env).parent.getD base) with
  | none => return base
  | some fn =>
    match ← closureAt? fn with
    | some closure => return closure.env
    | none => return base

/-- Dispatches from a generic in progress on an object. -/
def dispatchOn (context : CallContext) (generic : String) (object env : Ref) : Eval Ref := do
  let _ ← protect object
  let symbol ← intern generic
  let defEnv ← definitionEnv run symbol env
  match ← useMethod run generic object context.call context.args context.caller defEnv with
  | some value => return value
  | none => raise (.noApplicableMethod generic (formatClass (← classVector object)))

/-- Dispatches from a generic in progress on the object that `UseMethod` names,
or on the one that the generic was called with. -/
def useMethodFrom (context : CallContext) (call : Expr) (generic : Expr) (object : Option Expr)
    (env : Ref) : Eval Ref := do
  let value ← run (.eval generic env)
  match ← asString? value with
  | none => raise (.invalidArgument (.genericNotAString (← exprText call)))
  | some generic =>
    let object ← match object with
      | some expr => run (.eval expr env)
      | none => dispatchObject run context.fn context.args
    dispatchOn run context generic object env

/-- The call in progress that `UseMethod` dispatches for: the innermost one,
which has to work in the environment of the `UseMethod` call. -/
def genericContext (env : Ref) : Query CallContext := do
  match (← read).contexts with
  | [] => raise .outsideFunction
  | context :: _ => if context.worksIn env then return context else raise .inappropriateUse

/-- A call of `UseMethod`: ends the generic with the value of the method. -/
def callUseMethod (call : Expr) (generic : Expr) (object : Option Expr) (env : Ref) :
    Eval Ref := do
  let context ← genericContext env
  let value ← withRoots (useMethodFrom run context call generic object env)
  raise (.earlyReturn value env)

end LazyDispatch.Eval
