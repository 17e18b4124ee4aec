import LazyDispatch.Eval.Attributes
import LazyDispatch.Eval.Control
import LazyDispatch.Eval.Identity
import LazyDispatch.Eval.OperatorDispatch
import LazyDispatch.Eval.Override
import LazyDispatch.Eval.Special
import LazyDispatch.Text.Affix

/-!
# Applying functions

A builtin with evaluated arguments first consults the methods of the host, then
the methods of its operands, and then runs.
-/

namespace LazyDispatch.Eval

variable (hooks : Hooks) (run : Runner)

/-- Runs a builtin itself. -/
def runBuiltin (invocation : Invocation) : Eval Ref :=
  match invocation.builtin with
  | .quote => quote invocation
  | .missing => missing invocation
  | .useMethod => useMethodBuiltin run invocation
  | .nextMethod => callNextMethod run invocation.call invocation.env
  | .standardGeneric => standardGenericBuiltin run hooks invocation
  | .add => arithmetic .add invocation
  | .subtract => arithmetic .subtract invocation
  | .multiply => arithmetic .multiply invocation
  | .divide => arithmetic .divide invocation
  | .equal => comparison .equal invocation
  | .notEqual => comparison .notEqual invocation
  | .less => comparison .less invocation
  | .greater => comparison .greater invocation
  | .combine => combine invocation
  | .list => makeList invocation
  | .length => lengthOf invocation
  | .classOf => classOf invocation
  | .oldClass => oldClass invocation
  | .setClass => setClassOf invocation
  | .unclass => unclass invocation
  | .inherits => inherits invocation
  | .identical => identical invocation
  | .invisible => argOrNull invocation
  | .returnValue => returnValue invocation
  | .stop => stop invocation
  | .warning => warning invocation
  | .environment => environmentOf invocation
  | .parentFrame => parentFrame invocation
  | .sysCall => sysCall invocation
  | .sysFunction => sysFunction invocation
  | .isFunction => isFunction invocation
  | .gc => gc invocation

/-- Calls a special builtin, which reads its arguments from the call. -/
def callSpecial (call : Expr) (builtin : Builtin) (env : Ref) : Eval Ref :=
  runBuiltin hooks run { builtin, call, args := [], env }

/-- Whether a call names a default method; such a call does not dispatch. -/
def isDefaultCall (call : Expr) : Query Bool := do
  match call.callHead? with
  | some head => return Text.ends ".default" (← symbolName head)
  | none => return false

/-- Dispatch by the role of a builtin. -/
def roleDispatch (call : Expr) (builtin : Builtin) (args : List Arg) (env : Ref)
    :
    Eval (Option Ref) :=
  match builtin.role with
  | .operator => groupDispatch run "Ops" call builtin args env
  | .internalGeneric => internalDispatch run call builtin args env
  | .plain | .special => return none

/-- The value of a call of a builtin that a method takes over, if one does. -/
def methodDispatch (call : Expr) (builtin : Builtin) (args : List Arg) (env : Ref) :
    Eval (Option Ref) := do
  if ← isDefaultCall call then return none
  else
    match ← overrideDispatch hooks run call builtin args env with
    | some value => return some value
    | none => roleDispatch run call builtin args env

/-- Applies a builtin to evaluated arguments. -/
def applyBuiltin (call : Expr) (builtin : Builtin) (args : List Arg) (env : Ref) : Eval Ref := do
  match ← methodDispatch hooks run call builtin args env with
  | some value => return value
  | none => runBuiltin hooks run { builtin, call, args, env }

/-- Applies a function to arguments as a closure gets them; for a builtin they
are forced. -/
def applyFunction (call : Expr) (fn : Ref) (args : List Arg) (env : Ref)
    (supplied : List (Symbol × Ref)) : Eval Ref := do
  match ← payload fn with
  | .closure _ => applyClosure run call fn args env supplied
  | .builtin builtin =>
    if builtin.role = .special then callSpecial hooks run call builtin env
    else
      withRoots do
        let args ← args.mapM (forceArg run)
        applyBuiltin hooks run call builtin args env
  | _ => raise .notAFunction

end LazyDispatch.Eval
