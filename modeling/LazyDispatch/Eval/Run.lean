import LazyDispatch.Eval.Apply

/-!
# Evaluation

The rules of evaluation for each form of expression, and the runner, which
closes the circle between evaluation and application by recursion on a nesting
budget.
-/

namespace LazyDispatch

namespace Eval

/-- Counts an evaluation, while evaluations are counted. -/
def tick : Eval Unit :=
  modify fun state => { state with meter := state.meter.map (· + 1) }

/-- The truth of a condition: its first element. -/
def truth (ref : Ref) : Query Bool := do
  let first ← match ← payload ref with
    | .logical values => pure values.head?
    | .integer values => pure (values.head?.map (· ≠ 0))
    | .double values => pure (values.head?.map (· != 0))
    | _ => raise (.type .notLogical)
  match first with
  | some b => return b
  | none => raise (.type .emptyCondition)

variable (hooks : Hooks) (run : Runner)

/-- The function that a call applies. -/
def calledFunction (head : Expr) (env : Ref) : Eval Ref :=
  match head with
  | .symbol _ name => findFun run name env
  | _ => run (.eval head env)

/-- Evaluates a call. -/
def evalCall (call head : Expr) (args : List ExprArg) (env : Ref) : Eval Ref := do
  let fn ← calledFunction run head env
  match ← payload fn with
  | .closure _ =>
    withRoots do
      let _ ← protect fn
      applyClosure run call fn (← promiseArgs args env) env []
  | .builtin builtin =>
    withRoots do
      let _ ← protect fn
      if builtin.role = .special then callSpecial hooks run call builtin env
      else applyBuiltin hooks run call builtin (← evalArgs run args env) env
  | _ => raise .notAFunction

/-- Evaluates expressions one after the other, for the value of the last. -/
def evalBlock (env : Ref) : List Expr → Eval Ref
  | [] => return (← get).fixed.null
  | [expr] => run (.eval expr env)
  | expr :: rest => do
    let _ ← run (.eval expr env)
    evalBlock env rest

/-- Evaluates an expression. -/
def evalExpr (expr : Expr) (env : Ref) : Eval Ref := do
  match expr with
  | .literal _ value => allocLiteral value
  | .symbol _ name =>
    if name = (← get).reserved.dots then raise (.invalidArgument .dotsOutOfContext)
    else getVar run name env
  | .missing _ => raise (.invalidArgument .emptyArgument)
  | .call _ head args => evalCall hooks run expr head args env
  | .function _ formalsSite formals body =>
    allocPayload (.closure { formals, formalsSite, body, env })
  | .block _ exprs => evalBlock run env exprs
  | .branch _ condition yes no =>
    if ← truth (← run (.eval condition env)) then run (.eval yes env)
    else
      match no with
      | some no => run (.eval no env)
      | none => return (← get).fixed.null
  | .assign _ scope name value =>
    let value ← run (.eval value env)
    match scope with
    | .here => defineVar env name value
    | .enclosing => setVar env name value
    return value

/-- Carries out a task with a nesting budget. -/
def perform : Nat → Runner
  | 0, _ => throw .outOfFuel
  | budget + 1, .eval expr env => do
    tick
    evalExpr hooks (perform budget) expr env
  | budget + 1, .apply call fn args env supplied =>
    applyFunction hooks (perform budget) call fn args env supplied

/-- A nesting budget that programs do not use up: the number of calls in
progress is limited, and within a call evaluation nests only as deep as
expressions are written. -/
def defaultBudget : Nat := 1048576

/-- Evaluates an expression in the global environment, as an expression of its
own. -/
def evalTopLevel (expr : Expr) : Eval Ref := do
  let expr := expr.atSite (← freshSite)
  withRoots do run (.eval expr (← get).fixed.global)

end Eval

end LazyDispatch
