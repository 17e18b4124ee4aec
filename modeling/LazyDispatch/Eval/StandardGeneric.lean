import LazyDispatch.Eval.Lookup

/-!
# Standard generics

`standardGeneric` leaves the choice of a method to the host.  Without a host
that takes it, it calls the nearest function of the name that is not a generic
itself.
-/

namespace LazyDispatch.Eval

/-- Whether a value is a closure that was not defined inside of a generic. -/
def isPlainClosure (ref : Ref) : Query Bool := do
  match ← closureAt? ref with
  | some closure =>
    return !(← environmentAt closure.env).frame.contains (← read).reserved.dotGeneric
  | none => return false

variable (run : Runner)

/-- The plain function that a frame binds a symbol to, if it does. -/
def plainFunctionIn? (symbol : Symbol) (frame : Frame) : Eval (Option Ref) := do
  match frame.find? symbol with
  | none => return none
  | some binding =>
    match ← bindingValue? run binding with
    | none => return none
    | some value => return if ← isPlainClosure value then some value else none

/-- The plain function of a name in the first of the frames from `cursor`
outward that has one. -/
def findPlainFrom (symbol : Symbol) : Nat → Option Ref → Eval (Option Ref)
  | _, none => return none
  | 0, some _ => throw .outOfFuel
  | budget + 1, some ref => do
    let env ← environmentAt ref
    match ← plainFunctionIn? run symbol env.frame with
    | some fn => return some fn
    | none => findPlainFrom symbol budget env.parent

/-- Calls the nearest plain function of a name above a generic, with the
arguments of the generic. -/
def dispatchPlain (name : String) (env : Ref) : Eval Ref := do
  let symbol ← intern name
  match ← findPlainFrom run symbol (← walkBudget) (← environmentAt env).parent with
  | none => raise (.noNonGeneric name)
  | some fn =>
    match (← get).functionWithEnv? env with
    | none => raise (.notFromGeneric name)
    | some context =>
      let call ← renamedCall symbol context.call
      run (.apply call fn context.args context.caller [])

variable (hooks : Hooks)

/-- A call of `standardGeneric` from the generic that works in `env`. -/
def standardGeneric (name : String) (env : Ref) : Eval Ref := do
  match (← get).functionWithEnv? env with
  | none => raise (.notFromGeneric name)
  | some context =>
    match hooks.standardGeneric with
    | some hook => hook run name env context.fn
    | none =>
      unless (← get).plainStandardGeneric do
        warn "'standardGeneric' called without 'methods' dispatch enabled (will be ignored)"
        modify fun state => { state with plainStandardGeneric := true }
      dispatchPlain run name env

end LazyDispatch.Eval
