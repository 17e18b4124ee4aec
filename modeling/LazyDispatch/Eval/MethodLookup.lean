import LazyDispatch.Eval.Lookup
import LazyDispatch.MethodSearch

/-!
# Finding methods

A method is a function with the name of its generic and class.  It is looked for
from the environment of the call, then from the environment where the generic is
defined, then among the registered methods.

A method that dispatch selects finds in its frame how it was selected; the next
method is found from there.
-/

namespace LazyDispatch

/-- What a method finds in its frame. -/
structure DispatchVars where
  /-- The classes from the one that selected the method on. -/
  classes : Ref
  generic : Ref
  /-- The name of the method, for each operand that has its class. -/
  method : Ref
  group : Ref
  callEnv : Ref
  defEnv : Ref

/-- The bindings of the dispatch variables. -/
def DispatchVars.bindings (vars : DispatchVars) (reserved : Reserved) :
    List (Symbol × Ref) :=
  [(reserved.dotClass, vars.classes), (reserved.dotGeneric, vars.generic),
    (reserved.dotMethod, vars.method), (reserved.dotGroup, vars.group),
    (reserved.dotGenericCallEnv, vars.callEnv), (reserved.dotGenericDefEnv, vars.defEnv)]

/-- A method that dispatch selected, the name it was selected under, and what it
finds in its frame. -/
structure Selection where
  name : String
  method : Ref
  vars : DispatchVars

namespace Eval

/-- The registered method of a name. -/
def registeredMethod? (symbol : Symbol) : Query (Option Ref) := do
  match (← environmentAt (← read).fixed.methods).frame.find? symbol with
  | some ⟨_, some fn⟩ => return if (← payload fn).isFunction then some fn else none
  | _ => return none

/-- Allocates the classes from a place on.  If that cuts some off and
`keepWhole` is set, the whole vector is kept as an attribute. -/
def dispatchClasses (classes : List String) (index : Nat) (keepWhole : Bool) : Eval Ref := do
  let suffix ← protectedStrings (classes.drop index)
  if keepWhole && 0 < index then
    let whole ← protectedStrings classes
    let previous := (← get).reserved.previous
    update suffix (·.setAttribute previous whole)
  return suffix

variable (run : Runner)

/-- The method of a name. -/
def lookupMethod (callEnv defEnv : Ref) (name : String) : Eval (Option Ref) := do
  match (← get).naming.symbols.find? name with
  | none => return none
  | some symbol =>
    match ← findFun? run symbol callEnv with
    | some fn => return some fn
    | none =>
      match ← findFun? run symbol defEnv with
      | some fn => return some fn
      | none => registeredMethod? symbol

/-- Runs a search from a class on; also gives the search after it. -/
def findMethod (search : MethodSearch) (callEnv defEnv : Ref) (start : Nat) (allowDefault : Bool) :
    Eval (Option MethodMatch × MethodSearch) := do
  let lookup := fun name => attempt (lookupMethod run callEnv defEnv name)
  let (result, search) ← search.run lookup start allowDefault
  return (← settle result, search)

/-- Applies a selected method under its name, with the dispatch variables. -/
def applyMethod (selection : Selection) (call : Expr) (args : List Arg) (env : Ref) :
    Eval Ref := do
  let head ← intern selection.name
  let call ← renamedCall head call
  run (.apply call selection.method args env (selection.vars.bindings (← get).reserved))

end Eval

end LazyDispatch
