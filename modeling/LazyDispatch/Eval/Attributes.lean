import LazyDispatch.Eval.Classes
import LazyDispatch.Eval.Invocation
import LazyDispatch.Eval.Vectors

/-!
# Builtins on classes

Objects are values: a change of the class makes a copy.  Only environments,
which are shared by nature, change in place.
-/

namespace LazyDispatch.Eval

/-- The builtin `class`: the class attribute, or else the first of the implicit
classes, where a double counts as numeric. -/
def classOf (invocation : Invocation) : Eval Ref := do
  invocation.requireCount 1 1
  let object ← fetch (← invocation.arg 0)
  match object.attribute? (← get).reserved.cls with
  | some cls => return cls
  | none =>
    match object.payload with
    | .double _ => allocStrings ["numeric"]
    | other => allocStrings (other.implicitClass.take 1)

/-- The builtin `oldClass`: the class attribute or `NULL`. -/
def oldClass (invocation : Invocation) : Eval Ref := do
  invocation.requireCount 1 1
  let object ← fetch (← invocation.arg 0)
  let state ← get
  return (object.attribute? state.reserved.cls).getD state.fixed.null

/-- A value with another class attribute: an environment itself, a copy of
anything else. -/
def withClass (ref : Ref) (cls : Option Ref) : Eval Ref := do
  let name := (← get).reserved.cls
  let object ← fetch ref
  match object.payload with
  | .environment _ =>
    update ref (·.updateAttribute name cls)
    return ref
  | .null => if cls.isSome then raise (.invalidArgument .attributeOnNull) else return ref
  | _ => allocate (object.updateAttribute name cls)

/-- The builtin `class<-`. -/
def setClassOf (invocation : Invocation) : Eval Ref := do
  invocation.requireCount 2 2
  let ref ← invocation.arg 0
  let cls ← invocation.arg 1
  match ← payload cls with
  | .null | .character [] => withClass ref none
  | .character _ => withClass ref (some cls)
  | _ => raise (.invalidArgument .invalidClass)

/-- The builtin `unclass`. -/
def unclass (invocation : Invocation) : Eval Ref := do
  invocation.requireCount 1 1
  let ref ← invocation.arg 0
  let object ← fetch ref
  match object.payload with
  | .environment _ => raise (.invalidArgument .unclassEnvironment)
  | _ =>
    if (object.attribute? (← get).reserved.cls).isNone then return ref else withClass ref none

/-- The builtin `inherits`. -/
def inherits (invocation : Invocation) : Eval Ref := do
  invocation.requireCount 2 2
  let ref ← invocation.arg 0
  match ← asStrings? (← invocation.arg 1) with
  | none => raise (.invalidArgument .whatNotCharacter)
  | some what => allocLogical ((← classVector ref).any what.contains)

end LazyDispatch.Eval
