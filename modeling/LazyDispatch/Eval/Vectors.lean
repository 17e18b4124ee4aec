import LazyDispatch.Arithmetic
import LazyDispatch.Eval.Invocation

/-!
# Builtins on vectors

Arithmetic, comparison, `c`, `list` and `length`.
-/

namespace LazyDispatch.Eval

/-- Goes on with the result of an operation on types. -/
def checked {α : Type} : Except TypeError α → Query α
  | .ok a => return a
  | .error cause => raise (.type cause)

/-- Allocates a logical vector of one element. -/
def allocLogical (b : Bool) : Eval Ref :=
  allocPayload (.logical [b])

/-- The numbers of an operand of arithmetic. -/
def numbers (ref : Ref) : Query Numbers := do
  match Numbers.ofObject? (← payload ref) with
  | some values => return values
  | none => raise (.type .nonNumeric)

/-- An arithmetic operator.  The right operand is not looked at unless the left
one is numeric. -/
def arithmetic (op : ArithmeticOp) (invocation : Invocation) : Eval Ref := do
  invocation.requireCount 1 2
  let lhs ← invocation.arg 0
  let rhs ← if invocation.args.length = 2 then some <$> invocation.arg 1 else pure none
  let lhs ← numbers lhs
  let rhs ← rhs.mapM fun ref => numbers ref
  allocPayload (← checked (op.apply lhs rhs)).toObject

/-- A comparison. -/
def comparison (op : Comparison) (invocation : Invocation) : Eval Ref := do
  invocation.requireCount 2 2
  let lhs ← invocation.arg 0
  let rhs ← invocation.arg 1
  allocPayload (.logical (← checked (op.onObjects (← payload lhs) (← payload rhs))))

/-- What a value contributes to a combined list: the items of a list, the
elements of an atomic vector each on its own, or anything else as it is. -/
def listItems (ref : Ref) : Eval (List Ref) := do
  match ← payload ref with
  | .list items => return items
  | .null => return []
  | object =>
    if object.mode = .list then return [ref]
    else object.scalars.mapM fun scalar => do
      let item ← allocPayload scalar
      let _ ← protect item
      return item

/-- The builtin `c`: a vector of the widest kind among the values. -/
def combine (invocation : Invocation) : Eval Ref := do
  let values := Args.values invocation.args
  let objects : List Object ← values.mapM fun ref => payload ref
  match Object.concat? objects (Object.widestMode objects) with
  | some object => allocPayload object
  | none =>
    withRoots do
      let items ← values.mapM listItems
      allocPayload (.list items.flatten)

/-- The builtin `list`; the tags of the arguments become names. -/
def makeList (invocation : Invocation) : Eval Ref := do
  let state ← get
  let args := invocation.args
  let ref ← allocPayload (.list (args.map fun arg => arg.value.getD state.fixed.null))
  if args.any (·.tag.isSome) then
    let names ← withRoots do
      let _ ← protect ref
      allocStrings (args.map fun arg => (arg.tag.map state.symbolName).getD "")
    update ref (·.setAttribute state.reserved.names names)
  return ref

/-- The builtin `length`; an environment has as many elements as bindings. -/
def lengthOf (invocation : Invocation) : Eval Ref := do
  invocation.requireCount 1 1
  let length := match ← payload (← invocation.arg 0) with
    | .environment env => env.frame.size
    | other => other.length
  allocPayload (.integer [.ofNat length])

end LazyDispatch.Eval
