import LazyDispatch.Eval.Lookup
import LazyDispatch.Eval.Vectors

/-!
# Identity of objects

Two objects are identical if their attributes and payloads agree all the way
down.  Environments are identical only to themselves, and quoted expressions,
function bodies and formals only if they are written at the same site.
-/

namespace LazyDispatch

/-- Whether two payloads agree, apart from the items of lists. -/
def Object.samePayload : Object → Object → Bool
  | .null, .null => true
  | .logical xs, .logical ys => xs == ys
  | .integer xs, .integer ys => xs == ys
  | .double xs, .double ys => xs == ys
  | .character xs, .character ys => xs == ys
  | .symbol x, .symbol y => x = y
  | .builtin x, .builtin y => x = y
  | .list xs, .list ys => xs.length = ys.length
  | .closure x, .closure y =>
    x.env = y.env && x.body.site = y.body.site && x.formalsSite = y.formalsSite
  | .language x, .language y => x.site = y.site
  | _, _ => false

namespace Eval

/-- Whether two objects are identical, down to a depth. -/
def identicalWithin : Nat → Ref → Ref → Query Bool
  | 0, _, _ => throw .outOfFuel
  | depth + 1, a, b => do
    if a = b then return true
    else
      let x ← fetch a
      let y ← fetch b
      if x.attributes.length ≠ y.attributes.length then return false
      else
        let attributes ← x.attributes.allM fun (name, value) =>
          match y.attribute? name with
          | none => return false
          | some other => identicalWithin depth value other
        if !attributes then return false
        else if !x.payload.samePayload y.payload then return false
        else
          match x.payload, y.payload with
          | .list xs, .list ys => (xs.zip ys).allM fun (p, q) => identicalWithin depth p q
          | _, _ => return true

/-- Whether two objects are identical. -/
def identicalObjects (a b : Ref) : Query Bool := do
  identicalWithin (← walkBudget) a b

/-- The builtin `identical`. -/
def identical (invocation : Invocation) : Eval Ref := do
  invocation.requireCount 2 2
  let a ← invocation.arg 0
  let b ← invocation.arg 1
  allocLogical (← identicalObjects a b)

end Eval

end LazyDispatch
