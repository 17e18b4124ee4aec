import LazyDispatch.Expr.Text
import LazyDispatch.Object

/-!
# Coercion

Vectors of different kinds are combined by coercing all of them to the widest
kind among them.
-/

namespace LazyDispatch

/-- The integer of a logical value. -/
def integerOfLogical (b : Bool) : Int64 :=
  if b then 1 else 0

/-- The kinds of vectors, from the narrowest to the widest; anything that is no
atomic vector combines into a list. -/
inductive Mode where
  | null
  | logical
  | integer
  | double
  | character
  | list
deriving DecidableEq

namespace Mode

/-- The place of a kind in the order of width. -/
def rank : Mode → Nat
  | null => 0
  | logical => 1
  | integer => 2
  | double => 3
  | character => 4
  | list => 5

/-- The wider of two kinds. -/
def wider (a b : Mode) : Mode :=
  if a.rank ≤ b.rank then b else a

end Mode

namespace Object

/-- The kind of an object. -/
def mode : Object → Mode
  | null => .null
  | logical _ => .logical
  | integer _ => .integer
  | double _ => .double
  | character _ => .character
  | _ => .list

/-- The elements of a logical vector. -/
def logicals : Object → List Bool
  | logical values => values
  | _ => []

/-- The elements of a vector as integers. -/
def integers : Object → List Int64
  | logical values => values.map integerOfLogical
  | integer values => values
  | _ => []

/-- The elements of a vector as doubles. -/
def doubles : Object → List Float
  | logical values => values.map fun b => (integerOfLogical b).toFloat
  | integer values => values.map Int64.toFloat
  | double values => values
  | _ => []

/-- The elements of an atomic vector as text. -/
def texts? : Object → Option (List String)
  | logical values => some (values.map logicalText)
  | integer values => some (values.map integerText)
  | double values => some (values.map Text.doubleText)
  | character values => some values
  | _ => none

/-- The elements of an atomic vector as vectors of length one. -/
def scalars : Object → List Object
  | logical values => values.map fun b => logical [b]
  | integer values => values.map fun i => integer [i]
  | double values => values.map fun d => double [d]
  | character values => values.map fun s => character [s]
  | _ => []

/-- The widest kind among objects. -/
def widestMode (objects : List Object) : Mode :=
  objects.foldl (fun widest object => widest.wider object.mode) .null

/-- The elements of objects, coerced to a kind of atomic vector. -/
def concat? (objects : List Object) : Mode → Option Object
  | .null => some null
  | .logical => some (logical (objects.flatMap logicals))
  | .integer => some (integer (objects.flatMap integers))
  | .double => some (double (objects.flatMap doubles))
  | .character => some (character (objects.flatMap fun object => object.texts?.getD []))
  | .list => none

/-- The text of an object in the messages of `stop` and `warning`. -/
def messageText : Object → String
  | character values => String.join values
  | other =>
    match other.texts? with
    | some texts => " ".intercalate texts
    | none => "<" ++ other.typeName ++ ">"

end Object

end LazyDispatch
