import LazyDispatch.Builtin
import LazyDispatch.Expr.Basic
import LazyDispatch.Frame

/-!
# Objects

The values that live on the heap.  An object has a payload and a list of
attributes, such as its class and its names.  Two things about objects matter to
the heap: the references they hold, which a collection follows, and their
estimated size, which selects a size class.
-/

namespace LazyDispatch

/-- An argument of a call: its tag, and its value unless it is empty. -/
abbrev Arg := Tagged (Option Ref)

/-- An expression whose evaluation is deferred.  A forced promise no longer
needs its environment. -/
inductive Promise where
  | pending (expr : Expr) (env : Ref)
  | underEvaluation (expr : Expr) (env : Ref)
  | forced (expr : Expr) (value : Ref)

namespace Promise

/-- The deferred expression. -/
def expr : Promise → Expr
  | pending expr _ | underEvaluation expr _ | forced expr _ => expr

/-- The value of a forced promise. -/
def value? : Promise → Option Ref
  | forced _ value => some value
  | _ => none

/-- The symbol and the environment of an unforced promise of a bare symbol. -/
def pendingSymbol? : Promise → Option (Symbol × Ref)
  | pending (.symbol _ name) env | underEvaluation (.symbol _ name) env => some (name, env)
  | _ => none

/-- The reference that a promise holds. -/
def edge : Promise → Ref
  | pending _ env | underEvaluation _ env => env
  | forced _ value => value

end Promise

/-- A function made from an expression, with the environment that it was made
in. -/
structure Closure where
  formals : List Formal
  formalsSite : Nat
  body : Expr
  env : Ref

/-- The payload of a cell. -/
inductive Object where
  | null
  | logical (values : List Bool)
  | integer (values : List Int64)
  | double (values : List Float)
  | character (values : List String)
  | list (items : List Ref)
  | symbol (name : Symbol)
  | closure (fn : Closure)
  | builtin (fn : Builtin)
  | environment (env : Environment)
  | promise (deferred : Promise)
  /-- The arguments gathered by `...`. -/
  | dots (args : List Arg)
  /-- A quoted expression. -/
  | language (expr : Expr)

namespace Object

/-- The name of the type of an object. -/
def typeName : Object → String
  | null => "NULL"
  | logical _ => "logical"
  | integer _ => "integer"
  | double _ => "double"
  | character _ => "character"
  | list _ => "list"
  | symbol _ => "symbol"
  | closure _ => "closure"
  | builtin _ => "builtin"
  | environment _ => "environment"
  | promise _ => "promise"
  | dots _ => "..."
  | language _ => "language"

/-- Whether an object can be applied. -/
def isFunction : Object → Bool
  | closure _ | builtin _ => true
  | _ => false

/-- The number of elements; what is no vector counts as one. -/
def length : Object → Nat
  | null => 0
  | logical values => values.length
  | integer values => values.length
  | double values => values.length
  | character values => values.length
  | list items => items.length
  | dots args => args.length
  | _ => 1

/-- The estimated size of the payload in bytes; a reference takes eight. -/
def payloadSize : Object → Nat
  | null | symbol _ | builtin _ => 0
  | logical values => values.length
  | integer values => 8 * values.length
  | double values => 8 * values.length
  | character values => values.foldr (fun s size => 8 + s.utf8ByteSize + size) 0
  | list items => 8 * items.length
  | dots args => 16 * args.length
  | closure _ => 24
  | environment env => 8 * (1 + 2 * env.frame.size)
  | promise _ => 24
  | language _ => 8

/-- The references that the payload holds, in order. -/
def edges : Object → List Ref
  | list items => items
  | closure fn => [fn.env]
  | environment env => env.edges
  | promise deferred => [deferred.edge]
  | dots args => args.filterMap (·.value)
  | _ => []

end Object

/-- An object on the heap: its payload and its attributes. -/
structure HeapObject where
  payload : Object
  attributes : List (Symbol × Ref) := []

namespace HeapObject

/-- The value of an attribute. -/
def attribute? (object : HeapObject) (name : Symbol) : Option Ref :=
  object.attributes.lookup name

/-- Sets an attribute in place, or adds it at the end. -/
def setAttribute (object : HeapObject) (name : Symbol) (value : Ref) :
    HeapObject :=
  { object with attributes := putEntry name value object.attributes }

/-- Removes the first entry of an attribute. -/
def dropAttribute (object : HeapObject) (name : Symbol) : HeapObject :=
  { object with attributes := object.attributes.eraseP (·.1 = name) }

/-- Sets an attribute, or removes it when there is no value. -/
def updateAttribute (object : HeapObject) (name : Symbol) : Option Ref → HeapObject
  | some value => object.setAttribute name value
  | none => object.dropAttribute name

/-- The references that an object holds: its attributes, then its payload. -/
def edges (object : HeapObject) : List Ref :=
  object.attributes.map (·.2) ++ object.payload.edges

/-- The estimated size in bytes: a header of sixteen, sixteen for each
attribute, and the payload. -/
def size (object : HeapObject) : Nat :=
  16 + 16 * object.attributes.length + object.payload.payloadSize

end HeapObject

end LazyDispatch
