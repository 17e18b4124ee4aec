import LazyDispatch.Eval.Basic

/-!
# Classes

The class vector of an object is its class attribute, or else an implicit class
given by its type.
-/

namespace LazyDispatch

/-- The class of an object without a class attribute. -/
def Object.implicitClass : Object → List String
  | null => ["NULL"]
  | logical _ => ["logical"]
  | integer _ => ["integer", "numeric"]
  | double _ => ["double", "numeric"]
  | character _ => ["character"]
  | list _ => ["list"]
  | symbol _ => ["name"]
  | closure _ | builtin _ => ["function"]
  | environment _ => ["environment"]
  | promise _ => ["promise"]
  | dots _ => ["..."]
  | language _ => ["call"]

/-- A class vector in messages. -/
def formatClass : List String → String
  | [cls] => "'" ++ cls ++ "'"
  | classes => "c(" ++ ", ".intercalate (classes.map fun cls => "'" ++ cls ++ "'") ++ ")"

namespace Eval

/-- The implicit class of an object. -/
def implicitClass (ref : Ref) : Query (List String) :=
  return (← payload ref).implicitClass

/-- The class attribute of an object, if it is a character vector with elements. -/
def explicitClass? (ref : Ref) : Query (Option (List String)) := do
  match (← fetch ref).attribute? (← read).reserved.cls with
  | none => return none
  | some cls => return (← asStrings? cls).filter (· ≠ [])

/-- The classes of an object, the most specific first. -/
def classVector (ref : Ref) : Query (List String) := do
  match ← explicitClass? ref with
  | some classes => return classes
  | none => implicitClass ref

/-- Sets the class attribute of an object in place; no class removes it. -/
def setClass (ref : Ref) (classes : List String) : Eval Unit := do
  let cls := (← get).reserved.cls
  if classes.isEmpty then update ref (·.dropAttribute cls)
  else
    withRoots do
      let _ ← protect ref
      let value ← allocStrings classes
      update ref (·.setAttribute cls value)

end Eval

end LazyDispatch
