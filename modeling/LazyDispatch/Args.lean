import LazyDispatch.Object

/-!
# Argument lists

An argument has an optional tag and, unless it is empty, a value.  Merging two
lists lets the tagged arguments of the second replace those of the first with
the same tag.
-/

namespace LazyDispatch.Args

/-- Gives the first argument with a tag a new value, or adds an argument with
that tag at the end. -/
def setTagged (tag : Symbol) (value : Option Ref) : List Arg → List Arg
  | [] => [⟨some tag, value⟩]
  | arg :: rest =>
    if arg.tag = some tag then ⟨arg.tag, value⟩ :: rest else arg :: setTagged tag value rest

/-- Merges one argument into a list. -/
def mergeOne (args : List Arg) (arg : Arg) : List Arg :=
  match arg.tag with
  | some tag => setTagged tag arg.value args
  | none => args ++ [arg]

/-- Merges the arguments of `other` into `args`, one after the other. -/
def merge (args other : List Arg) : List Arg :=
  other.foldl mergeOne args

/-- The values of the arguments that are not empty. -/
def values (args : List Arg) : List Ref :=
  args.filterMap (·.value)

end LazyDispatch.Args
