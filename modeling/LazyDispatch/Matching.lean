import LazyDispatch.Args
import LazyDispatch.Text.Affix

/-!
# Argument matching

The arguments of a call are matched to the formals of a function in three
passes: by exact tag, then by a tag that begins exactly one formal before `...`,
then by position up to `...`.  What is left over goes to `...`, and is an error
without it.

An assignment gives each formal the index of the argument that it takes, if any.
-/

namespace LazyDispatch

/-- What a formal receives. -/
inductive Matched where
  | supplied (value : Ref)
  | missing
  /-- The arguments gathered by `...`, in call order. -/
  | dots (args : List Arg)
deriving DecidableEq

/-- Why arguments do not match. -/
inductive MatchError where
  /-- The arguments at these indices are left over. -/
  | unused (indices : List Nat)
  | multipleMatch (formal : Symbol)
  /-- The tag of the argument at this index begins several formals. -/
  | ambiguous (index : Nat)
deriving DecidableEq

namespace Matching

/-- For each formal, the index of the argument that it takes. -/
abbrev Assignment := List (Option Nat)

/-- The indices of the elements that satisfy a predicate. -/
def indicesWhere {α : Type} (p : α → Bool) (items : List α) : List Nat :=
  (items.zipIdx.filter fun item => p item.1).map (·.2)

/-- The place of the first formal named `...`. -/
def dotsPlace? (dots : Symbol) (formals : List Formal) : Option Nat :=
  formals.findIdx? (·.name = dots)

/-- First pass: every formal but `...` takes the argument tagged with its name. -/
def assignExact (dotsPlace : Option Nat) (formals : List Formal)
    (actuals : List Arg) :
    Except MatchError Assignment :=
  formals.zipIdx.mapM fun (formal, place) =>
    if dotsPlace = some place then .ok none
    else
      match indicesWhere (·.tag = some formal.name) actuals with
      | [] => .ok none
      | [index] => .ok (some index)
      | _ => .error (.multipleMatch formal.name)

/-- The tables of the second pass: the assignment so far, and for each formal
whether it took its argument in this pass. -/
structure PartialTables where
  bound : Assignment
  partly : List Bool

namespace PartialTables

/-- The tables after the first pass. -/
def start (exact : Assignment) : PartialTables :=
  ⟨exact, exact.map fun _ => false⟩

/-- Whether a formal took its argument in this pass. -/
def isPartly (tables : PartialTables) (place : Nat) : Bool :=
  tables.partly[place]?.getD false

/-- Whether a formal did not take its argument in the first pass. -/
def isOpen (tables : PartialTables) (place : Nat) : Bool :=
  (tables.bound[place]?.getD none).isNone || tables.isPartly place

/-- The places below `limit` that are open and whose names begin with a tag. -/
def candidates (names : Symbol → String) (formals : List Formal) (limit : Nat)
    (tables : PartialTables) (tag : Symbol) : List Nat :=
  (List.range limit).filter fun place =>
    tables.isOpen place &&
      formals[place]?.any fun formal => Text.begins (names tag) (names formal.name)

/-- Lets the argument at `index` take its sole candidate. -/
def take (formals : List Formal) (index : Nat) (places : List Nat)
    (tables : PartialTables) : Except MatchError PartialTables :=
  match places with
  | [] => .ok tables
  | [place] =>
    match formals[place]?, tables.isPartly place with
    | some formal, true => .error (.multipleMatch formal.name)
    | _, _ =>
      .ok ⟨tables.bound.set place (some index), tables.partly.set place true⟩
  | _ => .error (.ambiguous index)

/-- Goes on to the next argument.  A tagged argument that no formal took yet
takes the open formal that its tag begins. -/
def advance (names : Symbol → String) (formals : List Formal) (limit : Nat)
    (tables : PartialTables) (actual : Arg) (index : Nat) :
    Except MatchError PartialTables :=
  match actual.tag with
  | none => .ok tables
  | some tag =>
    if tables.bound.contains (some index) then .ok tables
    else tables.take formals index (tables.candidates names formals limit tag)

end PartialTables

/-- Second pass: a tagged argument that no formal took by its exact name takes
the formal before `...` that its tag begins. -/
def assignPartial (names : Symbol → String) (formals : List Formal) (limit : Nat)
    (actuals : List Arg) (exact : Assignment) : Except MatchError Assignment := do
  let tables ← actuals.zipIdx.foldlM (fun (tables : PartialTables) item =>
    tables.advance names formals limit item.1 item.2) (.start exact)
  return tables.bound

/-- Fills the open places, in order, with the given indices. -/
def fill : Assignment → List Nat → Assignment
  | [], _ => []
  | some index :: rest, indices => some index :: fill rest indices
  | none :: rest, [] => none :: rest
  | none :: rest, index :: indices => some index :: fill rest indices

/-- Third pass: the untagged arguments fill the open places before `...`. -/
def assignPositional (limit : Nat) (actuals : List Arg)
    (assignment : Assignment) : Assignment :=
  fill (assignment.take limit) (indicesWhere (·.tag.isNone) actuals) ++ assignment.drop limit

/-- The indices of the arguments that no formal took. -/
def leftover (actuals : List Arg) (assignment : Assignment) : List Nat :=
  (List.range actuals.length).filter fun index => !assignment.contains (some index)

/-- What a formal receives that took the argument at an index, or none. -/
def received (actuals : List Arg) (index : Option Nat) : Matched :=
  match index.bind (actuals[·]?) with
  | some ⟨_, some value⟩ => .supplied value
  | _ => .missing

end Matching

open Matching in
/-- Matches arguments to formals; the result has an entry for each formal. -/
def matchArgs (names : Symbol → String) (dots : Symbol) (formals : List Formal)
    (actuals : List Arg) : Except MatchError (List Matched) := do
  let dotsPlace := dotsPlace? dots formals
  let limit := dotsPlace.getD formals.length
  let exact ← assignExact dotsPlace formals actuals
  let partly ← assignPartial names formals limit actuals exact
  let assignment := assignPositional limit actuals partly
  let unused := leftover actuals assignment
  if dotsPlace.isNone && !unused.isEmpty then .error (.unused unused)
  else
    return assignment.zipIdx.map fun (index, place) =>
      if dotsPlace = some place then .dots (unused.filterMap (actuals[·]?))
      else received actuals index

end LazyDispatch
