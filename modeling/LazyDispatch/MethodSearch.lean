import LazyDispatch.Ref

/-!
# Method search

A generic function is resolved over a class vector, from the most specific class
on.  At each class the method of the generic is tried before the one of its
group; at the end comes the default.  The search only needs a way to look up a
name, which may have effects and may fail.  It can be resumed at a later class,
which is how the next method is found.
-/

namespace LazyDispatch

/-- How far a search has come. -/
inductive DispatchState where
  | notDispatching
  | awaitingMethod
  | noMethod
deriving DecidableEq

/-- A method that a search found. -/
structure MethodMatch where
  /-- The place of its class; the number of classes for the default. -/
  index : Nat
  name : String
  method : Ref
  groupMatch : Bool
  isDefault : Bool
deriving DecidableEq

/-- The name of the method of a generic or group for a class. -/
def methodName (generic cls : String) : String :=
  generic ++ "." ++ cls

theorem methodName_ne_empty (generic cls : String) :
    methodName generic cls ≠ "" := by
  simp [methodName]

/-- What is searched for, and what was found. -/
structure MethodSearch where
  generic : String
  group : Option String
  classes : List String
  index : Nat := 0
  found : Option MethodMatch := none
  state : DispatchState := .notDispatching

namespace MethodSearch

/-- A search that has not begun; an empty group is no group. -/
def start (generic : String) (group : Option String) (classes : List String) :
    MethodSearch :=
  { generic, group := group.filter (· ≠ ""), classes }

variable {m : Type → Type} [Monad m] {ε : Type}

/-- The result of a search step: an error, a method, or nothing, with the search
after it. -/
abbrev Result (ε : Type) := Except ε (Option MethodMatch) × MethodSearch

/-- Ends a search with a method. -/
def select (search : MethodSearch) (found : MethodMatch) : Result ε :=
  (.ok (some found), { search with found := some found })

/-- Tries the default after the last class. -/
def finish (lookup : String → m (Except ε (Option Ref))) (allowDefault : Bool)
    (search : MethodSearch) : m (Result ε) := do
  let count := search.classes.length
  let search := { search with index := count }
  if allowDefault then
    let name := methodName search.generic "default"
    match ← lookup name with
    | .error err => return (.error err, search)
    | .ok (some method) => return search.select ⟨count, name, method, false, true⟩
    | .ok none => return (.ok none, { search with state := .noMethod })
  else return (.ok none, { search with state := .noMethod })

/-- Tries the classes that remain, the first of them at place `index`. -/
def scan (lookup : String → m (Except ε (Option Ref))) (allowDefault : Bool) :
    MethodSearch → Nat → List String → m (Result ε)
  | search, _, [] => search.finish lookup allowDefault
  | search, index, cls :: rest => do
    let search := { search with index }
    let name := methodName search.generic cls
    match ← lookup name with
    | .error err => return (.error err, search)
    | .ok (some method) => return search.select ⟨index, name, method, false, false⟩
    | .ok none =>
      match search.group with
      | none => scan lookup allowDefault search (index + 1) rest
      | some group =>
        let name := methodName group cls
        match ← lookup name with
        | .error err => return (.error err, search)
        | .ok (some method) => return search.select ⟨index, name, method, true, false⟩
        | .ok none => scan lookup allowDefault search (index + 1) rest

/-- Searches from the class at place `start` on. -/
def run (lookup : String → m (Except ε (Option Ref))) (start : Nat)
    (allowDefault : Bool) (search : MethodSearch) : m (Result ε) :=
  scan lookup allowDefault { search with found := none, state := .awaitingMethod } start
    (search.classes.drop start)

end MethodSearch

end LazyDispatch
