import LazyDispatch.Builtin
import LazyDispatch.Ref

/-!
# The method cache

A host may override builtins through a generic function and a list of methods,
which are cached for each builtin.
-/

namespace LazyDispatch

/-- Whether calls of a builtin consult its cached generic. -/
inductive MethodState where
  | noMethods
  /-- The methods changed and are read again at the next call. -/
  | needsReset
  | hasMethods
  /-- Dispatch is off, for instance while the generic itself runs. -/
  | suppressed
deriving DecidableEq

/-- What is cached for a builtin. -/
structure MethodEntry where
  state : MethodState := .noMethods
  generic : Option Ref := none
  methods : Option Ref := none
deriving DecidableEq

/-- The references of an entry. -/
def MethodEntry.edges (entry : MethodEntry) : List Ref :=
  entry.generic.toList ++ entry.methods.toList

/-- How a host changes an entry. -/
inductive MethodUpdate where
  | clear
  | reset
  /-- What is absent stays as it is. -/
  | set (generic methods : Option Ref)
  | suppress

/-- The changed entry; there is none if methods are set and no generic is known. -/
def MethodEntry.update? (entry : MethodEntry) : MethodUpdate → Option MethodEntry
  | .clear => some {}
  | .reset => some { entry with state := .needsReset }
  | .suppress => some { entry with state := .suppressed }
  | .set generic methods =>
    match generic <|> entry.generic with
    | none => none
    | some generic => some ⟨.hasMethods, some generic, methods <|> entry.methods⟩

/-- The entries of the builtins that have one. -/
structure MethodCache where
  entries : List (Builtin × MethodEntry)

namespace MethodCache

/-- The cache without entries. -/
def empty : MethodCache := ⟨[]⟩

/-- The entry of a builtin. -/
def get (cache : MethodCache) (builtin : Builtin) : MethodEntry :=
  (cache.entries.lookup builtin).getD {}

/-- Replaces the entry of a builtin. -/
def set (cache : MethodCache) (builtin : Builtin) (entry : MethodEntry) :
    MethodCache :=
  ⟨(builtin, entry) :: cache.entries.filter (·.1 ≠ builtin)⟩

/-- The cached references. -/
def edges (cache : MethodCache) : List Ref :=
  cache.entries.flatMap (·.2.edges)

/-- Reading the entry that was just written. -/
@[simp] theorem get_set_self (cache : MethodCache) (builtin : Builtin)
    (entry : MethodEntry) :
    (cache.set builtin entry).get builtin = entry := by
  simp [get, set]

end MethodCache

end LazyDispatch
