import LazyDispatch.Association
import LazyDispatch.Ref
import LazyDispatch.Symbol

/-!
# Bindings and frames

A frame maps symbols to bindings.  A binding remembers where its value came
from: a formal that no argument matched is bound as missing, an argument that
was not evaluated as a promise.
-/

namespace LazyDispatch

/-- Where the value of a binding came from. -/
inductive Origin where
  | unbound
  /-- A formal without an argument; its value, if any, is the promise of the
  default. -/
  | missing
  | bound
  | promise
deriving DecidableEq

/-- What a symbol stands for in a frame. -/
structure Binding where
  origin : Origin
  value : Option Ref
deriving DecidableEq

namespace Binding

/-- What a symbol without a binding stands for. -/
def unbound : Binding := ⟨.unbound, none⟩

/-- A symbol bound to a value. -/
def bound (value : Ref) : Binding := ⟨.bound, some value⟩

/-- A symbol bound to a promise of its value. -/
def promise (value : Ref) : Binding := ⟨.promise, some value⟩

/-- A formal without an argument, with the promise of its default. -/
def missing (default : Option Ref) : Binding := ⟨.missing, default⟩

end Binding

/-- A map from symbols to bindings; no symbol has two entries. -/
structure Frame where
  entries : List (Symbol × Binding)
  distinct : DistinctKeys entries

namespace Frame

/-- The frame without bindings. -/
def empty : Frame := ⟨[], distinctKeys_nil⟩

/-- The binding of a symbol. -/
def find? (frame : Frame) (symbol : Symbol) : Option Binding :=
  frame.entries.lookup symbol

/-- Whether a symbol has a binding. -/
def contains (frame : Frame) (symbol : Symbol) : Bool :=
  (frame.find? symbol).isSome

/-- The number of bindings. -/
def size (frame : Frame) : Nat := frame.entries.length

/-- Binds a symbol, replacing its former binding. -/
def insert (frame : Frame) (symbol : Symbol) (binding : Binding) : Frame :=
  ⟨putEntry symbol binding frame.entries, frame.distinct.putEntry symbol binding⟩

/-- Binds a symbol to a value. -/
def bind (frame : Frame) (symbol : Symbol) (value : Ref) : Frame :=
  frame.insert symbol (.bound value)

/-- Adds bindings for the symbols that a frame does not bind. -/
def bindAbsent (frame : Frame) (supplied : List (Symbol × Ref)) : Frame :=
  supplied.foldl (fun frame (symbol, value) =>
    if frame.contains symbol then frame else frame.bind symbol value) frame

/-- The values that the bindings hold. -/
def edges (frame : Frame) : List Ref :=
  frame.entries.filterMap fun (_, binding) => binding.value

/-- Looking up a symbol right after binding it. -/
@[simp] theorem find?_insert_self (frame : Frame) (symbol : Symbol)
    (binding : Binding) :
    (frame.insert symbol binding).find? symbol = some binding :=
  lookup_putEntry_self symbol binding frame.entries

/-- Binding a symbol does not touch the others. -/
theorem find?_insert_of_ne (frame : Frame) {symbol other : Symbol}
    (binding : Binding) (h : other ≠ symbol) :
    (frame.insert symbol binding).find? other = frame.find? other :=
  lookup_putEntry_of_ne binding frame.entries h

end Frame

/-- A frame with the environment that encloses it. -/
structure Environment where
  parent : Option Ref
  frame : Frame

/-- The environment without bindings inside `parent`. -/
def Environment.inside (parent : Option Ref) : Environment := ⟨parent, .empty⟩

/-- The references that an environment holds. -/
def Environment.edges (env : Environment) : List Ref :=
  env.parent.toList ++ env.frame.edges

end LazyDispatch
