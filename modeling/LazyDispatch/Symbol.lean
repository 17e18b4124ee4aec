import LazyDispatch.Association

/-!
# Symbols

Names are interned: a symbol table numbers its names in the order in which they
are first interned, and a symbol is such a number.  The names stand in an array,
each at the place of its number, and a map leads from the names to their
symbols.  Interning a new name extends both, and nothing is ever taken out, so a
symbol keeps its name.
-/

namespace LazyDispatch

/-- The number of an interned name. -/
structure Symbol where
  index : Nat
deriving DecidableEq

/-- The interned names, each at the place of its number, and the map from names
to symbols. -/
structure SymbolStore where
  names : Array String
  mappings : List (String × Symbol)

namespace SymbolStore

/-- The store without names. -/
def empty : SymbolStore := ⟨#[], []⟩

/-- The number of interned names. -/
def size (store : SymbolStore) : Nat := store.names.size

/-- The symbol that the map has for a name. -/
def find? (store : SymbolStore) (name : String) : Option Symbol :=
  store.mappings.lookup name

/-- The name at the place of a symbol. -/
def name? (store : SymbolStore) (symbol : Symbol) : Option String :=
  store.names[symbol.index]?

/-- The symbol of a name.  A new name is added at the end of the names, and to
the map. -/
def intern (store : SymbolStore) (name : String) : Symbol × SymbolStore :=
  match store.find? name with
  | some symbol => (symbol, store)
  | none =>
    let symbol : Symbol := ⟨store.names.size⟩
    (symbol, {
      names := store.names.push name
      mappings := putEntry name symbol store.mappings })

/-- The map and the names are inverse to each other. -/
def Consistent (store : SymbolStore) : Prop :=
  ∀ name symbol, store.find? name = some symbol ↔ store.name? symbol = some name

/-- **Interning keeps the map and the names inverse to each other.** -/
theorem Consistent.intern {store : SymbolStore} (hstore : store.Consistent)
    (added : String) : (store.intern added).2.Consistent := by
  unfold SymbolStore.intern
  split
  · exact hstore
  · next hnew =>
      intro name symbol
      have hplace : (store.names.push added)[symbol.index]? =
          if symbol.index = store.names.size then some added
          else store.names[symbol.index]? := Array.getElem?_push
      show (putEntry added _ store.mappings).lookup name = some symbol ↔
        (store.names.push added)[symbol.index]? = some name
      rw [hplace]
      by_cases hname : name = added
      · -- The new name has the new symbol, and stands at no other place.
        subst hname
        rw [lookup_putEntry_self]
        split
        · next hlast =>
            refine iff_of_true ?_ rfl
            rw [← hlast]
        · next hlast =>
            refine iff_of_false ?_ fun hold => ?_
            · intro hsymbol
              cases hsymbol
              exact hlast rfl
            · cases hnew.symm.trans ((hstore name symbol).mpr hold)
      · -- The other names have the symbols that they had, none of them the new one.
        rw [lookup_putEntry_of_ne _ _ hname]
        refine (hstore name symbol).trans ?_
        split
        · next hlast =>
            refine iff_of_false ?_ fun hsame => hname (Option.some.inj hsame).symm
            rw [name?, hlast, Array.getElem?_size]
            exact nofun
        · exact Iff.rfl

/-- The store without names is consistent. -/
theorem consistent_empty : empty.Consistent := by
  intro name symbol
  simp [empty, find?, name?]

end SymbolStore

/-- A symbol table, whose map and names agree. -/
structure SymbolTable extends SymbolStore where
  consistent : toSymbolStore.Consistent

namespace SymbolTable

/-- The table without names. -/
def empty : SymbolTable := ⟨.empty, SymbolStore.consistent_empty⟩

instance : Inhabited SymbolTable := ⟨empty⟩

/-- The symbol of a name, which is added if it is new. -/
def intern (table : SymbolTable) (name : String) : Symbol × SymbolTable :=
  let added := table.toSymbolStore.intern name
  (added.1, ⟨added.2, table.consistent.intern name⟩)

/-- Interns names one after the other. -/
def internAll (table : SymbolTable) (names : List String) : SymbolTable :=
  names.foldl (fun table name => (table.intern name).2) table

end SymbolTable

/-- The symbols that evaluation itself refers to. -/
structure Reserved where
  dots : Symbol
  cls : Symbol
  names : Symbol
  previous : Symbol
  dotClass : Symbol
  dotGeneric : Symbol
  dotMethod : Symbol
  dotGroup : Symbol
  dotGenericCallEnv : Symbol
  dotGenericDefEnv : Symbol
  deferredDefault : Symbol
  generic : Symbol
  object : Symbol

/-- Interns the reserved names, in this order. -/
def Reserved.intern : StateM SymbolTable Reserved := do
  let symbol (name : String) : StateM SymbolTable Symbol := fun table => table.intern name
  return {
    dots := ← symbol "..."
    cls := ← symbol "class"
    names := ← symbol "names"
    previous := ← symbol "previous"
    dotClass := ← symbol ".Class"
    dotGeneric := ← symbol ".Generic"
    dotMethod := ← symbol ".Method"
    dotGroup := ← symbol ".Group"
    dotGenericCallEnv := ← symbol ".GenericCallEnv"
    dotGenericDefEnv := ← symbol ".GenericDefEnv"
    deferredDefault := ← symbol ".DeferredDefault"
    generic := ← symbol "generic"
    object := ← symbol "object" }

end LazyDispatch
