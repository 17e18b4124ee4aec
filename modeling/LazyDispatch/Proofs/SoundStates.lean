import LazyDispatch.Proofs.Persistence

/-!
# Sound states

What dispatch relies on in every state of an interpreter: the heap is coherent,
the null object is in place, and the dispatch variables have different symbols.
An interpreter starts in such a state, and each later state of a run is one
again.
-/

namespace LazyDispatch

/-! ## Names that were interned -/

namespace SymbolTable

variable {table after : SymbolTable} {symbol : Symbol} {name : String}

/-- Symbols with their names in a table. -/
def Named (table : SymbolTable) (pairs : List (Symbol × String)) : Prop :=
  ∀ pair ∈ pairs, table.name? pair.1 = some pair.2

/-- No pairs are all named. -/
theorem named_nil (table : SymbolTable) : table.Named [] := nofun

/-- Interning names one more symbol. -/
theorem Named.intern {pairs : List (Symbol × String)}
    (hnamed : table.Named pairs) (name : String) :
    (table.intern name).2.Named (((table.intern name).1, name) :: pairs) := by
  intro pair hpair
  rcases List.mem_cons.mp hpair with rfl | hmem
  · exact table.name?_intern name
  · exact (table.grows_intern name).name? (hnamed pair hmem)

/-- Different names have different symbols. -/
theorem Named.nodup {pairs : List (Symbol × String)}
    (hnamed : table.Named pairs) (hnames : (pairs.map (·.2)).Nodup) :
    (pairs.map (·.1)).Nodup := by
  have hsame : (pairs.map (·.1)).map table.name? = (pairs.map (·.2)).map some := by
    rw [List.map_map, List.map_map]
    exact List.map_congr_left hnamed
  apply List.Nodup.of_map table.name?
  rw [hsame]
  exact hnames.map (Option.some_injective _)

end SymbolTable

/-- The symbols of the dispatch variables. -/
def Reserved.dispatchSymbols (reserved : Reserved) : List Symbol :=
  [reserved.dotClass, reserved.dotGeneric, reserved.dotMethod, reserved.dotGroup,
    reserved.dotGenericCallEnv, reserved.dotGenericDefEnv]

-- How a name is interned does not matter here, and unfolding it is costly.
attribute [local irreducible] SymbolTable.intern in
/-- The variables of dispatch have different symbols. -/
theorem Reserved.nodup_dispatchSymbols (table : SymbolTable) :
    (Reserved.intern.run table).1.dispatchSymbols.Nodup := by
  -- The names before those of the dispatch variables do not matter.
  let before := table.internAll ["...", "class", "names", "previous"]
  have hnamed := before.named_nil.intern ".Class" |>.intern ".Generic" |>.intern ".Method"
    |>.intern ".Group" |>.intern ".GenericCallEnv" |>.intern ".GenericDefEnv"
  have hnames : [".GenericDefEnv", ".GenericCallEnv", ".Group", ".Method", ".Generic",
      ".Class"].Nodup := by decide
  exact List.nodup_reverse.mp (hnamed.nodup hnames)

/-! ## Later states -/

/-- A later state of a run: what was protected still is, and evaluation has kept
to the law of persistence all the way. -/
structure Interpreter.Precedes (state later : Interpreter) : Prop where
  edges_subset : state.roots.edges ⊆ later.roots.edges
  persists : state.Persists state.roots.edges later

namespace Interpreter

variable {state middle later : Interpreter}

/-- A state precedes itself. -/
theorem Precedes.refl (state : Interpreter) : state.Precedes state :=
  ⟨List.Subset.refl _, persistence.same (.of_eq rfl rfl rfl rfl)⟩

/-- What precedes, step by step, precedes. -/
theorem Precedes.trans (hfirst : state.Precedes middle)
    (hsecond : middle.Precedes later) :
    state.Precedes later :=
  ⟨List.Subset.trans hfirst.edges_subset hsecond.edges_subset,
    persistence.trans hfirst.persists (hsecond.persists.mono hfirst.edges_subset)⟩

/-- Whatever keeps to the law leads to a later state. -/
theorem precedes_of_allows {α : Type} {action : Eval α} {scope : Scope}
    (haction : (persistence.effect scope).Allows action)
    (hfinish : action.Finishes state later) :
    state.Precedes later :=
  ⟨((haction state).finish hfinish).1.edges_subset, ((haction state).finish hfinish).2⟩

/-- A step beside the heap and the roots. -/
theorem precedes_of_sameHeap (hsame : state.SameHeap later)
    (hroots : later.roots = state.roots) :
    state.Precedes later := by
  refine ⟨?_, persistence.same hsame⟩
  rw [hroots]
  exact List.Subset.refl _

/-- A coherent heap stays so. -/
theorem Precedes.coherent (hprecedes : state.Precedes later)
    (hheap : state.heap.Coherent) :
    later.heap.Coherent :=
  (hprecedes.persists.heap hheap).coherent hheap

/-- An object that is fixed or protected, and neither an environment nor a
promise, stays what it is. -/
theorem Precedes.get? (hprecedes : state.Precedes later) (hheap : state.heap.Coherent) {ref : Ref}
    {object : HeapObject} (hmem : ref ∈ state.fixed.edges ++ state.roots.edges)
    (hget : state.heap.get? ref = some object)
    (henv : ∀ env attributes, object ≠ ⟨.environment env, attributes⟩)
    (hpromise : ∀ deferred attributes, object ≠ ⟨.promise deferred, attributes⟩) :
    later.heap.get? ref = some object := by
  obtain ⟨found, hfound, hpersists⟩ :=
    (hprecedes.persists.heap hheap).exists_persists_of_mem hheap hmem hget
  rw [hfound]
  cases hpersists with
  | same => rfl
  | environment hobject => exact absurd hobject (henv _ _)
  | forced hobject => exact absurd hobject (hpromise _ _)

/-- What dispatch relies on in a state. -/
structure Sound (state : Interpreter) : Prop where
  heap : state.heap.Coherent
  null : ∃ attributes, state.heap.get? state.fixed.null = some ⟨.null, attributes⟩
  symbols : state.reserved.dispatchSymbols.Nodup

/-- A sound state stays so. -/
theorem Precedes.sound (hprecedes : state.Precedes later) (hsound : state.Sound)
    : later.Sound := by
  obtain ⟨attributes, hnull⟩ := hsound.null
  have hmem : state.fixed.null ∈ state.fixed.edges ++ state.roots.edges :=
    List.mem_append_left _ List.mem_cons_self
  refine ⟨hprecedes.coherent hsound.heap, ⟨attributes, ?_⟩, ?_⟩
  · rw [hprecedes.persists.fixed]
    exact hprecedes.get? hsound.heap hmem hnull nofun nofun
  · rw [hprecedes.persists.reserved]
    exact hsound.symbols

/-- An interpreter starts in a sound state. -/
theorem sound_start {config : Config} {symbols : SymbolTable}
    (hstart : start config symbols = .ok state) : state.Sound := by
  obtain ⟨heap, fixed, made, hcreate, hmade, hbase⟩ := start_eq_ok hstart
  obtain ⟨hheap, hnull⟩ := allocateAllFixed_eq_ok (Heap.coherent_of_create hcreate) hmade
  apply (precedes_of_allows settled_installBase (.value hbase)).sound
  exact ⟨hheap, ⟨[], hnull⟩, Reserved.nodup_dispatchSymbols symbols⟩

end Interpreter

end LazyDispatch
