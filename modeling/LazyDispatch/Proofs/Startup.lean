import LazyDispatch.Proofs.HeapRoom
import LazyDispatch.Proofs.Resolution
import LazyDispatch.Proofs.Resumption
import LazyDispatch.Proofs.KindLaw
import LazyDispatch.Proofs.SoundStates

/-!
# Starting an interpreter is safe

While an interpreter starts, a collection can run before each of its
allocations.  Here is why none of them reclaims anything: a *census* lists all
live objects of a heap, and as long as the roots reach everything that it lists,
an allocation adds one object to it and takes none away.  The fixed objects are
roots from the moment they are allocated, and a builtin is held by the base
frame before the next allocation.

Growth does not fail either, if nothing limits the number of superblocks: a pool
whose superblocks fit into the range of references has room for the few objects
of a new interpreter.
-/

namespace LazyDispatch

/-! ## A census of a heap -/

namespace Heap

variable {settings : HeapSettings}

/-- All live objects of a heap that has not reclaimed any object yet. -/
structure Census (heap : Heap) (live : List (Ref × HeapObject)) : Prop where
  coherent : heap.Coherent
  nodup : (live.map (·.1)).Nodup
  get?_iff : ∀ ref object, heap.get? ref = some object ↔ (ref, object) ∈ live
  counted : heap.allocatedCells = live.length
  kept : heap.stats.totalReclaimed = 0

variable {heap after : Heap} {live behind : List (Ref × HeapObject)} {ref : Ref}
  {object : HeapObject} {roots : List Ref} {count : Nat}

/-- Every cell with an object has a reference that resolves. -/
theorem exists_get?_of_holdsObject (hheap : heap.Coherent) {address : Address}
    (hholds : heap.HoldsObject address) : ∃ ref object, ref.address = address ∧
      heap.get? ref = some object := by
  obtain ⟨generation, object, hcontent⟩ := hholds
  obtain ⟨sizeClass, index⟩ := address
  have hcell := hcontent
  rw [content?, Option.map_eq_some_iff] at hcell
  obtain ⟨cell, hcell, -⟩ := hcell
  obtain ⟨pool, hpool, hindex⟩ := exists_pool_of_cellAt? hcell
  have hclass : sizeClass < 256 := by
    have hlt := (Array.getElem?_eq_some_iff.mp hpool).1
    have hfew := hheap.size_le
    dsimp only at hlt
    omega
  have hfits : index < 4294967296 := by
    have hlt := (Array.getElem?_eq_some_iff.mp hindex).1
    have hfew := (hheap.pools sizeClass pool hpool).addressable
    rw [pool.size_cells] at hlt
    unfold Pool.totalCells at hfew
    dsimp only at hlt
    omega
  have haddress := Ref.address_ofParts generation hclass hfits
  refine ⟨.ofParts (.ofNat 8 sizeClass) (.ofNat 32 index) generation, object, haddress, ?_⟩
  rw [get?_eq_some_iff, haddress, Ref.generation_ofParts]
  exact hcontent

/-- A collection reclaims nothing if the roots reach all objects. -/
theorem collect_fst_eq_zero (hheap : heap.Coherent)
    (hreach : ∀ ref object, heap.get? ref = some object → heap.Reachable roots ref.address) :
    (heap.collect roots).1 = 0 := by
  have hnone : {address | heap.HoldsObject address ∧ ¬ heap.Reachable roots address} = ∅ := by
    refine Set.eq_empty_iff_forall_notMem.mpr fun address hmem => ?_
    obtain ⟨ref, object, rfl, hget⟩ := exists_get?_of_holdsObject hheap hmem.1
    exact hmem.2 (hreach ref object hget)
  rw [collect_fst hheap, hnone, Set.ncard_empty]

theorem prepared_of_reachable (hheap : heap.Coherent) (sizeClass : Nat)
    (hreach : ∀ ref found, heap.get? ref = some found →
      heap.Reachable (roots ++ object.edges) ref.address) :
    (heap.prepared sizeClass object roots).allocatedCells = heap.allocatedCells ∧
      (heap.prepared sizeClass object roots).stats.totalReclaimed = heap.stats.totalReclaimed := by
  have hzero := collect_fst_eq_zero hheap hreach
  have hcells := allocatedCells_collect hheap (roots ++ object.edges)
  have hstats := (collect_settings_stats hheap (roots ++ object.edges)).2
  have hreclaimed : (heap.collect (roots ++ object.edges)).2.stats.totalReclaimed =
      heap.stats.totalReclaimed := by
    rw [hstats, hzero]
    exact Nat.add_zero _
  rw [hzero, Nat.add_zero] at hcells
  exact prepared_induction (p := fun after => after.allocatedCells = heap.allocatedCells ∧
    after.stats.totalReclaimed = heap.stats.totalReclaimed) ⟨rfl, rfl⟩ ⟨hcells, hreclaimed⟩

/-- **An allocation adds to a census.**  It succeeds while there is room, and
all objects that the roots reach stay. -/
theorem Census.allocate (hcensus : heap.Census live) (object : HeapObject) (roots : List Ref)
    (hroom : heap.HasRoom (count + 1))
    (hreach : ∀ entry ∈ live, heap.Reachable (roots ++ object.edges) entry.1.address) :
    ∃ ref after, heap.allocate object roots = .ok ref after ∧
      after.Census (live ++ [(ref, object)]) ∧ after.HasRoom count := by
  have hheap := hcensus.coherent
  have hreached : ∀ ref found, heap.get? ref = some found →
      heap.Reachable (roots ++ object.edges) ref.address :=
    fun ref found hget => hreach (ref, found) ((hcensus.get?_iff ref found).mp hget)
  have hone : heap.HasRoom 1 := hroom.mono (Nat.le_add_left 1 count)
  cases hok : heap.allocate object roots with
  | error cause after => exact absurd hok (hone.allocate_ne_error hheap cause)
  | ok ref after =>
      refine ⟨ref, after, rfl, ?_, hroom.of_allocate hheap hok⟩
      obtain ⟨room, hclass, hroomy, hplaced⟩ := allocateIn_eq_ok hheap hok
      obtain ⟨hcells, hreclaimed⟩ :=
        prepared_of_reachable hheap (heap.sizeClassFor object.size) hreached
      have hfresh := get?_fresh hheap hok
      constructor
      · exact hplaced.coherent
      · rw [List.map_append, List.nodup_append]
        refine ⟨hcensus.nodup, List.nodup_singleton _, ?_⟩
        intro other hother new hnew heq
        obtain ⟨entry, hentry, rfl⟩ := List.mem_map.mp hother
        cases List.mem_singleton.mp hnew
        have hget := (hcensus.get?_iff entry.1 entry.2).mpr hentry
        cases (heq ▸ hget).symm.trans hfresh
      · intro other found
        rw [List.mem_append, List.mem_singleton, Prod.mk.injEq, ← hcensus.get?_iff]
        constructor
        · intro hget
          exact (get?_of_allocate hheap hok hget).symm
        · intro hmem
          rcases hmem with hget | ⟨rfl, rfl⟩
          · exact get?_allocate_of_reachable hheap hok (hreached other found hget) hget
          · exact get?_allocate_self hheap hok
      · rw [hplaced.allocatedCells_eq, hroomy.allocatedCells hclass, hcells, hcensus.counted,
          List.length_append, List.length_singleton]
      · rw [hplaced.stats_eq, hroomy.settings_stats.2, hreclaimed, hcensus.kept]

/-- A change of an object changes its entry. -/
theorem Census.update (before : List (Ref × HeapObject))
    (hcensus : heap.Census (before ++ (ref, object) :: behind)) (change : HeapObject → HeapObject) :
    (heap.update ref change).Census (before ++ (ref, change object) :: behind) := by
  have hnodup := hcensus.nodup
  have hother : ∀ entry ∈ before ++ behind, ref ≠ entry.1 := by
    intro entry hentry heq
    rw [List.map_append, List.map_cons, List.nodup_middle, List.nodup_cons,
      ← List.map_append] at hnodup
    refine hnodup.1 ?_
    rw [heq]
    exact List.mem_map_of_mem (f := (·.1)) hentry
  constructor
  · exact hcensus.coherent.update ref change
  · rw [List.map_append, List.map_cons] at hnodup ⊢
    exact hnodup
  · intro other found
    have hiff := hcensus.get?_iff other
    simp only [List.mem_append, List.mem_cons, Prod.mk.injEq] at hiff ⊢
    constructor
    · intro hget
      obtain ⟨old, hold, rfl⟩ := get?_of_update hget
      rcases (hiff old).mp hold with hmem | ⟨rfl, rfl⟩ | hmem
      · rw [if_neg (hother _ (List.mem_append_left _ hmem))]
        exact Or.inl hmem
      · exact Or.inr (Or.inl ⟨rfl, if_pos rfl⟩)
      · rw [if_neg (hother _ (List.mem_append_right _ hmem))]
        exact Or.inr (Or.inr hmem)
    · intro hmem
      rcases hmem with hmem | ⟨rfl, rfl⟩ | hmem
      · rw [get?_update ((hiff found).mpr (Or.inl hmem)),
          if_neg (hother _ (List.mem_append_left _ hmem))]
      · rw [get?_update ((hiff object).mpr (Or.inr (Or.inl ⟨rfl, rfl⟩))), if_pos rfl]
      · rw [get?_update ((hiff found).mpr (Or.inr (Or.inr hmem))),
          if_neg (hother _ (List.mem_append_right _ hmem))]
  · rw [allocatedCells_update, hcensus.counted, List.length_append, List.length_append,
      List.length_cons, List.length_cons]
  · exact hcensus.kept

/-! ## New heaps -/

/-- The superblocks of a new heap. -/
theorem blockCells_create (hcreate : create settings = .ok heap) :
    heap.settings = settings ∧
      heap.blockCells = (settings.cellSizes.map (settings.superblockSize / ·)).toArray := by
  rw [create, validate_of_create hcreate] at hcreate
  cases hcreate
  refine ⟨rfl, ?_⟩
  apply Array.ext_getElem?
  intro index
  simp only [blockCells, Array.getElem?_map, Array.getElem?_mapIdx, List.getElem?_toArray,
    List.getElem?_map, Option.map_map]
  rfl

/-- A superblock that fits into the range of references leaves room for half of
them. -/
theorem two_pow_le_capacity
    (hlimit : settings.maxSuperblocks = none) {cells : Nat} (hpos : 0 < cells)
    (hcells : cells ≤ 4294967295) :
    2147483648 ≤ settings.capacity cells := by
  have hone : 0 < 4294967295 / cells := Nat.div_pos hcells hpos
  have hdiv := Nat.div_add_mod 4294967295 cells
  have hmod := Nat.mod_lt 4294967295 hpos
  have hlarge : cells ≤ cells * (4294967295 / cells) := Nat.le_mul_of_pos_right _ hone
  rw [HeapSettings.capacity, hlimit, Option.elim_none]
  omega

/-- A new heap lists no object and has room for many. -/
theorem census_create (hvalid : settings.validate = .ok ())
    (hlimit : settings.maxSuperblocks = none)
    (hcells : ∀ size ∈ settings.cellSizes, settings.superblockSize / size ≤ 4294967295) :
    ∃ heap, create settings = .ok heap ∧ heap.Census [] ∧ heap.HasRoom 2147483648 := by
  obtain ⟨heap, hcreate, hheap, hstats, -, hzero⟩ := exists_create hvalid
  obtain ⟨hsettings, hblocks⟩ := blockCells_create hcreate
  refine ⟨heap, hcreate, ⟨hheap, List.nodup_nil, ?_, hzero, ?_⟩, ?_, ?_⟩
  · intro ref object
    rw [get?_create hcreate]
    exact ⟨nofun, nofun⟩
  · rw [hstats]
  · rw [hblocks, List.size_toArray, List.length_map]
    refine List.length_pos_iff.mpr fun hnil => ?_
    rw [HeapSettings.validate, hnil] at hvalid
    cases hvalid
  · intro cells hmem
    rw [hblocks, List.mem_toArray, List.mem_map] at hmem
    obtain ⟨size, hsize, rfl⟩ := hmem
    obtain ⟨hpos, hle⟩ := (cellSizes_of_validate hvalid).2 size hsize
    rw [hzero, Nat.zero_add, hsettings]
    exact two_pow_le_capacity hlimit (Nat.div_pos hle hpos) (hcells size hsize)

end Heap

/-! ## The fixed objects -/

namespace Interpreter

variable {heap : Heap} {live : List (Ref × HeapObject)} {count : Nat}

/-- Each fixed object is allocated with those before it as roots. -/
theorem allocateFixed_of_census (hcensus : heap.Census live) (hroom : heap.HasRoom (count + 1))
    (payload : Object) :
    ∃ ref after, allocateFixed payload (live.map (·.1)) heap =
        .ok (ref, live.map (·.1) ++ [ref]) after ∧
      after.Census (live ++ [(ref, { payload := payload })]) ∧ after.HasRoom count := by
  obtain ⟨ref, after, hok, hafter, hless⟩ :=
    hcensus.allocate { payload } (live.map (·.1)) hroom fun entry hentry =>
      .root (List.mem_append_left _ (List.mem_map_of_mem hentry))
        ((hcensus.get?_iff entry.1 entry.2).mpr hentry)
  refine ⟨ref, after, ?_, hafter, hless⟩
  rw [allocateFixed, hok]

theorem allocateFixed_bind_of_ok {payload : Object} {roots more : List Ref}
    {α : Type} {ref : Ref} {next : Ref × List Ref → EStateM Fault Heap α}
    {middle : Heap}
    (hok : allocateFixed payload roots heap = .ok (ref, more) middle) :
    (allocateFixed payload roots >>= next) heap = next (ref, more) middle := by
  show EStateM.bind (allocateFixed payload roots) next heap = _
  rw [EStateM.bind, hok]

theorem allocateAllFixed_of_census (hcensus : heap.Census []) (hroom : heap.HasRoom (count + 5))
    (reserved : Reserved) :
    ∃ fixed made, allocateAllFixed reserved heap = .ok fixed made ∧
      made.Census (fixedObjects fixed reserved .empty) ∧ made.HasRoom count := by
  obtain ⟨null, first, hnull, hfirst, hroom⟩ :=
    allocateFixed_of_census hcensus hroom .null
  obtain ⟨base, second, hbase, hsecond, hroom⟩ :=
    allocateFixed_of_census hfirst hroom (.environment (.inside none))
  obtain ⟨global, third, hglobal, hthird, hroom⟩ :=
    allocateFixed_of_census hsecond hroom (.environment (.inside (some base)))
  obtain ⟨methods, fourth, hmethods, hfourth, hroom⟩ :=
    allocateFixed_of_census hthird hroom (.environment (.inside none))
  obtain ⟨deferred, fifth, hdeferred, hfifth, hroom⟩ :=
    allocateFixed_of_census hfourth hroom (.symbol reserved.deferredDefault)
  refine ⟨⟨null, base, global, methods, deferred⟩, fifth, ?_, hfifth, hroom⟩
  exact (allocateFixed_bind_of_ok hnull).trans <| (allocateFixed_bind_of_ok hbase).trans <|
    (allocateFixed_bind_of_ok hglobal).trans <| (allocateFixed_bind_of_ok hmethods).trans <|
      allocateFixed_bind_of_ok hdeferred

/-! ## The builtins -/

/-- A builtin with the symbol that stands for it in the base frame and the
reference to its object. -/
structure Installed where
  builtin : Builtin
  symbol : Symbol
  ref : Ref

/-- The entry of the base frame. -/
def Installed.binding (entry : Installed) : Symbol × Binding := (entry.symbol, .bound entry.ref)

/-- The object with its reference. -/
def Installed.object (entry : Installed) : Ref × HeapObject :=
  (entry.ref, { payload := .builtin entry.builtin })

/-- The symbol with its name. -/
def Installed.named (entry : Installed) : Symbol × String := (entry.symbol, entry.builtin.name)

/-- An interpreter that holds its fixed objects and some builtins, which its
base frame binds. -/
structure HasInstalled (state : Interpreter) (base : Frame)
    (table : List Installed) : Prop where
  bindings : base.entries = table.map Installed.binding
  census : state.heap.Census
    (fixedObjects state.fixed state.reserved base ++ table.map Installed.object)
  named : state.naming.symbols.Named
    ((state.reserved.deferredDefault, ".DeferredDefault") :: table.map Installed.named)

variable {state : Interpreter} {base : Frame} {table : List Installed}

/-- The roots reach the fixed objects, and through the base frame the builtins. -/
theorem HasInstalled.reachable (hinstalled : state.HasInstalled base table)
    {entry : Ref × HeapObject} (hentry : entry ∈
    fixedObjects state.fixed state.reserved base ++ table.map Installed.object)
    (more : List Ref) :
    state.heap.Reachable (state.rootRefs ++ more) entry.1.address := by
  have hget := (hinstalled.census.get?_iff entry.1 entry.2).mpr hentry
  have hroots : ∀ ref ∈ state.fixed.edges, ref ∈ state.rootRefs ++ more := by
    intro ref href
    simp only [rootRefs, List.append_assoc]
    exact List.mem_append_left _ href
  rcases List.mem_append.mp hentry with hfixed | hbuiltin
  · refine .root (hroots _ ?_) hget
    have hmem := List.mem_map_of_mem (f := (·.1)) hfixed
    exact hmem
  · obtain ⟨installed, hinstalled', rfl⟩ := List.mem_map.mp hbuiltin
    have hbase := (hinstalled.census.get?_iff state.fixed.base
      { payload := .environment ⟨none, base⟩ }).mpr (by simp [fixedObjects])
    have hroot := hroots state.fixed.base (by simp [Fixed.edges])
    refine .edge (.root hroot hbase) (Heap.get?_eq_some_iff.mp hbase) ?_ hget
    have hbound : installed.binding ∈ base.entries := by
      rw [hinstalled.bindings]
      exact List.mem_map_of_mem hinstalled'
    have hedge : installed.ref ∈ base.edges :=
      List.mem_filterMap.mpr ⟨installed.binding, hbound, rfl⟩
    simp [HeapObject.edges, Object.edges, Environment.edges, Installed.object, hedge]

end Interpreter

/-- A symbol without an entry is bound at the end of a frame. -/
theorem Frame.entries_bind_of_notMem {frame : Frame} {symbol : Symbol}
    (hnew : symbol ∉ frame.entries.map (·.1)) (value : Ref) :
    (frame.bind symbol value).entries = frame.entries ++ [(symbol, .bound value)] :=
  putEntry_of_not_mem _ hnew

namespace Interpreter

variable {state : Interpreter} {base : Frame} {table : List Installed} {count : Nat}

/-- The base frame binds one more symbol. -/
theorem defineVar_of_census {more : List (Ref × HeapObject)}
    (hcensus : state.heap.Census (fixedObjects state.fixed state.reserved base ++ more))
    (symbol : Symbol) (value : Ref) :
    ∃ heap, Eval.defineVar state.fixed.base symbol value state = .ok () { state with heap } ∧
      heap.Census (fixedObjects state.fixed state.reserved (base.bind symbol value) ++ more) ∧
      ∀ count, state.heap.HasRoom count → heap.HasRoom count := by
  have hget := (hcensus.get?_iff state.fixed.base
    { payload := .environment ⟨none, base⟩ }).mpr (by simp [fixedObjects])
  refine ⟨_, Eval.updateFrame_of_get? hget _, ?_, fun _ hroom => hroom.update _ _⟩
  exact Heap.Census.update [(state.fixed.null, { payload := .null })] hcensus _

/-- A symbol that is not in the table is bound after those that are. -/
theorem HasInstalled.bindings_bind {symbol : Symbol}
    (hinstalled : state.HasInstalled base table)
    (hnew : symbol ∉ table.map Installed.symbol) (value : Ref) :
    (base.bind symbol value).entries =
      table.map Installed.binding ++ [(symbol, .bound value)] := by
  have hkeys : base.entries.map (·.1) = table.map Installed.symbol := by
    rw [hinstalled.bindings, List.map_map]
    rfl
  rw [Frame.entries_bind_of_notMem (hkeys ▸ hnew), hinstalled.bindings]

/-- A symbol whose name no builtin of the table has is not in the table. -/
theorem HasInstalled.symbol_notMem {symbol : Symbol} {name : String}
    (hnamed : state.naming.symbols.Named (table.map Installed.named))
    (hsymbol : state.naming.symbols.name? symbol = some name)
    (hname : name ∉ table.map (·.builtin.name)) :
    symbol ∉ table.map Installed.symbol := by
  intro hmem
  obtain ⟨entry, hentry, rfl⟩ := List.mem_map.mp hmem
  have hother := hnamed entry.named (List.mem_map_of_mem hentry)
  cases hsymbol.symm.trans hother
  exact hname (List.mem_map_of_mem (f := (·.builtin.name)) hentry)

/-- **One builtin is installed**: nothing is lost, and the base frame binds it
under its name. -/
theorem HasInstalled.installBuiltin (hinstalled : state.HasInstalled base table)
    (hroom : state.heap.HasRoom (count + 1)) {builtin : Builtin}
    (hnew : builtin.name ∉ table.map (·.builtin.name)) :
    ∃ entry frame after, Interpreter.installBuiltin builtin state = .ok () after ∧
      entry.builtin = builtin ∧ after.HasInstalled frame (table ++ [entry]) ∧
      after.heap.HasRoom count := by
  obtain ⟨ref, heap, hok, hcensus, hless⟩ := hinstalled.census.allocate
    { payload := .builtin builtin } state.rootRefs hroom fun entry hentry =>
      hinstalled.reachable hentry _
  have hallocate : Eval.allocPayload (.builtin builtin) state = .ok ref { state with heap } :=
    Eval.allocate_of_ok hok
  cases hintern : Eval.intern builtin.name { state with heap } with
  | error stop after => cases hintern
  | ok symbol named =>
      have hsymbol := Eval.name?_of_intern hintern
      have hgrows := state.naming.symbols.grows_intern builtin.name
      have hstate : named.heap = heap ∧ named.fixed = state.fixed ∧
          named.reserved = state.reserved ∧ named.naming.symbols =
            (state.naming.symbols.intern builtin.name).2 := by
        cases hintern
        exact ⟨rfl, rfl, rfl, rfl⟩
      obtain ⟨hheap, hfixed, hreserved, hnames⟩ := hstate
      have hkept : named.naming.symbols.Named
          ((state.reserved.deferredDefault, ".DeferredDefault") :: table.map Installed.named) := by
        intro pair hpair
        rw [hnames]
        exact hgrows.name? (hinstalled.named pair hpair)
      have habsent := HasInstalled.symbol_notMem
        (fun pair hpair => hkept pair (List.mem_cons_of_mem _ hpair)) hsymbol hnew
      rw [← hheap, ← hfixed, ← hreserved, List.append_assoc] at hcensus
      obtain ⟨bound, hdefine, hbound, hroomy⟩ := defineVar_of_census hcensus symbol ref
      refine ⟨⟨builtin, symbol, ref⟩, base.bind symbol ref, { named with heap := bound }, ?_, rfl,
        ⟨?_, ?_, ?_⟩, ?_⟩
      · exact (Eval.bind_of_ok hallocate).trans <| (Eval.bind_of_ok hintern).trans <|
          (Eval.bind_of_ok rfl).trans hdefine
      · rw [List.map_append]
        exact hinstalled.bindings_bind habsent ref
      · rw [List.map_append]
        exact hbound
      · intro pair hpair
        rw [List.map_append, ← List.cons_append, List.mem_append, List.map_singleton,
          List.mem_singleton] at hpair
        rcases hpair with hold | rfl
        · exact hkept pair (hreserved ▸ hold)
        · exact hsymbol
      · exact hroomy count (hheap.symm ▸ hless)

/-- All builtins of a list are installed, one after the other. -/
theorem HasInstalled.installAll {builtins : List Builtin}
    (hinstalled : state.HasInstalled base table)
    (hroom : state.heap.HasRoom builtins.length)
    (hnames : ((table.map Installed.builtin ++ builtins).map Builtin.name).Nodup) :
    ∃ entries frame after, builtins.forM Interpreter.installBuiltin state = .ok () after ∧
      entries.map Installed.builtin = builtins ∧ after.HasInstalled frame (table ++ entries) := by
  induction builtins generalizing state base table with
  | nil => exact ⟨[], base, state, rfl, rfl, (List.append_nil table).symm ▸ hinstalled⟩
  | cons builtin rest ih =>
      have hnew : builtin.name ∉ table.map (·.builtin.name) := by
        rw [List.map_append, List.map_map, List.nodup_append] at hnames
        intro hmem
        exact hnames.2.2 _ hmem builtin.name (by simp) rfl
      obtain ⟨entry, _, middle, hfirst, rfl, hmiddle, hless⟩ :=
        hinstalled.installBuiltin hroom hnew
      obtain ⟨entries, frame, after, hrest, rfl, hafter⟩ := ih hmiddle hless (by simpa using hnames)
      refine ⟨entry :: entries, frame, after, ?_, rfl, ?_⟩
      · rw [List.forM_eq_forM, List.forM_cons]
        exact (Eval.bind_of_ok hfirst).trans hrest
      · rw [List.append_cons]
        exact hafter

/-! ## Starting -/

end Interpreter

-- How a name is interned does not matter here, and unfolding it is costly.
attribute [local irreducible] SymbolTable.intern

/-- The symbol of the deferred default has its name. -/
theorem Reserved.name?_deferredDefault (table : SymbolTable) :
    (Reserved.intern.run table).2.name? (Reserved.intern.run table).1.deferredDefault =
      some ".DeferredDefault" := by
  let before := table.internAll ["...", "class", "names", "previous", ".Class", ".Generic",
    ".Method", ".Group", ".GenericCallEnv", ".GenericDefEnv"]
  have hnamed := before.named_nil.intern ".DeferredDefault" |>.intern "generic" |>.intern "object"
  exact hnamed ((before.intern ".DeferredDefault").1, ".DeferredDefault") (by simp)

theorem Builtin.nodup_names : (Builtin.all.map Builtin.name).Nodup := by decide

namespace Interpreter

/-- An interpreter starts if each of its steps ends with a value. -/
theorem start_of_ok {config : Config} {symbols : SymbolTable} {heap made : Heap} {fixed : Fixed}
    {state : Interpreter} (hvalid : config.validate = .ok ())
    (hcreate : Heap.create config.heap = .ok heap)
    (hmade : allocateAllFixed (Reserved.intern.run symbols).1 heap = .ok fixed made)
    (hbase : installBase (withFixed config (Reserved.intern.run symbols).2
      (Reserved.intern.run symbols).1 fixed made) = .ok () state) :
    start config symbols = .ok state := by
  rw [start, hvalid]
  dsimp only
  rw [hcreate]
  generalize Reserved.intern.run symbols = interned at hmade hbase ⊢
  obtain ⟨reserved, symbols⟩ := interned
  dsimp only at hmade hbase ⊢
  rw [EStateM.run, hmade]
  dsimp only
  rw [EStateM.run, hbase]
  rfl

/-- **Starting is safe.**  With any valid configuration that does not limit the
superblocks and whose superblocks fit into the range of references, and with any
names that are interned already, an interpreter starts.  Its heap is consistent
and has reclaimed nothing.  The live objects are the fixed ones and one for each
builtin of the table, and no other cell is in use.  The base frame binds the
name of each builtin of the table to its object, then the name of the deferred
default, and nothing else. -/
theorem start_succeeds {config : Config} (symbols : SymbolTable)
    (hvalid : config.validate = .ok ()) (hlimit : config.heap.maxSuperblocks = none)
    (hcells : ∀ size ∈ config.heap.cellSizes,
      config.heap.superblockSize / size ≤ 4294967295) :
    ∃ (state : Interpreter) (table : List Installed) (base : Frame),
      start config symbols = .ok state ∧
      state.heap.verify = .ok () ∧
      state.heap.stats.totalReclaimed = 0 ∧
      table.map Installed.builtin = Builtin.all ∧
      (state.fixed.edges ++ table.map Installed.ref).Nodup ∧
      state.heap.allocatedCells = 5 + Builtin.all.length ∧
      (∀ ref, state.heap.isLive ref = true ↔
        ref ∈ state.fixed.edges ++ table.map Installed.ref) ∧
      (∀ entry ∈ table,
        state.naming.symbols.name? entry.symbol = some entry.builtin.name ∧
        state.heap.get? entry.ref = some { payload := .builtin entry.builtin }) ∧
      state.naming.symbols.name? state.reserved.deferredDefault = some ".DeferredDefault" ∧
      base.entries = table.map Installed.binding ++
        [(state.reserved.deferredDefault, .bound state.fixed.deferred)] ∧
      ∀ entry ∈ fixedObjects state.fixed state.reserved base,
        state.heap.get? entry.1 = some entry.2 := by
  have hheap : config.heap.validate = .ok () := by
    rw [Config.validate] at hvalid
    split at hvalid
    · cases hvalid
    · assumption
  obtain ⟨heap, hcreate, hempty, hroom⟩ := Heap.census_create hheap hlimit hcells
  have hfew : heap.HasRoom (Builtin.all.length + 5) := hroom.mono (by decide)
  obtain ⟨fixed, made, hmade, hcensus, hless⟩ :=
    allocateAllFixed_of_census hempty hfew (Reserved.intern.run symbols).1
  have hfixed : (withFixed config (Reserved.intern.run symbols).2 (Reserved.intern.run symbols).1
      fixed made).HasInstalled .empty [] := by
    refine ⟨rfl, hcensus, ?_⟩
    intro pair hpair
    cases List.mem_singleton.mp hpair
    exact Reserved.name?_deferredDefault symbols
  obtain ⟨table, builtins, middle, hinstall, htable, hmiddle⟩ :=
    hfixed.installAll hless Builtin.nodup_names
  have habsent : middle.reserved.deferredDefault ∉ table.map Installed.symbol := by
    refine HasInstalled.symbol_notMem (fun pair hpair => hmiddle.named pair ?_)
      (hmiddle.named _ List.mem_cons_self) ?_
    · exact List.mem_cons_of_mem _ hpair
    · rw [show table.map (·.builtin.name) = (table.map Installed.builtin).map Builtin.name by
        rw [List.map_map]; rfl, htable]
      exact (by decide : ".DeferredDefault" ∉ Builtin.all.map Builtin.name)
  obtain ⟨final, hdefine, hfinal, -⟩ := defineVar_of_census hmiddle.census
    middle.reserved.deferredDefault middle.fixed.deferred
  have hbase : installBase (withFixed config (Reserved.intern.run symbols).2
      (Reserved.intern.run symbols).1 fixed made) = .ok () { middle with heap := final } :=
    (Eval.bind_of_ok hinstall).trans ((Eval.bind_of_ok rfl).trans hdefine)
  have hrefs : (fixedObjects middle.fixed middle.reserved
      (builtins.bind middle.reserved.deferredDefault middle.fixed.deferred) ++
        table.map Installed.object).map (·.1) =
      middle.fixed.edges ++ table.map Installed.ref := by
    rw [List.map_append, List.map_map]
    rfl
  refine ⟨{ middle with heap := final }, table,
    builtins.bind middle.reserved.deferredDefault middle.fixed.deferred,
    start_of_ok hvalid hcreate hmade hbase,
    hfinal.coherent.verify, hfinal.kept, htable, hrefs ▸ hfinal.nodup, ?_, ?_, ?_,
    hmiddle.named _ List.mem_cons_self, hmiddle.bindings_bind habsent _, ?_⟩
  · rw [hfinal.counted, List.length_append, List.length_map, ← htable, List.length_map]
    rfl
  · intro ref
    rw [← hrefs, Heap.isLive, Option.isSome_iff_exists, List.mem_map]
    constructor
    · intro hlive
      obtain ⟨object, hget⟩ := hlive
      exact ⟨(ref, object), (hfinal.get?_iff ref object).mp hget, rfl⟩
    · intro hlisted
      obtain ⟨entry, hentry, rfl⟩ := hlisted
      exact ⟨entry.2, (hfinal.get?_iff entry.1 entry.2).mpr hentry⟩
  · intro entry hentry
    refine ⟨hmiddle.named entry.named (List.mem_cons_of_mem _ (List.mem_map_of_mem hentry)), ?_⟩
    exact (hfinal.get?_iff _ _).mpr
      (List.mem_append_right _ (List.mem_map_of_mem (f := Installed.object) hentry))
  · intro entry hentry
    exact (hfinal.get?_iff _ _).mpr (List.mem_append_left _ hentry)

/-- Superblocks of one cell, and a collection before every allocation. -/
def tightConfig : Config where
  heap := { cellSizes := [64, 96], superblockSize := 96, torture := true }
  maxDepth := 1

/-- The tightest heap is enough, also with names that builtins and reserved
symbols share. -/
theorem start_succeeds_tightConfig :
    tightConfig.validate = .ok () ∧
      ∃ state, start tightConfig (SymbolTable.empty.internAll ["+", ".DeferredDefault", "gc"]) =
          .ok state ∧ state.heap.stats.totalReclaimed = 0 ∧ state.heap.allocatedCells = 37 := by
  obtain ⟨state, -, -, hstart, -, hreclaimed, -, -, hcells, -⟩ :=
    @start_succeeds tightConfig
      (SymbolTable.empty.internAll ["+", ".DeferredDefault", "gc"]) rfl rfl (by decide)
  exact ⟨rfl, state, hstart, hreclaimed, hcells⟩

end Interpreter

end LazyDispatch
