import LazyDispatch.Proofs.Collection

/-!
# Allocation

An allocation has three phases: a collection, if the pool is exhausted or every
allocation collects; growth, if the pool is exhausted even then; and the placing
of the object in the first free cell.  `prepared` is the heap after the first
phase, `Roomy` tells how the second phase ends and `Placed` what the third one
does.  The object that is being allocated counts as a root of the collection, so
what it holds survives, and no object is ever left with a reference that does
not resolve (`Closed`).
-/

namespace LazyDispatch

/-- The faults of a pool that cannot grow, and when each of them is reported. -/
theorem Pool.growFault?_eq_some_iff {pool : Pool} {maxSuperblocks : Option Nat}
    {fault : Fault} :
    pool.growFault? maxSuperblocks = some fault ↔
      (∃ limit, maxSuperblocks = some limit ∧ limit ≤ pool.superblocks ∧
        fault = .outOfMemory pool.sizeClass limit) ∨
      ((∀ limit, maxSuperblocks = some limit → pool.superblocks < limit) ∧
        4294967295 < pool.totalCells + pool.cellsPerSuperblock ∧
        fault = .unaddressableCells pool.sizeClass) := by
  unfold growFault?
  cases maxSuperblocks with
  | none => simp [eq_comm]
  | some limit =>
      by_cases hfull : limit ≤ pool.superblocks
      · simp [Option.filter, hfull, eq_comm]
      · simp [Option.filter, hfull, eq_comm]
        omega

namespace Heap

variable {other : Ref} {target : HeapObject}

variable {ref : Ref} {after : Heap}

/-- There is an object behind a reference. -/
def Resolves (heap : Heap) (ref : Ref) : Prop :=
  ∃ object, heap.get? ref = some object

/-- Every reference that a live object holds resolves. -/
def Closed (heap : Heap) : Prop :=
  ∀ address generation object,
    heap.content? address = some (generation, some object) →
    ∀ ref ∈ object.edges, ∃ target, heap.get? ref = some target

/-- The heap after the collection that an allocation runs, if it runs one. -/
def prepared (heap : Heap) (sizeClass : Nat) (object : HeapObject)
    (roots : List Ref) : Heap :=
  if heap.settings.torture || heap.isExhausted sizeClass then
    (heap.collect (roots ++ object.edges)).2
  else heap

/-- The number of superblocks of a size class. -/
def superblocks? (heap : Heap) (sizeClass : Nat) : Option Nat :=
  heap.pools[sizeClass]?.map Pool.superblocks

/-- How an allocation gets room: a pool that has a free cell stays as it is,
and one that has none grows by a superblock. -/
inductive Roomy (heap : Heap) (sizeClass : Nat) : Heap → Prop
  | enough (hfree : heap.isExhausted sizeClass = false) :
      Roomy heap sizeClass heap
  | grown (hfull : heap.isExhausted sizeClass = true)
      (hmay : heap.pools[sizeClass]?.bind
        (·.growFault? heap.settings.maxSuperblocks) = none) :
      Roomy heap sizeClass (heap.modifyPool sizeClass Pool.grow)

/-- What the placing of an object does: one free cell is filled, and counted. -/
structure Placed (heap : Heap) (object : HeapObject) (ref : Ref)
    (after : Heap) : Prop where
  coherent : after.Coherent
  free : heap.content? ref.address = some (ref.generation, none)
  cellAt?_eq : ∀ address, after.cellAt? address =
    if address = ref.address then some ⟨ref.generation, .live object false⟩
    else heap.cellAt? address
  settings_eq : after.settings = heap.settings
  stats_eq : after.stats = heap.stats
  superblocks?_eq : ∀ sizeClass,
    after.superblocks? sizeClass = heap.superblocks? sizeClass
  allocatedCells_eq : after.allocatedCells = heap.allocatedCells + 1

/-! ## Collections and growth -/

/-- A collection adds and removes no superblock. -/
theorem superblocks?_collect {heap : Heap} (hheap : heap.Coherent)
    (roots : List Ref) (sizeClass : Nat) :
    (heap.collect roots).2.superblocks? sizeClass =
      heap.superblocks? sizeClass := by
  have hunmark := congrArg (·.superblocks? sizeClass)
    (tracing_collect hheap roots).unmark_eq
  have hblocks : ∀ other : Heap, other.unmark.superblocks? sizeClass =
      other.superblocks? sizeClass := by
    intro other
    simp only [superblocks?, unmark, Array.getElem?_map, Option.map_map]
    rfl
  simp only [hblocks] at hunmark
  rw [← hunmark, collect]
  simp only [superblocks?, sweep, Array.getElem?_map, Option.map_map]
  cases hpool : (heap.trace roots.reverse).pools[sizeClass]? with
  | none => rfl
  | some pool =>
      obtain ⟨free, hfree⟩ :=
        ((hheap.toSound.trace roots.reverse).pools _ pool hpool).coherent
      have hshape := (Pool.shape_sweep hfree).1
      simp only [Pool.shape, Prod.mk.injEq] at hshape
      simpa using hshape.2.2.2

theorem size_collect {heap : Heap} (hheap : heap.Coherent) (roots : List Ref) :
    (heap.collect roots).2.pools.size = heap.pools.size := by
  have hunmark := congrArg (·.pools.size) (tracing_collect hheap roots).unmark_eq
  simpa [collect, sweep, unmark] using hunmark

/-- A collection keeps a closed heap closed: what a surviving object holds is
reachable through it. -/
theorem Closed.collect {heap : Heap} (hclosed : heap.Closed)
    (hheap : heap.Coherent) (roots : List Ref) :
    (heap.collect roots).2.Closed := by
  intro address generation object hlive ref hedge
  obtain ⟨reached, hreached, hcontent⟩ := content?_collect hheap roots address
  rw [hlive] at hcontent
  obtain ⟨⟨current, found⟩, hold, heq⟩ := Option.map_eq_some_iff.mp hcontent.symm
  split at heq
  · cases heq
  · next hkept =>
      cases heq
      have hreach : heap.Reachable roots address := by
        rw [← hreached]
        simpa using hkept
      obtain ⟨target, hget⟩ := hclosed address generation object hold ref hedge
      refine ⟨target, get?_eq_some_iff.mpr ?_⟩
      rw [content?_collect_of_reachable hheap (.edge hreach hold hedge hget)]
      exact get?_eq_some_iff.mp hget

section Phases

variable {heap room : Heap} {sizeClass : Nat} {object : HeapObject}
  {roots : List Ref}

/-! ### The collection -/

/-- An allocation collects at most once. -/
theorem prepared_cases (heap : Heap) (sizeClass : Nat) (object : HeapObject)
    (roots : List Ref) :
    ((heap.settings.torture || heap.isExhausted sizeClass) = true ∧
        heap.prepared sizeClass object roots =
          (heap.collect (roots ++ object.edges)).2) ∨
      ((heap.settings.torture || heap.isExhausted sizeClass) = false ∧
        heap.prepared sizeClass object roots = heap) := by
  unfold prepared
  split
  · next hcollects => exact Or.inl ⟨hcollects, rfl⟩
  · next hcollects => exact Or.inr ⟨by simpa using hcollects, rfl⟩

/-- What holds of a heap and is kept by its collection holds after the first
phase of an allocation. -/
theorem prepared_induction {p : Heap → Prop} (hheap : p heap)
    (hcollect : p (heap.collect (roots ++ object.edges)).2) :
    p (heap.prepared sizeClass object roots) := by
  rcases heap.prepared_cases sizeClass object roots with ⟨-, heq⟩ | ⟨-, heq⟩
  · rw [heq]
    exact hcollect
  · rw [heq]
    exact hheap

theorem Coherent.prepared (hheap : heap.Coherent) (sizeClass : Nat)
    (object : HeapObject) (roots : List Ref) :
    (heap.prepared sizeClass object roots).Coherent :=
  prepared_induction hheap (hheap.collect _)

theorem settings_prepared (hheap : heap.Coherent) :
    (heap.prepared sizeClass object roots).settings = heap.settings :=
  prepared_induction (p := fun after => after.settings = heap.settings) rfl
    (collect_settings_stats hheap _).1

theorem superblocks?_prepared (hheap : heap.Coherent) (other : Nat) :
    (heap.prepared sizeClass object roots).superblocks? other =
      heap.superblocks? other :=
  prepared_induction
    (p := fun after => after.superblocks? other = heap.superblocks? other) rfl
    (superblocks?_collect hheap _ other)

theorem size_prepared (hheap : heap.Coherent) :
    (heap.prepared sizeClass object roots).pools.size = heap.pools.size :=
  prepared_induction (p := fun after => after.pools.size = heap.pools.size) rfl
    (size_collect hheap _)

/-- What the roots or the new object reach is left alone. -/
theorem content?_prepared_of_reachable (hheap : heap.Coherent)
    {address : Address}
    (hreach : heap.Reachable (roots ++ object.edges) address) :
    (heap.prepared sizeClass object roots).content? address =
      heap.content? address :=
  prepared_induction
    (p := fun after => after.content? address = heap.content? address) rfl
    (content?_collect_of_reachable hheap hreach)

theorem Closed.prepared (hclosed : heap.Closed) (hheap : heap.Coherent) :
    (heap.prepared sizeClass object roots).Closed :=
  prepared_induction hclosed (hclosed.collect hheap _)

/-! ### Room for the object -/

/-- Making room ends in a heap with room, or in the fault of a pool that is
exhausted and cannot grow. -/
theorem makeRoom_cases (heap : Heap) (sizeClass : Nat) (object : HeapObject)
    (roots : List Ref) :
    (∃ room, Roomy (heap.prepared sizeClass object roots) sizeClass room ∧
        heap.makeRoom sizeClass object roots = .ok () room) ∨
      ∃ fault,
        (heap.prepared sizeClass object roots).isExhausted sizeClass = true ∧
        (heap.prepared sizeClass object roots).pools[sizeClass]?.bind
          (·.growFault? (heap.prepared sizeClass object
            roots).settings.maxSuperblocks) = some fault ∧
        heap.makeRoom sizeClass object roots =
          .error fault (heap.prepared sizeClass object roots) := by
  rcases heap.prepared_cases sizeClass object roots with
    ⟨hcollects, heq⟩ | ⟨hcollects, heq⟩
  · rw [heq, makeRoom, if_pos hcollects]
    generalize (heap.collect (roots ++ object.edges)).2 = collected
    by_cases hfull : collected.isExhausted sizeClass = true
    · simp only [hfull, if_true, true_and]
      cases hfault : collected.pools[sizeClass]?.bind
          (·.growFault? collected.settings.maxSuperblocks) with
      | none => exact Or.inl ⟨_, .grown hfull hfault, rfl⟩
      | some fault => exact Or.inr ⟨fault, rfl, rfl⟩
    · rw [Bool.not_eq_true] at hfull
      simp only [hfull, Bool.false_eq_true, if_false]
      exact Or.inl ⟨_, .enough hfull, rfl⟩
  · rw [heq, makeRoom, hcollects]
    exact Or.inl ⟨_, .enough (Bool.or_eq_false_iff.mp hcollects).2, rfl⟩

/-- Growth keeps a heap coherent: a pool that may not grow reports a fault. -/
theorem Roomy.coherent (hroom : Roomy heap sizeClass room)
    (hheap : heap.Coherent) : room.Coherent := by
  cases hroom with
  | enough hfree => exact hheap
  | grown hfull hmay =>
      refine hheap.modifyPool (fun pool hpool => ?_)
        fun pool hpool => (hheap.unmarked _ pool hpool).grow
      rw [hpool] at hmay
      exact (hheap.pools _ pool hpool).grow hmay

theorem Roomy.size (hroom : Roomy heap sizeClass room) :
    room.pools.size = heap.pools.size := by
  cases hroom with
  | enough hfree => rfl
  | grown hfull hmay => exact Array.size_modify

/-- The pool has a free cell. -/
theorem Roomy.exists_freeHead (hroom : Roomy heap sizeClass room) {pool : Pool}
    (hpool : room.pools[sizeClass]? = some pool) :
    ∃ index, pool.freeHead = some index := by
  cases hroom with
  | enough hfree =>
      rw [isExhausted, hpool, Option.all_some, Option.isNone_eq_false_iff,
        Option.isSome_iff_exists] at hfree
      exact hfree
  | grown hfull hmay =>
      rw [getElem?_modifyPool, if_pos rfl] at hpool
      obtain ⟨old, -, rfl⟩ := Option.map_eq_some_iff.mp hpool
      exact ⟨_, rfl⟩

/-- Growth changes no content; the new cells are free and were never used. -/
theorem Roomy.content? (hroom : Roomy heap sizeClass room) (address : Address) :
    room.content? address = heap.content? address ∨
      heap.content? address = none ∧
        room.content? address = some (0, none) := by
  cases hroom with
  | enough hfree => exact Or.inl rfl
  | grown hfull hmay => exact heap.content?_grow sizeClass address

/-- One superblock is appended if the pool was exhausted, and none otherwise. -/
theorem Roomy.superblocks? (hroom : Roomy heap sizeClass room) (other : Nat) :
    room.superblocks? other = (heap.superblocks? other).map
      (· + if other = sizeClass ∧ heap.isExhausted sizeClass = true then 1
        else 0) := by
  cases hroom with
  | enough hfree => simp [hfree]
  | grown hfull hmay =>
      rw [Heap.superblocks?, getElem?_modifyPool, Heap.superblocks?]
      by_cases hclass : sizeClass = other
      · subst hclass
        simp only [hfull, and_self, if_true, Option.map_map]
        rfl
      · rw [if_neg hclass, if_neg (fun hboth => hclass hboth.1.symm),
          Option.map_map]
        rfl

theorem Roomy.settings_stats (hroom : Roomy heap sizeClass room) :
    room.settings = heap.settings ∧ room.stats = heap.stats := by
  cases hroom with
  | enough hfree => exact ⟨rfl, rfl⟩
  | grown hfull hmay => exact ⟨rfl, rfl⟩

/-- Growth allocates nothing. -/
theorem Roomy.allocatedCells (hroom : Roomy heap sizeClass room)
    (hclass : sizeClass < heap.pools.size) :
    room.allocatedCells = heap.allocatedCells := by
  cases hroom with
  | enough hfree => rfl
  | grown hfull hmay =>
      exact Nat.add_right_cancel (total_modify Pool.allocatedCells
        (Array.getElem?_eq_getElem hclass) Pool.grow)

/-! ### Placing the object -/

/-- The reference to the first free cell fits, and the cell is filled. -/
theorem exists_placed (hheap : heap.Coherent) {pool : Pool} {index : Nat}
    (hpool : heap.pools[sizeClass]? = some pool)
    (hhead : pool.freeHead = some index) (object : HeapObject) :
    ∃ ref, ref.address = ⟨sizeClass, index⟩ ∧
      heap.place sizeClass object =
        .ok ref (heap.modifyPool sizeClass (Pool.take object)) ∧
      Placed heap object ref (heap.modifyPool sizeClass (Pool.take object)) := by
  have hsound := hheap.pools sizeClass pool hpool
  obtain ⟨free, hfree⟩ := hsound.coherent
  obtain ⟨rest, generation, next, rfl, hcell, -⟩ := hfree.exists_head hhead
  have hclass : sizeClass < 256 := by
    have hlt := (Array.getElem?_eq_some_iff.mp hpool).1
    have hfew := hheap.size_le
    omega
  have hindex : index < 4294967296 := by
    have hlt := (Array.getElem?_eq_some_iff.mp hcell).1
    have hfew := hsound.addressable
    rw [pool.size_cells] at hlt
    unfold Pool.totalCells at hfew
    omega
  have haddress := Ref.address_ofParts generation hclass hindex
  have htaken : (pool.take object).superblocks = pool.superblocks ∧
      (pool.take object).allocatedCells = pool.allocatedCells + 1 := by
    simp [Pool.take, hhead, hcell]
  refine ⟨.ofParts (.ofNat 8 sizeClass) (.ofNat 32 index) generation,
    haddress, ?_, ?_⟩
  · rw [place, hpool, Option.map_some, Pool.nextRef, hhead]
    simp only [hcell, hsound.sizeClass_eq]
  constructor
  · exact hheap.modifyPool
      (fun other hother => (hheap.pools _ other hother).take object)
      (fun other hother => (hheap.unmarked _ other hother).take object)
  · rw [haddress, Ref.generation_ofParts, Heap.content?, cellAt?_eq_bind, hpool,
      Option.bind_some, hcell]
    rfl
  · intro address
    rw [haddress, Ref.generation_ofParts]
    exact cellAt?_take hpool hhead hcell object address
  · rfl
  · rfl
  · intro other
    rw [Heap.superblocks?, getElem?_modifyPool, Heap.superblocks?]
    split
    · next heq =>
        subst heq
        rw [hpool, Option.map_some, Option.map_some, htaken.1, Option.map_some]
    · rfl
  · have hsum := total_modify Pool.allocatedCells hpool (Pool.take object)
    simp only [Heap.allocatedCells, modifyPool]
    omega

/-- The contents after an object was placed. -/
theorem Placed.content?
    (hplaced : Placed heap object ref after) (address : Address) :
    after.content? address =
      if address = ref.address then some (ref.generation, some object)
      else heap.content? address := by
  rw [Heap.content?, hplaced.cellAt?_eq]
  split <;> rfl

/-- The new reference resolves to the object. -/
theorem Placed.get?_self (hplaced : Placed heap object ref after) :
    after.get? ref = some object := by
  rw [get?_eq_some_iff, hplaced.content?, if_pos rfl]

/-- References that resolve go on to resolve: the cell that is filled was
free. -/
theorem Placed.get?_of_get?
    (hplaced : Placed heap object ref after)
    (hget : heap.get? other = some target) :
    after.get? other = some target := by
  rw [get?_eq_some_iff] at hget ⊢
  rw [hplaced.content?, if_neg, hget]
  intro heq
  rw [heq, hplaced.free] at hget
  simp at hget

/-- The same for growth. -/
theorem Roomy.get?_of_get?
    (hroom : Roomy heap sizeClass room)
    (hget : heap.get? other = some target) : room.get? other = some target := by
  rw [get?_eq_some_iff] at hget ⊢
  rcases hroom.content? other.address with hsame | ⟨hnone, -⟩
  · rw [hsame, hget]
  · rw [hget] at hnone
    cases hnone

/-- Growth keeps a heap closed. -/
theorem Roomy.closed (hroom : Roomy heap sizeClass room)
    (hclosed : heap.Closed) : room.Closed := by
  intro address generation owner hlive ref hedge
  rcases hroom.content? address with hsame | ⟨-, hnew⟩
  · rw [hsame] at hlive
    obtain ⟨target, hget⟩ := hclosed address generation owner hlive ref hedge
    exact ⟨target, hroom.get?_of_get? hget⟩
  · rw [hnew] at hlive
    simp at hlive

/-- Placing an object keeps a heap closed if what the object holds resolves. -/
theorem Placed.closed
    (hplaced : Placed heap object ref after) (hclosed : heap.Closed)
    (hedges : ∀ edge ∈ object.edges, ∃ target, heap.get? edge = some target) :
    after.Closed := by
  intro address generation owner hlive edge hedge
  rw [hplaced.content?] at hlive
  split at hlive
  · cases hlive
    obtain ⟨target, hget⟩ := hedges edge hedge
    exact ⟨target, hplaced.get?_of_get? hget⟩
  · obtain ⟨target, hget⟩ := hclosed address generation owner hlive edge hedge
    exact ⟨target, hplaced.get?_of_get? hget⟩

/-! ### All phases together -/

/-- **The ways an allocation can end.**  The size class is unknown; or the pool
is exhausted after the collection and cannot grow; or the object is placed. -/
theorem allocateIn_cases (hheap : heap.Coherent) (sizeClass : Nat)
    (object : HeapObject) (roots : List Ref) :
    (heap.pools.size ≤ sizeClass ∧
        heap.allocateIn sizeClass object roots =
          .error (.unknownSizeClass sizeClass) heap) ∨
      (∃ pool fault,
        (heap.prepared sizeClass object roots).isExhausted sizeClass = true ∧
        (heap.prepared sizeClass object roots).pools[sizeClass]? = some pool ∧
        pool.growFault? heap.settings.maxSuperblocks = some fault ∧
        heap.allocateIn sizeClass object roots =
          .error fault (heap.prepared sizeClass object roots)) ∨
      ∃ room ref after,
        sizeClass < (heap.prepared sizeClass object roots).pools.size ∧
        Roomy (heap.prepared sizeClass object roots) sizeClass room ∧
        Placed room object ref after ∧
        heap.allocateIn sizeClass object roots = .ok ref after := by
  by_cases hclass : sizeClass < heap.pools.size
  · refine Or.inr ?_
    rw [allocateIn, if_pos hclass, ← settings_prepared hheap]
    have hsize : sizeClass <
        (heap.prepared sizeClass object roots).pools.size := by
      rw [size_prepared hheap]
      exact hclass
    rcases heap.makeRoom_cases sizeClass object roots with
      ⟨room, hroom, hmake⟩ | ⟨fault, hfull, hfault, hmake⟩
    · have hpool := Array.getElem?_eq_getElem (hroom.size.symm ▸ hsize)
      obtain ⟨index, hhead⟩ := hroom.exists_freeHead hpool
      obtain ⟨ref, -, hplace, hplaced⟩ := exists_placed
        (hroom.coherent (hheap.prepared _ _ _)) hpool hhead object
      refine Or.inr ⟨room, ref, _, hsize, hroom, hplaced, ?_⟩
      rw [hmake]
      exact hplace
    · obtain ⟨pool, hpool, hfault⟩ := Option.bind_eq_some_iff.mp hfault
      exact Or.inl ⟨pool, fault, hfull, hpool, hfault, by rw [hmake]⟩
  · refine Or.inl ⟨by omega, ?_⟩
    rw [allocateIn, if_neg hclass]

/-- What a completed allocation has done. -/
theorem allocateIn_eq_ok (hheap : heap.Coherent)
    (hok : heap.allocateIn sizeClass object roots = .ok ref after) :
    ∃ room, sizeClass < (heap.prepared sizeClass object roots).pools.size ∧
      Roomy (heap.prepared sizeClass object roots) sizeClass room ∧
      Placed room object ref after := by
  rcases allocateIn_cases hheap sizeClass object roots with
    ⟨-, heq⟩ | ⟨pool, fault, -, -, -, heq⟩ | ⟨room, _, _, hsize, hroom, hplaced, heq⟩
  · cases heq.symm.trans hok
  · cases heq.symm.trans hok
  · cases heq.symm.trans hok
    exact ⟨room, hsize, hroom, hplaced⟩

/-- What the roots or a new object reach is left alone by its allocation. -/
theorem get?_allocate_of_reachable (hheap : heap.Coherent)
    (hok : heap.allocate object roots = .ok ref after)
    (hreach : heap.Reachable (roots ++ object.edges) other.address)
    (hget : heap.get? other = some target) :
    after.get? other = some target := by
  obtain ⟨room, -, hroom, hplaced⟩ := allocateIn_eq_ok hheap hok
  refine hplaced.get?_of_get? (hroom.get?_of_get? ?_)
  rw [get?_eq_some_iff, content?_prepared_of_reachable hheap hreach]
  exact get?_eq_some_iff.mp hget

/-- When an allocation fails, and with which fault. -/
theorem allocateIn_eq_error_iff (hheap : heap.Coherent) {fault : Fault} :
    (∃ after, heap.allocateIn sizeClass object roots = .error fault after) ↔
      (heap.pools.size ≤ sizeClass ∧ fault = .unknownSizeClass sizeClass) ∨
      ((heap.prepared sizeClass object roots).isExhausted sizeClass = true ∧
        ∃ pool, (heap.prepared sizeClass object roots).pools[sizeClass]? =
            some pool ∧
          pool.growFault? heap.settings.maxSuperblocks = some fault) := by
  rcases allocateIn_cases hheap sizeClass object roots with
    ⟨hunknown, heq⟩ | ⟨pool, found, hfull, hpool, hfound, heq⟩ |
      ⟨room, _, _, hsize, hroom, hplaced, heq⟩
  · rw [heq]
    constructor
    · intro herror
      obtain ⟨after, hafter⟩ := herror
      cases hafter
      exact Or.inl ⟨hunknown, rfl⟩
    · intro hcause
      rcases hcause with ⟨-, rfl⟩ | ⟨-, pool, hpool, -⟩
      · exact ⟨heap, rfl⟩
      · have hlt := (Array.getElem?_eq_some_iff.mp hpool).1
        rw [size_prepared hheap] at hlt
        omega
  · rw [heq]
    have hlt := (Array.getElem?_eq_some_iff.mp hpool).1
    rw [size_prepared hheap] at hlt
    constructor
    · intro herror
      obtain ⟨after, hafter⟩ := herror
      cases hafter
      exact Or.inr ⟨hfull, pool, hpool, hfound⟩
    · intro hcause
      rcases hcause with ⟨hunknown, -⟩ | ⟨-, other, hother, hfault⟩
      · omega
      · cases hpool.symm.trans hother
        cases hfound.symm.trans hfault
        exact ⟨_, rfl⟩
  · rw [heq]
    rw [size_prepared hheap] at hsize
    constructor
    · intro herror
      obtain ⟨after, hafter⟩ := herror
      cases hafter
    · intro hcause
      rcases hcause with ⟨hunknown, -⟩ | ⟨hfull, pool, hpool, hfault⟩
      · omega
      · cases hroom with
        | enough hfree =>
            rw [hfree] at hfull
            cases hfull
        | grown hfull hmay =>
            rw [hpool, settings_prepared hheap, Option.bind_some, hfault] at hmay
            cases hmay

end Phases

/-! ## The main theorem -/

/-- **Allocations keep what is reachable.**  A completed allocation returns a
reference that resolves to the object, and what the roots or the object itself
reach still resolves as before.  It collects once if every allocation does or
the pool is exhausted; it appends one superblock if the pool is exhausted even
then; the collection and the growth aside it changes no other cell.  Allocations
and collections leave no reference of a live object dangling.  An allocation
fails only if the size class is unknown, or if the pool is exhausted after the
collection and holds as many superblocks as it may, or as many cells as
references can name. -/
theorem allocateIn_exact {heap : Heap} (hheap : heap.Coherent) (sizeClass : Nat)
    (object : HeapObject) (roots : List Ref) :
    (∀ ref after, heap.allocateIn sizeClass object roots = .ok ref after →
      after.get? ref = some object ∧
      (∀ other target, heap.get? other = some target →
        heap.Reachable (roots ++ object.edges) other.address →
        after.get? other = some target) ∧
      after.stats.collections = heap.stats.collections +
        (if heap.settings.torture || heap.isExhausted sizeClass then 1 else 0) ∧
      (∀ other, after.superblocks? other = (heap.superblocks? other).map
        (· + if other = sizeClass ∧ (heap.prepared sizeClass object
          roots).isExhausted sizeClass = true then 1 else 0)) ∧
      (∀ address, address ≠ ref.address →
        after.content? address =
            (heap.prepared sizeClass object roots).content? address ∨
          (heap.prepared sizeClass object roots).content? address = none ∧
            after.content? address = some (0, none)) ∧
      ((heap.settings.torture || heap.isExhausted sizeClass) = false →
        ∀ address, address ≠ ref.address →
          after.cellAt? address = heap.cellAt? address) ∧
      (heap.Closed →
        (∀ edge ∈ object.edges, ∃ target, heap.get? edge = some target) →
        after.Closed)) ∧
    (heap.Closed → (heap.collect roots).2.Closed) ∧
    (∀ fault,
      (∃ after, heap.allocateIn sizeClass object roots = .error fault after) ↔
      (heap.pools.size ≤ sizeClass ∧ fault = .unknownSizeClass sizeClass) ∨
      ((heap.prepared sizeClass object roots).isExhausted sizeClass = true ∧
        ∃ pool, (heap.prepared sizeClass object roots).pools[sizeClass]? =
            some pool ∧
          ((∃ limit, heap.settings.maxSuperblocks = some limit ∧
              limit ≤ pool.superblocks ∧
              fault = .outOfMemory pool.sizeClass limit) ∨
            ((∀ limit, heap.settings.maxSuperblocks = some limit →
                pool.superblocks < limit) ∧
              4294967295 < pool.totalCells + pool.cellsPerSuperblock ∧
              fault = .unaddressableCells pool.sizeClass)))) := by
  refine ⟨fun ref after hok => ?_, fun hclosed => hclosed.collect hheap roots,
    fun fault => ?_⟩
  · obtain ⟨room, -, hroom, hplaced⟩ := allocateIn_eq_ok hheap hok
    -- What the roots or the object reach is kept by all three phases.
    have hkept : ∀ other target, heap.get? other = some target →
        heap.Reachable (roots ++ object.edges) other.address →
        room.get? other = some target := by
      intro other target hget hreach
      refine hroom.get?_of_get? ?_
      rw [get?_eq_some_iff, content?_prepared_of_reachable hheap hreach]
      exact get?_eq_some_iff.mp hget
    refine ⟨hplaced.get?_self, ?_, ?_, ?_, ?_, ?_, ?_⟩
    · intro other target hget hreach
      exact hplaced.get?_of_get? (hkept other target hget hreach)
    · rw [hplaced.stats_eq, hroom.settings_stats.2]
      rcases heap.prepared_cases sizeClass object roots with
        ⟨hcollects, heq⟩ | ⟨hcollects, heq⟩
      · rw [heq, hcollects, (collect_settings_stats hheap _).2, if_pos rfl]
      · rw [heq, hcollects, if_neg Bool.false_ne_true]
        rfl
    · intro other
      rw [hplaced.superblocks?_eq, hroom.superblocks?, superblocks?_prepared hheap]
    · intro address hne
      rw [hplaced.content?, if_neg hne]
      exact hroom.content? address
    · intro hcollects address hne
      rw [hplaced.cellAt?_eq, if_neg hne]
      have heq : heap.prepared sizeClass object roots = heap := by
        simp [prepared, hcollects]
      rw [heq] at hroom
      cases hroom with
      | enough hfree => rfl
      | grown hfull hmay => simp [hfull] at hcollects
    · intro hclosed hedges
      refine hplaced.closed (hroom.closed (hclosed.prepared hheap)) ?_
      intro edge hedge
      obtain ⟨target, hget⟩ := hedges edge hedge
      exact ⟨target, hkept edge target hget
        (.root (List.mem_append_right _ hedge) hget)⟩
  · rw [allocateIn_eq_error_iff hheap]
    simp only [Pool.growFault?_eq_some_iff]

/-- The same objects in a heap that collects before every allocation. -/
def tortureHeap : Heap :=
  { loopHeap with settings := { loopHeap.settings with torture := true } }

/-- An object that only the new object holds outlives the collection before the
allocation. -/
theorem allocateIn_exact_tortureHeap :
    tortureHeap.Coherent ∧ ∃ ref after,
      tortureHeap.allocateIn 0 ⟨.list [firstRef 2], []⟩ [firstRef 0] =
        .ok ref after ∧
      after.get? ref = some ⟨.list [firstRef 2], []⟩ ∧
      after.get? (firstRef 2) = some ⟨.null, []⟩ ∧
      after.stats.collections = 1 := by
  have hheap : tortureHeap.Coherent :=
    ⟨⟨coherent_loopHeap.size_le, coherent_loopHeap.pools⟩,
      coherent_loopHeap.unmarked⟩
  obtain ⟨hok, -, hfault⟩ := allocateIn_exact hheap 0
    ⟨.list [firstRef 2], []⟩ [firstRef 0]
  refine ⟨hheap, ?_⟩
  cases heq : tortureHeap.allocateIn 0 ⟨.list [firstRef 2], []⟩ [firstRef 0] with
  | ok ref after =>
      obtain ⟨hnew, hkept, hcollections, -⟩ := hok ref after heq
      exact ⟨ref, after, rfl, hnew,
        hkept (firstRef 2) _ rfl (.root (List.mem_append_right _ (by decide)) rfl),
        hcollections⟩
  | error fault after =>
      rcases (hfault fault).mp ⟨after, heq⟩ with ⟨hsize, -⟩ | ⟨hfull, -⟩
      · exact absurd hsize (by decide)
      · exact absurd hfull (by decide +kernel)

end Heap

end LazyDispatch
