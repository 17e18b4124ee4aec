import LazyDispatch.Proofs.HeapRun

/-!
# Room on a heap

An allocation fails when a pool has no free cell, also after a collection, and
cannot grow.  Here is how many objects a heap takes before that can happen.  The
settings limit the superblocks of a pool, and a reference limits its cells, so
the superblocks of a pool have a capacity that stays the same.  As long as all
objects of the heap together would fit into each of the pools, nothing fails.
-/

namespace LazyDispatch

/-- The number of cells that a pool can have, given the number of cells in a
superblock. -/
def HeapSettings.capacity (settings : HeapSettings) (cells : Nat) : Nat :=
  let addressable := 4294967295 / cells
  cells * settings.maxSuperblocks.elim addressable (min addressable)

namespace Heap

/-- The numbers of cells in the superblocks of each pool. -/
def blockCells (heap : Heap) : Array Nat :=
  heap.pools.map Pool.cellsPerSuperblock

/-- The objects of the heap and some more fit into each pool. -/
structure HasRoom (heap : Heap) (count : Nat) : Prop where
  pools : 0 < heap.blockCells.size
  fits : ∀ cells ∈ heap.blockCells, heap.allocatedCells + count ≤ heap.settings.capacity cells

/-- Whether there is room for so many objects. -/
def fitsMore (heap : Heap) (count : Nat) : Bool :=
  0 < heap.blockCells.size &&
    heap.blockCells.all fun cells => heap.allocatedCells + count ≤ heap.settings.capacity cells

variable {heap after : Heap} {object : HeapObject} {roots : List Ref} {ref : Ref}
  {sizeClass count fewer : Nat}

/-- The check of room is right. -/
theorem hasRoom_of_fitsMore (hfits : heap.fitsMore count = true) :
    heap.HasRoom count := by
  simp only [fitsMore, Bool.and_eq_true, Array.all_eq_true', decide_eq_true_eq] at hfits
  exact ⟨hfits.1, hfits.2⟩

/-- Room depends on the shape of the heap and the cells in use. -/
theorem HasRoom.of_eq (hroom : heap.HasRoom count)
    (hcells : after.blockCells = heap.blockCells)
    (hsettings : after.settings = heap.settings)
    (hcount : after.allocatedCells + fewer ≤ heap.allocatedCells + count) :
    after.HasRoom fewer := by
  refine ⟨hcells ▸ hroom.pools, ?_⟩
  intro cells hmem
  rw [hcells] at hmem
  rw [hsettings]
  exact Nat.le_trans hcount (hroom.fits cells hmem)

/-- Room for many is room for fewer. -/
theorem HasRoom.mono (hroom : heap.HasRoom count) (hle : fewer ≤ count) :
    heap.HasRoom fewer :=
  hroom.of_eq rfl rfl (Nat.add_le_add_left hle _)

/-! ## Superblocks keep their size -/

/-- The cells of a superblock are fixed for each pool. -/
theorem blockCells_modifyPool {change : Pool → Pool}
    (hfixed : ∀ pool, (change pool).cellsPerSuperblock = pool.cellsPerSuperblock) :
    (heap.modifyPool sizeClass change).blockCells = heap.blockCells :=
  map_modify_of_fixed hfixed _ _

/-- A change of an object takes no room. -/
theorem HasRoom.update (hroom : heap.HasRoom count) (ref : Ref)
    (change : HeapObject → HeapObject) :
    (heap.update ref change).HasRoom count := by
  apply hroom.of_eq
  · exact blockCells_modifyPool fun _ => rfl
  · rfl
  · rw [allocatedCells_update]

/-- A collection leaves the superblocks as large as they were. -/
theorem blockCells_collect (hheap : heap.Coherent) (roots : List Ref) :
    (heap.collect roots).2.blockCells = heap.blockCells := by
  have hmarks : ∀ other : Heap, other.unmark.blockCells = other.blockCells := by
    intro other
    rw [blockCells, unmark, Array.map_map]
    rfl
  have htraced : (heap.trace roots.reverse).blockCells = heap.blockCells := by
    rw [← hmarks, (tracing_collect hheap roots).unmark_eq, hmarks]
  rw [← htraced, collect]
  simp only [blockCells, sweep, Array.map_map]
  refine Array.map_congr_left fun pool hpool => ?_
  obtain ⟨free, hfree⟩ := (hheap.toSound.trace roots.reverse).exists_free hpool
  have hshape := (Pool.shape_sweep hfree).1
  simp only [Pool.shape, Prod.mk.injEq] at hshape
  exact hshape.2.2.1

/-- So does all that precedes an allocation. -/
theorem blockCells_prepared (hheap : heap.Coherent) :
    (heap.prepared sizeClass object roots).blockCells = heap.blockCells :=
  prepared_induction (p := fun after => after.blockCells = heap.blockCells) rfl
    (blockCells_collect hheap _)

/-- A collection before an allocation does not add objects. -/
theorem allocatedCells_prepared (hheap : heap.Coherent) (sizeClass : Nat) (object : HeapObject)
    (roots : List Ref) :
    (heap.prepared sizeClass object roots).allocatedCells ≤ heap.allocatedCells :=
  prepared_induction (p := fun after => after.allocatedCells ≤ heap.allocatedCells) (Nat.le_refl _)
    ((allocatedCells_collect hheap _).symm ▸ Nat.le_add_right _ _)

/-- A new superblock is as large as those before it. -/
theorem Roomy.blockCells {room : Heap} (hroom : Roomy heap sizeClass room) :
    room.blockCells = heap.blockCells := by
  cases hroom with
  | enough _ => rfl
  | grown _ _ => exact blockCells_modifyPool fun _ => rfl

/-- Placing an object leaves the superblocks as large. -/
theorem blockCells_place (hok : heap.place sizeClass object = .ok ref after) :
    after.blockCells = heap.blockCells := by
  unfold place at hok
  split at hok
  · cases hok
  · cases hok
  · cases hok
    refine blockCells_modifyPool fun pool => ?_
    have hshape := pool.shape_take object
    simp only [Pool.shape, Prod.mk.injEq] at hshape
    exact hshape.2.2.1

/-- An allocation leaves the superblocks as large. -/
theorem blockCells_allocateIn (hheap : heap.Coherent)
    (hok : heap.allocateIn sizeClass object roots = .ok ref after) :
    after.blockCells = heap.blockCells := by
  unfold allocateIn at hok
  split at hok
  · rcases heap.makeRoom_cases sizeClass object roots with
      ⟨room, hroom, hmake⟩ | ⟨fault, -, -, hmake⟩
    · rw [hmake] at hok
      rw [blockCells_place hok, hroom.blockCells, blockCells_prepared hheap]
    · rw [hmake] at hok
      cases hok
  · cases hok

/-! ## Allocations in a heap with room -/

/-- An allocation takes the room of one object. -/
theorem HasRoom.of_allocate (hroom : heap.HasRoom (count + 1))
    (hheap : heap.Coherent) (hok : heap.allocate object roots = .ok ref after) :
    after.HasRoom count := by
  obtain ⟨room, hclass, hroomy, hplaced⟩ := allocateIn_eq_ok hheap hok
  apply hroom.of_eq (blockCells_allocateIn hheap hok)
  · rw [hplaced.settings_eq, hroomy.settings_stats.1, settings_prepared hheap]
  · have hkept := allocatedCells_prepared hheap (heap.sizeClassFor object.size) object roots
    rw [hplaced.allocatedCells_eq, hroomy.allocatedCells hclass]
    omega

/-- A pool that cannot grow has as many cells as it can have. -/
theorem capacity_le_of_growFault? {settings : HeapSettings} {pool : Pool}
    {fault : Fault} (hcells : 0 < pool.cellsPerSuperblock)
    (hfault : pool.growFault? settings.maxSuperblocks = some fault) :
    settings.capacity pool.cellsPerSuperblock ≤ pool.totalCells := by
  unfold HeapSettings.capacity Pool.totalCells
  apply Nat.mul_le_mul_left
  rcases Pool.growFault?_eq_some_iff.mp hfault with ⟨limit, hlimit, hfull, -⟩ | ⟨-, hmany, -⟩
  · rw [hlimit]
    exact Nat.le_trans (Nat.min_le_right _ _) hfull
  · have haddressable : 4294967295 / pool.cellsPerSuperblock ≤ pool.superblocks := by
      apply Nat.le_of_lt_succ
      rw [Nat.div_lt_iff_lt_mul hcells, Nat.mul_comm, Nat.mul_succ]
      exact hmany
    cases settings.maxSuperblocks with
    | none => exact haddressable
    | some limit => exact Nat.le_trans (Nat.min_le_left _ _) haddressable

/-- An exhausted pool holds objects in all its cells. -/
theorem totalCells_le_of_isExhausted {pool : Pool} (hheap : heap.Coherent)
    (hpool : heap.pools[sizeClass]? = some pool)
    (hfull : heap.isExhausted sizeClass = true) :
    pool.totalCells ≤ heap.allocatedCells := by
  obtain ⟨free, hfree⟩ := (hheap.pools sizeClass pool hpool).coherent
  have hhead : pool.freeHead = none := by
    simpa [isExhausted, hpool] using hfull
  have hnone : free = [] := by
    rw [hfree.freeHead_eq, List.head?_eq_none_iff] at hhead
    exact hhead
  have hcount := hfree.freeCells_eq
  have hcounted := hfree.counted
  -- The objects of one pool are among those of the heap.
  have hsum := total_modify Pool.allocatedCells hpool fun pool => { pool with allocatedCells := 0 }
  have hpart : pool.allocatedCells ≤ heap.allocatedCells := by
    simp only [allocatedCells] at hsum ⊢
    omega
  rw [hnone] at hcount
  simp only [List.length_nil] at hcount
  omega

/-- Every size has a pool. -/
theorem sizeClassFor_lt (hpools : 0 < heap.pools.size) (bytes : Nat) :
    heap.sizeClassFor bytes < heap.pools.size := by
  unfold sizeClassFor
  cases hfind : heap.pools.findIdx? (bytes ≤ ·.cellSize) with
  | none =>
      rw [Option.getD_none]
      omega
  | some index =>
      rw [Option.getD_some]
      exact (Array.findIdx?_eq_some_iff_getElem.mp hfind).1

/-- **Allocations succeed** while there is room. -/
theorem HasRoom.allocate_ne_error (hroom : heap.HasRoom 1)
    (hheap : heap.Coherent) (cause : Fault) :
    heap.allocate object roots ≠ .error cause after := by
  intro herror
  have hpools : 0 < heap.pools.size := by
    have hsize := hroom.pools
    rw [blockCells, Array.size_map] at hsize
    exact hsize
  have hclass := sizeClassFor_lt hpools object.size
  rcases (allocateIn_eq_error_iff hheap).mp ⟨after, herror⟩ with ⟨hunknown, -⟩ |
    ⟨hfull, pool, hpool, hfault⟩
  · omega
  · have hcoherent := hheap.prepared (heap.sizeClassFor object.size) object roots
    have hcells := (hcoherent.pools _ pool hpool).cells_pos
    have hmem : pool.cellsPerSuperblock ∈ heap.blockCells := by
      rw [← blockCells_prepared hheap]
      exact Array.mem_map_of_mem (Array.mem_of_getElem? hpool)
    have hfits := hroom.fits _ hmem
    have hcapacity := capacity_le_of_growFault? hcells hfault
    have hheld := totalCells_le_of_isExhausted hcoherent hpool hfull
    have hkept := allocatedCells_prepared hheap (heap.sizeClassFor object.size) object roots
    omega

end Heap

end LazyDispatch
