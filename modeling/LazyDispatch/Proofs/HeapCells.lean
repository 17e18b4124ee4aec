import LazyDispatch.Heap.Basic
import LazyDispatch.Proofs.FreeList
import LazyDispatch.Proofs.Reference

/-!
# The cells of a heap

What the outside can tell about a cell is its *content*: its generation, and its
object if it is live.  The links of the free list and the marks of a collection
are not part of it.  Whether a reference resolves depends on the content at its
address alone (`get?_eq_content`), so each heap operation is described below by
what it does to contents.

`Heap.Sound` gathers what holds of all pools at all times, also in the middle of
a collection: their free lists are coherent, a pool knows its own size class,
and every index fits into a reference.  `Heap.Coherent` adds that no object is
marked, which holds whenever no collection runs.
-/

namespace LazyDispatch

/-! ## Sums over pools -/

section Total

variable {α β : Type}

theorem total_map (amount : β → Nat) (f : α → β) (items : Array α) :
    total amount (items.map f) = total (fun item => amount (f item)) items := by
  obtain ⟨items⟩ := items
  simp [total, List.foldr_map]

/-- Sums of equal amounts are equal. -/
theorem total_congr {amount other : α → Nat} {items : Array α}
    (hsame : ∀ item ∈ items, amount item = other item) :
    total amount items = total other items := by
  obtain ⟨items⟩ := items
  simp only [total, List.mem_toArray, List.foldr_toArray] at hsame ⊢
  induction items with
  | nil => rfl
  | cons first rest ih =>
      rw [List.foldr_cons, List.foldr_cons, hsame first List.mem_cons_self,
        ih fun item hitem => hsame item (List.mem_cons_of_mem _ hitem)]

theorem total_add (amount other : α → Nat) (items : Array α) :
    total (fun item => amount item + other item) items =
      total amount items + total other items := by
  obtain ⟨items⟩ := items
  simp only [total, List.foldr_toArray]
  induction items with
  | nil => rfl
  | cons first rest ih =>
      simp only [List.foldr_cons, ih]
      omega

theorem total_zero (items : Array α) : total (fun _ => 0) items = 0 := by
  obtain ⟨items⟩ := items
  simp only [total, List.foldr_toArray]
  induction items with
  | nil => rfl
  | cons first rest ih => rw [List.foldr_cons, ih]

end Total

/-- What the outside can tell about a cell. -/
def Cell.content (cell : Cell) : Generation × Option HeapObject :=
  (cell.generation, cell.object?)

/-- What holds of the pool of a size class at all times. -/
structure Pool.Sound (pool : Pool) (sizeClass : Nat) : Prop where
  coherent : ∃ free, pool.Coherent free
  sizeClass_eq : pool.sizeClass = sizeClass
  cells_pos : 0 < pool.cellsPerSuperblock
  addressable : pool.totalCells ≤ 4294967295

/-- The pools of the heap are sound. -/
structure Heap.Sound (heap : Heap) : Prop where
  size_le : heap.pools.size ≤ 255
  pools : ∀ (sizeClass : Nat) (pool : Pool),
    heap.pools[sizeClass]? = some pool → pool.Sound sizeClass

/-- The pools of the heap are sound, and no collection runs. -/
structure Heap.Coherent (heap : Heap) : Prop extends heap.Sound where
  unmarked : ∀ (sizeClass : Nat) (pool : Pool),
    heap.pools[sizeClass]? = some pool → pool.Unmarked

namespace Pool

variable {pool : Pool} {sizeClass : Nat}

/-- An operation that keeps the shape of a sound pool only has to keep its
free list coherent. -/
theorem Sound.of_shape {changed : Pool}
    (hpool : pool.Sound sizeClass) (hshape : changed.shape = pool.shape)
    (hcoherent : ∃ free, changed.Coherent free) : changed.Sound sizeClass := by
  simp only [shape, Prod.mk.injEq] at hshape
  obtain ⟨hclass, -, hcells, hblocks⟩ := hshape
  refine ⟨hcoherent, hclass.trans hpool.sizeClass_eq, ?_, ?_⟩
  · rw [hcells]
    exact hpool.cells_pos
  · rw [totalCells, hcells, hblocks]
    exact hpool.addressable

theorem Sound.mark
    (hpool : pool.Sound sizeClass) (index : Nat) :
    (pool.mark index).Sound sizeClass := by
  obtain ⟨free, hfree⟩ := hpool.coherent
  exact hpool.of_shape rfl ⟨free, hfree.mark index⟩

theorem Sound.update
    (hpool : pool.Sound sizeClass) (index : Nat) (generation : Generation)
    (change : HeapObject → HeapObject) :
    (pool.update index generation change).Sound sizeClass := by
  obtain ⟨free, hfree⟩ := hpool.coherent
  exact hpool.of_shape rfl ⟨free, hfree.update index generation change⟩

theorem Sound.sweep
    (hpool : pool.Sound sizeClass) : pool.sweep.1.Sound sizeClass := by
  obtain ⟨_, hfree⟩ := hpool.coherent
  exact hpool.of_shape (shape_sweep hfree).1 ⟨_, hfree.sweep⟩

/-- Taking a cell keeps the shape of a pool. -/
theorem shape_take (pool : Pool) (object : HeapObject) :
    (pool.take object).shape = pool.shape := by
  unfold Pool.take
  split
  · rfl
  · split <;> rfl

theorem Sound.take
    (hpool : pool.Sound sizeClass) (object : HeapObject) :
    (pool.take object).Sound sizeClass := by
  obtain ⟨free, hfree⟩ := hpool.coherent
  cases hhead : pool.freeHead with
  | none =>
      rw [Pool.take, hhead]
      exact hpool
  | some index =>
      obtain ⟨rest, generation, next, rfl, hcell, -⟩ := hfree.exists_head hhead
      exact hpool.of_shape (pool.shape_take object) ⟨rest, hfree.take object⟩

/-- A pool that may grow stays addressable. -/
theorem Sound.grow
    (hpool : pool.Sound sizeClass) {maxSuperblocks : Option Nat}
    (hmay : pool.growFault? maxSuperblocks = none) :
    pool.grow.Sound sizeClass := by
  obtain ⟨free, hfree⟩ := hpool.coherent
  refine ⟨⟨_, hfree.grow hpool.cells_pos⟩, hpool.sizeClass_eq,
    hpool.cells_pos, ?_⟩
  have htotal : pool.grow.totalCells =
      pool.totalCells + pool.cellsPerSuperblock := Nat.mul_succ _ _
  unfold growFault? at hmay
  split at hmay
  · cases hmay
  · split at hmay
    · cases hmay
    · omega

theorem Sound.release
    (hpool : pool.Sound sizeClass) : pool.release.Sound sizeClass :=
  ⟨⟨[], coherent_release pool⟩, hpool.sizeClass_eq, hpool.cells_pos,
    Nat.zero_le _⟩

/-- Changing an object marks nothing. -/
theorem Unmarked.update (hpool : pool.Unmarked) (index : Nat)
    (generation : Generation) (change : HeapObject → HeapObject) :
    (pool.update index generation change).Unmarked := by
  intro other cell hcell
  simp only [Pool.update, Array.getElem?_modify] at hcell
  split at hcell
  · obtain ⟨⟨current, state⟩, hold, rfl⟩ := Option.map_eq_some_iff.mp hcell
    have hunmarked := hpool other _ hold
    cases state with
    | free next => rfl
    | live object marked =>
        simp only [Cell.update]
        split <;> exact hunmarked
  · exact hpool other cell hcell

/-- A new object is not marked. -/
theorem Unmarked.take (hpool : pool.Unmarked)
    (object : HeapObject) : (pool.take object).Unmarked := by
  unfold Pool.take
  split
  · exact hpool
  · split
    · intro other cell hcell
      rw [Array.getElem?_setIfInBounds] at hcell
      split at hcell
      · split at hcell
        · cases hcell
          rfl
        · cases hcell
      · exact hpool other cell hcell
    · exact hpool

/-- A new superblock has no objects. -/
theorem Unmarked.grow (hpool : pool.Unmarked) :
    pool.grow.Unmarked := by
  intro index cell hcell
  rw [cells_grow] at hcell
  by_cases hold : index < pool.cells.size
  · rw [Array.getElem?_append_left hold] at hcell
    exact hpool index cell hcell
  · rw [Array.getElem?_append_right (by omega)] at hcell
    obtain ⟨hlt, -⟩ := Array.getElem?_eq_some_iff.mp hcell
    simp only [freshCells, Array.size_ofFn] at hlt
    rw [getElem?_freshCells _ _ _ hlt] at hcell
    cases hcell
    rfl

end Pool

namespace Heap

variable {change : Pool → Pool}

variable {heap : Heap} {sizeClass : Nat}

/-- The free list of every pool is coherent. -/
theorem Sound.exists_free (hheap : heap.Sound) {pool : Pool}
    (hpool : pool ∈ heap.pools) : ∃ free, pool.Coherent free := by
  obtain ⟨sizeClass, hlt, hget⟩ := Array.mem_iff_getElem.mp hpool
  exact (hheap.pools sizeClass pool
    (Array.getElem?_eq_some_iff.mpr ⟨hlt, hget⟩)).coherent

/-- The content of the cell at an address. -/
def content? (heap : Heap) (address : Address) :
    Option (Generation × Option HeapObject) :=
  (heap.cellAt? address).map Cell.content

/-! ## Resolving references -/

/-- Whether a reference resolves depends on the content at its address. -/
theorem get?_eq_content (heap : Heap) (ref : Ref) :
    heap.get? ref = (heap.content? ref.address).bind fun content =>
      if content.1 = ref.generation then content.2 else none := by
  unfold get? cell? content?
  cases heap.cellAt? ref.address with
  | none => rfl
  | some cell =>
      by_cases hgeneration : cell.generation = ref.generation
      · simp [Cell.content, Option.filter, hgeneration]
      · simp [Cell.content, Option.filter, hgeneration]

/-- A reference resolves to the object of a live cell of its generation. -/
theorem get?_eq_some_iff {ref : Ref} {object : HeapObject} :
    heap.get? ref = some object ↔
      heap.content? ref.address = some (ref.generation, some object) := by
  rw [get?_eq_content]
  constructor
  · intro hget
    obtain ⟨⟨generation, found⟩, hcontent, hfound⟩ :=
      Option.bind_eq_some_iff.mp hget
    by_cases hgeneration : generation = ref.generation
    · simp only [hgeneration, ↓reduceIte] at hfound
      rw [hcontent, hgeneration, hfound]
    · simp [hgeneration] at hfound
  · intro hcontent
    simp [hcontent]

/-- The cell of a reference that resolves. -/
theorem exists_cell_of_get? {ref : Ref} {object : HeapObject}
    (hget : heap.get? ref = some object) :
    ∃ marked, heap.cell? ref =
      some ⟨ref.generation, .live object marked⟩ := by
  obtain ⟨⟨generation, state⟩, hcell, hobject⟩ :=
    Option.bind_eq_some_iff.mp hget
  have hgeneration := (Option.filter_eq_some_iff.mp hcell).2
  simp only [decide_eq_true_eq] at hgeneration
  cases state with
  | free next => cases hobject
  | live found marked =>
      cases hobject
      exact ⟨marked, by rw [hcell, hgeneration]⟩

/-! ## Changing one pool -/

theorem cellAt?_eq_bind (heap : Heap) (address : Address) :
    heap.cellAt? address =
      heap.pools[address.sizeClass]?.bind (·.cells[address.index]?) := by
  unfold cellAt?
  cases heap.pools[address.sizeClass]? <;> rfl

/-- The pools after a change of one of them. -/
theorem getElem?_modifyPool (heap : Heap) (sizeClass : Nat)
    (change : Pool → Pool) (other : Nat) :
    (heap.modifyPool sizeClass change).pools[other]? =
      if sizeClass = other then heap.pools[other]?.map change
      else heap.pools[other]? :=
  Array.getElem?_modify

/-- A change of one pool leaves the cells of the others alone. -/
theorem cellAt?_modifyPool_of_ne (heap : Heap)
    (change : Pool → Pool) {address : Address}
    (hne : sizeClass ≠ address.sizeClass) :
    (heap.modifyPool sizeClass change).cellAt? address =
      heap.cellAt? address := by
  rw [cellAt?_eq_bind, cellAt?_eq_bind, getElem?_modifyPool, if_neg hne]

/-- A change of one pool that keeps the pool sound keeps the heap sound. -/
theorem Sound.modifyPool (hheap : heap.Sound)
    (hchange : ∀ pool, heap.pools[sizeClass]? = some pool →
      (change pool).Sound sizeClass) :
    (heap.modifyPool sizeClass change).Sound := by
  refine ⟨?_, ?_⟩
  · simpa [Heap.modifyPool] using hheap.size_le
  · intro other pool hpool
    rw [getElem?_modifyPool] at hpool
    split at hpool
    · next heq =>
        subst heq
        obtain ⟨old, hold, rfl⟩ := Option.map_eq_some_iff.mp hpool
        exact hchange old hold
    · exact hheap.pools other pool hpool

/-- The same for a heap without marks. -/
theorem Coherent.modifyPool (hheap : heap.Coherent)
    (hchange : ∀ pool, heap.pools[sizeClass]? = some pool →
      (change pool).Sound sizeClass)
    (hunmarked : ∀ pool, heap.pools[sizeClass]? = some pool →
      (change pool).Unmarked) :
    (heap.modifyPool sizeClass change).Coherent := by
  refine ⟨hheap.toSound.modifyPool hchange, ?_⟩
  intro other pool hpool
  rw [getElem?_modifyPool] at hpool
  split at hpool
  · next heq =>
      subst heq
      obtain ⟨old, hold, rfl⟩ := Option.map_eq_some_iff.mp hpool
      exact hunmarked old hold
  · exact hheap.unmarked other pool hpool

/-- Marking keeps a heap sound. -/
theorem Sound.mark (hheap : heap.Sound) (ref : Ref) :
    (heap.mark ref).Sound :=
  hheap.modifyPool fun pool hpool => (hheap.pools _ pool hpool).mark _

/-- Changing an object keeps a heap coherent. -/
theorem Coherent.update (hheap : heap.Coherent) (ref : Ref)
    (change : HeapObject → HeapObject) : (heap.update ref change).Coherent := by
  apply hheap.modifyPool
  · intro pool hpool
    exact (hheap.pools _ pool hpool).update _ _ _
  · intro pool hpool
    exact (hheap.unmarked _ pool hpool).update _ _ _

/-- Giving all superblocks back keeps a heap coherent. -/
theorem Coherent.releaseAll (hheap : heap.Coherent) :
    heap.releaseAll.Coherent := by
  refine ⟨⟨?_, ?_⟩, ?_⟩
  · simpa [Heap.releaseAll] using hheap.size_le
  · intro sizeClass pool hpool
    simp only [Heap.releaseAll, Array.getElem?_map] at hpool
    obtain ⟨old, hold, rfl⟩ := Option.map_eq_some_iff.mp hpool
    exact (hheap.pools sizeClass old hold).release
  · intro sizeClass pool hpool
    simp only [Heap.releaseAll, Array.getElem?_map] at hpool
    obtain ⟨old, hold, rfl⟩ := Option.map_eq_some_iff.mp hpool
    intro index cell hcell
    simp [Pool.release] at hcell

/-- Valid settings have few size classes, and cells that fit into a
superblock. -/
theorem cellSizes_of_validate {settings : HeapSettings}
    (hvalid : settings.validate = .ok ()) :
    settings.cellSizes.length ≤ 255 ∧
      ∀ size ∈ settings.cellSizes, 0 < size ∧ size ≤ settings.superblockSize := by
  unfold HeapSettings.validate at hvalid
  split at hvalid
  · cases hvalid
  split at hvalid
  · cases hvalid
  split at hvalid
  · cases hvalid
  split at hvalid
  · cases hvalid
  split at hvalid
  · cases hvalid
  next _ hfew hzero _ hlarge =>
    refine ⟨by omega, fun size hsize => ⟨Nat.pos_of_ne_zero ?_, ?_⟩⟩
    · intro hzero
      subst hzero
      simp [hsize] at hzero
    · simp only [List.any_eq_true, decide_eq_true_eq, not_exists, not_and] at hlarge
      exact Nat.le_of_not_lt (hlarge size hsize)

/-- Valid settings make a heap, and it is coherent: every superblock holds at
least one cell, because no cell is larger than a superblock. -/
theorem exists_create {settings : HeapSettings}
    (hvalid : settings.validate = .ok ()) :
    ∃ heap, create settings = .ok heap ∧ heap.Coherent ∧ heap.stats = {} ∧
      (∀ address, heap.content? address = none) ∧ heap.allocatedCells = 0 := by
  obtain ⟨hfew, hsizes⟩ := cellSizes_of_validate hvalid
  have hpools : ∀ (sizeClass : Nat) (pool : Pool),
      (settings.cellSizes.toArray.mapIdx fun sizeClass cellSize =>
        Pool.empty sizeClass cellSize settings.superblockSize)[sizeClass]? =
          some pool →
      ∃ size ∈ settings.cellSizes,
        pool = Pool.empty sizeClass size settings.superblockSize := by
    intro sizeClass pool hpool
    rw [Array.getElem?_mapIdx, List.getElem?_toArray] at hpool
    obtain ⟨size, hsize, rfl⟩ := Option.map_eq_some_iff.mp hpool
    exact ⟨size, List.mem_of_getElem? hsize, rfl⟩
  refine ⟨_, by rw [create, hvalid]; rfl, ⟨⟨?_, ?_⟩, ?_⟩, rfl, ?_, ?_⟩
  · simpa using hfew
  · intro sizeClass pool hpool
    obtain ⟨size, hsize, rfl⟩ := hpools sizeClass pool hpool
    refine ⟨⟨[], Pool.coherent_empty _ _ _⟩, rfl, ?_, Nat.zero_le _⟩
    exact Nat.div_pos (hsizes size hsize).2 (hsizes size hsize).1
  · intro sizeClass pool hpool index cell hcell
    obtain ⟨size, -, rfl⟩ := hpools sizeClass pool hpool
    simp [Pool.empty] at hcell
  · intro address
    rw [content?, cellAt?_eq_bind]
    cases hpool : (settings.cellSizes.toArray.mapIdx fun sizeClass cellSize =>
        Pool.empty sizeClass cellSize settings.superblockSize)[address.sizeClass]? with
    | none => rfl
    | some pool =>
        obtain ⟨size, -, rfl⟩ := hpools _ pool hpool
        rfl
  · refine (total_congr fun pool hpool => ?_).trans (total_zero _)
    obtain ⟨sizeClass, hlt, hget⟩ := Array.mem_iff_getElem.mp hpool
    obtain ⟨size, -, rfl⟩ := hpools sizeClass pool
      (Array.getElem?_eq_some_iff.mpr ⟨hlt, hget⟩)
    rfl

/-! ## Contents after each operation -/

/-- The contents after a change of one pool. -/
theorem content?_modifyPool (heap : Heap) (sizeClass : Nat)
    (change : Pool → Pool) (address : Address) :
    (heap.modifyPool sizeClass change).content? address =
      if sizeClass = address.sizeClass then
        heap.pools[sizeClass]?.bind fun pool =>
          (change pool).cells[address.index]?.map Cell.content
      else heap.content? address := by
  unfold content?
  split
  · next heq =>
      subst heq
      rw [cellAt?_eq_bind, getElem?_modifyPool, if_pos rfl]
      cases heap.pools[address.sizeClass]? <;> rfl
  · next hne => rw [cellAt?_modifyPool_of_ne heap change hne]

/-- The cells after a change of the cell at one address. -/
theorem cellAt?_modifyCell (heap : Heap) {address : Address} {f : Cell → Cell}
    (hchange : ∀ pool, (change pool).cells = pool.cells.modify address.index f)
    (other : Address) :
    (heap.modifyPool address.sizeClass change).cellAt? other =
      if other = address then (heap.cellAt? other).map f
      else heap.cellAt? other := by
  obtain ⟨otherClass, index⟩ := other
  by_cases hclass : address.sizeClass = otherClass
  · subst hclass
    rw [cellAt?_eq_bind, cellAt?_eq_bind, getElem?_modifyPool, if_pos rfl]
    cases heap.pools[address.sizeClass]? with
    | none => simp
    | some pool =>
        simp only [Option.map_some, Option.bind_some, hchange,
          Array.getElem?_modify]
        by_cases hindex : address.index = index
        · subst hindex
          rw [if_pos rfl, if_pos rfl]
        · rw [if_neg hindex, if_neg]
          intro heq
          exact hindex (congrArg Address.index heq).symm
  · rw [cellAt?_modifyPool_of_ne heap change hclass, if_neg]
    intro heq
    exact hclass (congrArg Address.sizeClass heq).symm

/-- The cells after marking. -/
theorem cellAt?_mark (heap : Heap) (ref : Ref) (address : Address) :
    (heap.mark ref).cellAt? address =
      if address = ref.address then (heap.cellAt? address).map Cell.mark
      else heap.cellAt? address :=
  heap.cellAt?_modifyCell (fun _ => rfl) address

/-- Changing an object changes the content at one address, and only if the
reference resolves. -/
theorem content?_update (heap : Heap) (ref : Ref)
    (change : HeapObject → HeapObject) (address : Address) :
    (heap.update ref change).content? address =
      if address = ref.address then
        (heap.content? address).map fun content =>
          if content.1 = ref.generation then (content.1, content.2.map change)
          else content
      else heap.content? address := by
  rw [content?, content?, update, heap.cellAt?_modifyCell (fun _ => rfl)]
  split
  · cases heap.cellAt? address with
    | none => rfl
    | some cell =>
        obtain ⟨generation, state⟩ := cell
        cases state with
        | free next => simp [Cell.update, Cell.content, Cell.object?]
        | live object marked =>
            simp only [Option.map_some, Cell.update, Cell.content]
            split <;> simp [Cell.object?]
  · rfl

/-- Growth changes no content; the new cells are free and were never used. -/
theorem content?_grow (sizeClass : Nat) (address : Address) :
    (heap.modifyPool sizeClass Pool.grow).content? address =
        heap.content? address ∨
      heap.content? address = none ∧
        (heap.modifyPool sizeClass Pool.grow).content? address =
          some (0, none) := by
  rw [content?_modifyPool]
  split
  · next heq =>
      subst heq
      rw [content?, cellAt?_eq_bind]
      cases heap.pools[address.sizeClass]? with
      | none => exact Or.inl rfl
      | some pool =>
          simp only [Option.bind_some, Pool.cells_grow]
          by_cases hold : address.index < pool.cells.size
          · exact Or.inl (by rw [Array.getElem?_append_left hold])
          · have hnone : pool.cells[address.index]? = none :=
              Array.getElem?_eq_none (by omega)
            rw [Array.getElem?_append_right (by omega), hnone]
            by_cases hnew : address.index - pool.cells.size <
                pool.cellsPerSuperblock
            · refine Or.inr ⟨rfl, ?_⟩
              rw [Pool.getElem?_freshCells _ _ _ hnew]
              rfl
            · refine Or.inl ?_
              rw [Array.getElem?_eq_none]
              simpa [Pool.freshCells] using hnew
  · exact Or.inl rfl

/-- Allocation fills one free cell. -/
theorem cellAt?_take {index : Nat} {pool : Pool}
    {generation : Generation} {next : Option Nat}
    (hpool : heap.pools[sizeClass]? = some pool)
    (hhead : pool.freeHead = some index)
    (hcell : pool.cells[index]? = some ⟨generation, .free next⟩)
    (object : HeapObject) (address : Address) :
    (heap.modifyPool sizeClass (Pool.take object)).cellAt? address =
      if address = ⟨sizeClass, index⟩ then
        some ⟨generation, .live object false⟩
      else heap.cellAt? address := by
  obtain ⟨otherClass, other⟩ := address
  have hlt := (Array.getElem?_eq_some_iff.mp hcell).1
  by_cases hclass : sizeClass = otherClass
  · subst hclass
    rw [cellAt?_eq_bind, cellAt?_eq_bind, getElem?_modifyPool, if_pos rfl, hpool]
    simp only [Option.map_some, Option.bind_some, Pool.take, hhead, hcell,
      Array.getElem?_setIfInBounds, Address.mk.injEq, true_and]
    by_cases hindex : index = other
    · subst hindex
      rw [if_pos rfl, if_pos hlt, if_pos rfl]
    · rw [if_neg hindex, if_neg (Ne.symm hindex)]
  · rw [cellAt?_modifyPool_of_ne heap _ hclass, if_neg]
    intro heq
    exact hclass (congrArg Address.sizeClass heq).symm

/-- A sweep reclaims the live cells without a mark and changes no other
content. -/
theorem content?_sweep (hheap : heap.Sound) (address : Address) :
    heap.sweep.2.content? address =
      (heap.cellAt? address).map fun cell =>
        if cell.isLive && !cell.isMarked then (cell.generation.next, none)
        else cell.content := by
  rw [content?, cellAt?_eq_bind, cellAt?_eq_bind]
  simp only [sweep, Array.map_map, Array.getElem?_map]
  cases hpool : heap.pools[address.sizeClass]? with
  | none => rfl
  | some pool =>
      obtain ⟨free, hfree⟩ := (hheap.pools _ _ hpool).coherent
      simp only [Option.map_some, Option.bind_some, Function.comp_apply]
      cases hcell : pool.cells[address.index]? with
      | none => rw [Pool.sweep_getElem?_eq_none hfree hcell]; rfl
      | some cell =>
          obtain ⟨after, hafter, hswept⟩ := Pool.swept_sweep hfree hcell
          rw [hafter]
          cases hswept <;> rfl

end Heap

end LazyDispatch
