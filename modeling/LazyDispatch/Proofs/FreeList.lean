import LazyDispatch.Heap.Pool

/-!
# The free list of a pool

The free cells of a pool form a linked list that three operations splice: growth
puts a whole superblock in front, allocation takes the first cell, and a sweep
puts one cell after the other in front.  The counters of the pool are kept apart
from the list.

`Pool.Coherent pool free` says that the list runs through exactly the indices
`free`, that these are all the free cells, and that the counters agree with the
cells.  Each operation has one theorem here that names the list after it:

* `Coherent.grow` - the new indices in ascending order, then the old list;
* `Coherent.take` - the list without its head;
* `Coherent.sweep` - the reclaimed indices in descending order, then the old
  list;
* `Coherent.of_same_free` - the same list, if no free cell is touched.

A coherent pool passes its own check (`Coherent.verify`).
-/

namespace LazyDispatch

namespace Pool

variable {cell : Cell} {head : Option Nat}

variable {cells : Array Cell} {free : List Nat} {index : Nat} {pool : Pool}

/-- The list `free` is threaded through the cells: `head` names its first
index, and each of its cells is free and names the next one. -/
def Threaded (cells : Array Cell) : Option Nat → List Nat → Prop
  | head, [] => head = none
  | head, index :: rest =>
      head = some index ∧ ∃ generation next,
        cells[index]? = some ⟨generation, .free next⟩ ∧
          Threaded cells next rest

/-- The cell at an index is free. -/
def FreeAt (cells : Array Cell) (index : Nat) : Prop :=
  ∃ generation next, cells[index]? = some ⟨generation, .free next⟩

/-- The free list of a pool runs through `free`, which lists every free cell
once, and the counters agree with the cells. -/
structure Coherent (pool : Pool) (free : List Nat) : Prop where
  threaded : Threaded pool.cells pool.freeHead free
  nodup : free.Nodup
  mem_free : ∀ index, index ∈ free ↔ FreeAt pool.cells index
  freeCells_eq : pool.freeCells = free.length
  allocatedCells_eq : pool.allocatedCells = pool.liveCells
  counted : pool.allocatedCells + pool.freeCells = pool.totalCells

/-- No object of the pool is marked. -/
def Unmarked (pool : Pool) : Prop :=
  ∀ (index : Nat) (cell : Cell), pool.cells[index]? = some cell →
    cell.isMarked = false

/-! ## The list -/

/-- A threaded list survives every change that leaves its cells alone. -/
theorem Threaded.frame {cells' : Array Cell} :
    ∀ {head}, Threaded cells head free →
      (∀ index ∈ free, cells'[index]? = cells[index]?) →
      Threaded cells' head free := by
  induction free with
  | nil => exact fun hthreaded _ => hthreaded
  | cons index rest ih =>
      intro head hthreaded hsame
      obtain ⟨hhead, generation, next, hcell, hrest⟩ := hthreaded
      refine ⟨hhead, generation, next, ?_, ?_⟩
      · rw [hsame index List.mem_cons_self, hcell]
      · exact ih hrest fun other hother =>
          hsame other (List.mem_cons_of_mem _ hother)

/-- Every cell on the list is free. -/
theorem Threaded.freeAt :
    ∀ {head}, Threaded cells head free → index ∈ free → FreeAt cells index := by
  induction free with
  | nil =>
      intro head _ hmem
      cases hmem
  | cons first rest ih =>
      intro head hthreaded hmem
      obtain ⟨_, generation, next, hcell, hrest⟩ := hthreaded
      rcases List.mem_cons.mp hmem with rfl | hmem
      · exact ⟨generation, next, hcell⟩
      · exact ih hrest hmem

/-- A list without a head has no cells. -/
theorem Threaded.eq_nil
    (hthreaded : Threaded cells none free) : free = [] := by
  cases free with
  | nil => rfl
  | cons index rest => cases hthreaded.1

/-- The cells determine the list from a head on. -/
theorem Threaded.unique :
    ∀ {head other}, Threaded cells head free → Threaded cells head other →
      free = other := by
  induction free with
  | nil =>
      intro head other hfree hother
      rw [show head = none from hfree] at hother
      exact hother.eq_nil.symm
  | cons index rest ih =>
      intro head other hthreaded hother
      obtain ⟨hhead, generation, next, hcell, hrest⟩ := hthreaded
      cases other with
      | nil =>
          rw [show head = none from hother] at hhead
          cases hhead
      | cons first tail =>
          obtain ⟨hfirst, generation', next', hcell', htail⟩ := hother
          obtain rfl : index = first := Option.some.inj (hhead.symm.trans hfirst)
          cases hcell.symm.trans hcell'
          rw [ih hrest htail]

/-- The list from a later cell on is a shorter list. -/
theorem Threaded.exists_suffix :
    ∀ {head}, Threaded cells head free → index ∈ free →
      ∃ rest, Threaded cells (some index) rest ∧ rest.length ≤ free.length := by
  induction free with
  | nil =>
      intro head _ hmem
      cases hmem
  | cons first rest ih =>
      intro head hthreaded hmem
      rcases List.mem_cons.mp hmem with rfl | hmem
      · obtain ⟨hhead, hrest⟩ := hthreaded
        exact ⟨index :: rest, ⟨rfl, hrest⟩, Nat.le_refl _⟩
      · obtain ⟨_, _, _, _, hrest⟩ := hthreaded
        obtain ⟨tail, htail, hle⟩ := ih hrest hmem
        exact ⟨tail, htail, Nat.le_succ_of_le hle⟩

/-- A list that ends visits no cell twice: otherwise it would be as long as a
proper part of itself. -/
theorem Threaded.nodup :
    ∀ {head}, Threaded cells head free → free.Nodup := by
  induction free with
  | nil => exact fun _ => List.nodup_nil
  | cons index rest ih =>
      intro head hthreaded
      obtain ⟨hhead, generation, next, hcell, hrest⟩ := hthreaded
      refine List.nodup_cons.mpr ⟨fun hmem => ?_, ih hrest⟩
      obtain ⟨tail, htail, hle⟩ := hrest.exists_suffix hmem
      have heq : tail = index :: rest :=
        htail.unique ⟨rfl, generation, next, hcell, hrest⟩
      rw [heq, List.length_cons] at hle
      omega

/-- The check of the free list accepts exactly the threaded lists. -/
theorem chainHas_iff (pool : Pool) (count : Nat) :
    ∀ head, pool.chainHas count head = true ↔
      ∃ free, free.length = count ∧ Threaded pool.cells head free := by
  induction count with
  | zero =>
      intro head
      cases head with
      | none =>
          refine ⟨fun _ => ⟨[], rfl, rfl⟩, fun _ => ?_⟩
          simp [chainHas]
      | some index =>
          refine ⟨fun h => by simp [chainHas] at h, ?_⟩
          intro hlist
          obtain ⟨free, hlength, hthreaded⟩ := hlist
          rw [List.length_eq_zero_iff.mp hlength] at hthreaded
          cases hthreaded
  | succ count ih =>
      intro head
      cases head with
      | none =>
          refine ⟨fun h => by simp [chainHas] at h, ?_⟩
          intro hlist
          obtain ⟨free, hlength, hthreaded⟩ := hlist
          simp [hthreaded.eq_nil] at hlength
      | some index =>
          constructor
          · intro h
            rw [chainHas] at h
            split at h
            · next generation next hcell =>
                obtain ⟨rest, hlength, hrest⟩ := (ih next).mp h
                exact ⟨index :: rest, by simp [hlength],
                  rfl, generation, next, hcell, hrest⟩
            · cases h
          · intro hlist
            obtain ⟨free, hlength, hthreaded⟩ := hlist
            cases free with
            | nil => simp at hlength
            | cons first rest =>
                obtain ⟨hhead, generation, next, hcell, hrest⟩ := hthreaded
                obtain rfl : index = first := Option.some.inj hhead
                rw [chainHas, hcell]
                exact (ih next).mpr ⟨rest, by simpa using hlength, hrest⟩

/-! ## Counting cells -/

/-- A cell is live unless it is free. -/
theorem isLive_eq_false_iff :
    cell.isLive = false ↔ ∃ generation next, cell = ⟨generation, .free next⟩ := by
  obtain ⟨generation, state⟩ := cell
  cases state <;> simp [Cell.isLive, Cell.object?]

/-- The number of cells with a property is the number of their indices. -/
theorem countP_eq_length_filter_range (cells : Array Cell) (p : Cell → Bool) :
    cells.countP p =
      ((List.range cells.size).filter fun index => cells[index]?.any p).length := by
  obtain ⟨cells⟩ := cells
  simp only [List.countP_toArray, List.size_toArray, List.getElem?_toArray]
  induction cells with
  | nil => rfl
  | cons first rest ih =>
      rw [List.length_cons, List.range_succ_eq_map, List.filter_cons]
      have hrest : ((List.range rest.length).map Nat.succ |>.filter
          fun index => ((first :: rest)[index]?).any p).length =
          rest.countP p := by
        rw [ih, List.filter_map, List.length_map]
        rfl
      by_cases hp : p first = true
      · simp [hp, hrest]
      · simp [hp, hrest]

/-- The indices of the free cells, in ascending order. -/
def freeIndices (pool : Pool) : List Nat :=
  (List.range pool.cells.size).filter fun index =>
    pool.cells[index]?.any fun cell => !cell.isLive

theorem mem_freeIndices :
    index ∈ pool.freeIndices ↔ FreeAt pool.cells index := by
  rw [freeIndices, List.mem_filter, List.mem_range, Option.any_eq_true]
  constructor
  · intro hfound
    obtain ⟨-, cell, hcell, hdead⟩ := hfound
    obtain ⟨generation, next, rfl⟩ :=
      isLive_eq_false_iff.mp (by simpa using hdead)
    exact ⟨generation, next, hcell⟩
  · intro hfree
    obtain ⟨generation, next, hcell⟩ := hfree
    exact ⟨(Array.getElem?_eq_some_iff.mp hcell).1, _, hcell, rfl⟩

theorem nodup_freeIndices (pool : Pool) : pool.freeIndices.Nodup :=
  List.nodup_range.sublist List.filter_sublist

/-- Live and free cells together are all cells. -/
theorem liveCells_add_freeIndices (pool : Pool) :
    pool.liveCells + pool.freeIndices.length = pool.totalCells := by
  have hall : pool.cells.size = pool.cells.countP Cell.isLive +
      pool.cells.countP fun cell => !cell.isLive := by
    simpa using @Array.size_eq_countP_add_countP _ Cell.isLive pool.cells
  rw [freeIndices, ← countP_eq_length_filter_range, liveCells, ← hall,
    pool.size_cells, totalCells]

/-- A list that visits the free cells and no others is as long as there are
free cells. -/
theorem Threaded.length_eq
    (hthreaded : Threaded pool.cells head free)
    (hfree : ∀ index, index ∈ free ↔ FreeAt pool.cells index) :
    free.length = pool.freeIndices.length := by
  have hperm : free.Perm pool.freeIndices :=
    (List.perm_ext_iff_of_nodup hthreaded.nodup pool.nodup_freeIndices).mpr
      fun index => (hfree index).trans mem_freeIndices.symm
  exact hperm.length_eq

/-- A pool is coherent if its list is right and its counters add up: the
number of live cells follows. -/
theorem Coherent.of_counted
    (hthreaded : Threaded pool.cells pool.freeHead free)
    (hfree : ∀ index, index ∈ free ↔ FreeAt pool.cells index)
    (hlength : pool.freeCells = free.length)
    (hcounted : pool.allocatedCells + pool.freeCells = pool.totalCells) :
    pool.Coherent free := by
  refine ⟨hthreaded, hthreaded.nodup, hfree, hlength, ?_, hcounted⟩
  have hlengths := hthreaded.length_eq hfree
  have hall := pool.liveCells_add_freeIndices
  omega

/-! ## The operations -/

/-- A pool without superblocks is coherent. -/
theorem coherent_empty (sizeClass cellSize superblockSize : Nat) :
    (empty sizeClass cellSize superblockSize).Coherent [] := by
  refine Coherent.of_counted rfl ?_ rfl rfl
  intro index
  simp [FreeAt, empty]

/-- So is a pool that gave its superblocks back. -/
theorem coherent_release (pool : Pool) : pool.release.Coherent [] := by
  refine Coherent.of_counted rfl ?_ rfl rfl
  intro index
  simp [FreeAt, release]

/-- An operation that touches neither the free cells nor the counters leaves
the free list as it was. -/
theorem Coherent.of_same_free {changed : Pool}
    (hpool : pool.Coherent free)
    (hfree : ∀ (index : Nat) (generation : Generation) (next : Option Nat),
      changed.cells[index]? = some ⟨generation, .free next⟩ ↔
        pool.cells[index]? = some ⟨generation, .free next⟩)
    (hhead : changed.freeHead = pool.freeHead)
    (hfreeCells : changed.freeCells = pool.freeCells)
    (hallocated : changed.allocatedCells = pool.allocatedCells)
    (htotal : changed.totalCells = pool.totalCells) :
    changed.Coherent free := by
  refine Coherent.of_counted ?_ ?_ ?_ ?_
  · rw [hhead]
    refine hpool.threaded.frame fun index hindex => ?_
    obtain ⟨generation, next, hcell⟩ := hpool.threaded.freeAt hindex
    rw [hcell]
    exact (hfree index generation next).mpr hcell
  · intro index
    rw [hpool.mem_free]
    exact exists_congr fun generation => exists_congr fun next =>
      (hfree index generation next).symm
  · rw [hfreeCells, hpool.freeCells_eq]
  · rw [hfreeCells, hallocated, htotal, hpool.counted]

/-- In particular, a change of one cell that keeps a free cell as it is and
a live cell live. -/
theorem Coherent.of_modify {changed : Pool}
    (hpool : pool.Coherent free) {change : Cell → Cell}
    (hkeep : ∀ generation next,
      change ⟨generation, .free next⟩ = ⟨generation, .free next⟩)
    (hlive : ∀ cell, cell.isLive = true → (change cell).isLive = true)
    (hcells : changed.cells = pool.cells.modify index change)
    (hhead : changed.freeHead = pool.freeHead)
    (hfreeCells : changed.freeCells = pool.freeCells)
    (hallocated : changed.allocatedCells = pool.allocatedCells)
    (htotal : changed.totalCells = pool.totalCells) :
    changed.Coherent free := by
  refine hpool.of_same_free ?_ hhead hfreeCells hallocated htotal
  intro other generation next
  rw [hcells, Array.getElem?_modify]
  split
  · next hother =>
      subst hother
      cases pool.cells[index]? with
      | none => simp
      | some cell =>
          obtain ⟨current, state⟩ := cell
          cases state with
          | free link => simp [hkeep]
          | live object marked =>
              have hchanged := hlive ⟨current, .live object marked⟩ rfl
              simp only [Option.map_some, Option.some.injEq]
              refine ⟨fun heq => ?_, fun heq => by simp at heq⟩
              rw [heq] at hchanged
              cases hchanged
  · rfl

/-- Marking a cell leaves the free list as it was. -/
theorem Coherent.mark
    (hpool : pool.Coherent free) (index : Nat) :
    (pool.mark index).Coherent free := by
  refine hpool.of_modify (fun _ _ => rfl) ?_ rfl rfl rfl rfl rfl
  intro cell hlive
  obtain ⟨generation, state⟩ := cell
  cases state with
  | free next => cases hlive
  | live object marked => rfl

/-- Changing an object leaves the free list as it was. -/
theorem Coherent.update
    (hpool : pool.Coherent free) (index : Nat) (generation : Generation)
    (change : HeapObject → HeapObject) :
    (pool.update index generation change).Coherent free := by
  refine hpool.of_modify (fun _ _ => rfl) ?_ rfl rfl rfl rfl rfl
  intro cell hlive
  obtain ⟨current, state⟩ := cell
  cases state with
  | free next => cases hlive
  | live object marked =>
      simp only [Cell.update]
      split <;> rfl

/-! ## Growth -/

/-- A cell of a superblock that begins at `base`. -/
theorem getElem?_freshCells (base count : Nat) (next : Option Nat)
    {offset : Nat} (hlt : offset < count) :
    (freshCells base count next)[offset]? = some ⟨0, .free
      (if offset + 1 < count then some (base + offset + 1) else next)⟩ := by
  simp [freshCells, hlt]

theorem cells_grow (pool : Pool) :
    pool.grow.cells = pool.cells ++
      freshCells pool.cells.size pool.cellsPerSuperblock pool.freeHead := by
  simp only [grow, totalCells, pool.size_cells]

/-- The new superblock is threaded in ascending order and ends in the old
list.  The induction is on the number of its cells from `offset` on. -/
theorem threaded_freshCells {count : Nat}
    (hold : Threaded (cells ++ freshCells cells.size count head) head free) :
    ∀ remaining offset, offset + remaining = count →
      Threaded (cells ++ freshCells cells.size count head)
        (if offset < count then some (cells.size + offset) else head)
        (List.range' (cells.size + offset) remaining ++ free) := by
  intro remaining
  induction remaining with
  | zero =>
      intro offset hoffset
      rw [if_neg (by omega)]
      exact hold
  | succ remaining ih =>
      intro offset hoffset
      rw [if_pos (by omega), List.range'_succ, List.cons_append]
      refine ⟨rfl, 0, _, ?_, ih (offset + 1) (by omega)⟩
      rw [Array.getElem?_append_right (by omega), Nat.add_sub_cancel_left]
      exact getElem?_freshCells _ _ _ (by omega)

/-- **Growth.**  The indices of the new superblock come first, in ascending
order. -/
theorem Coherent.grow
    (hpool : pool.Coherent free) (hpos : 0 < pool.cellsPerSuperblock) :
    pool.grow.Coherent
      (List.range' pool.totalCells pool.cellsPerSuperblock ++ free) := by
  have hbase : pool.totalCells = pool.cells.size := pool.size_cells.symm
  have hlt : ∀ index ∈ free, index < pool.cells.size := by
    intro index hindex
    obtain ⟨generation, next, hcell⟩ := hpool.threaded.freeAt hindex
    exact (Array.getElem?_eq_some_iff.mp hcell).1
  have hnew : ∀ index, index ∈ List.range' pool.cells.size pool.cellsPerSuperblock ↔
      pool.cells.size ≤ index ∧ index < pool.cells.size + pool.cellsPerSuperblock := by
    intro index
    simp [List.mem_range'_1]
  rw [hbase]
  refine Coherent.of_counted ?_ ?_ ?_ ?_
  · have hold : Threaded pool.grow.cells pool.freeHead free :=
      hpool.threaded.frame fun index hindex => by
        rw [cells_grow, Array.getElem?_append_left (hlt index hindex)]
    have hhead : pool.grow.freeHead = some pool.cells.size := by
      rw [← hbase]
      rfl
    rw [cells_grow] at hold
    rw [cells_grow, hhead]
    simpa [hpos] using threaded_freshCells hold pool.cellsPerSuperblock 0 (by omega)
  · intro index
    rw [List.mem_append, hnew, hpool.mem_free]
    unfold FreeAt
    rw [cells_grow]
    by_cases hold : index < pool.cells.size
    · rw [Array.getElem?_append_left hold]
      exact ⟨fun h => h.resolve_left (by omega), Or.inr⟩
    · rw [Array.getElem?_append_right (by omega)]
      constructor
      · intro hmem
        rcases hmem with hfresh | ⟨generation, next, hcell⟩
        · exact ⟨0, _, getElem?_freshCells _ _ _ (by omega)⟩
        · exact absurd (Array.getElem?_eq_some_iff.mp hcell).1 hold
      · intro hfree
        obtain ⟨generation, next, hcell⟩ := hfree
        have hfresh := (Array.getElem?_eq_some_iff.mp hcell).1
        simp only [freshCells, Array.size_ofFn] at hfresh
        exact Or.inl (by omega)
  · simp [Pool.grow, hpool.freeCells_eq, Nat.add_comm]
  · have hcounted := hpool.counted
    simp only [Pool.grow, totalCells, Nat.mul_succ] at hcounted ⊢
    omega

/-! ## Allocation -/

/-- A free list that has a head begins with it. -/
theorem Coherent.exists_head
    (hpool : pool.Coherent free) (hhead : pool.freeHead = some index) :
    ∃ rest generation next, free = index :: rest ∧
      pool.cells[index]? = some ⟨generation, .free next⟩ ∧
      Threaded pool.cells next rest := by
  have hthreaded := hpool.threaded
  cases free with
  | nil =>
      rw [hhead] at hthreaded
      cases hthreaded
  | cons first rest =>
      obtain ⟨hfirst, generation, next, hcell, hrest⟩ := hthreaded
      obtain rfl : index = first := Option.some.inj (hhead.symm.trans hfirst)
      exact ⟨rest, generation, next, rfl, hcell, hrest⟩

/-- The head of a pool is the head of its free list. -/
theorem Coherent.freeHead_eq
    (hpool : pool.Coherent free) : pool.freeHead = free.head? := by
  have hthreaded := hpool.threaded
  cases free with
  | nil => exact hthreaded
  | cons index rest => exact hthreaded.1

/-- **Allocation.**  The list loses its head. -/
theorem Coherent.take {rest : List Nat}
    (hpool : pool.Coherent (index :: rest)) (object : HeapObject) :
    (pool.take object).Coherent rest := by
  obtain ⟨hhead, generation, next, hcell, hrest⟩ := hpool.threaded
  obtain ⟨hnotin, -⟩ := List.nodup_cons.mp hpool.nodup
  have hlt := (Array.getElem?_eq_some_iff.mp hcell).1
  have hlength := hpool.freeCells_eq
  have hcounted := hpool.counted
  rw [List.length_cons] at hlength
  simp only [Pool.take, hhead, hcell]
  refine Coherent.of_counted ?_ ?_ ?_ ?_
  · refine hrest.frame fun other hother => ?_
    rw [Array.getElem?_setIfInBounds_ne]
    intro heq
    subst heq
    exact hnotin hother
  · intro other
    by_cases hother : index = other
    · subst hother
      refine ⟨fun hmem => absurd hmem hnotin, ?_⟩
      intro hat
      obtain ⟨current, link, hfree⟩ := hat
      simp [hlt] at hfree
    · have hmem := hpool.mem_free other
      rw [List.mem_cons, or_iff_right (Ne.symm hother)] at hmem
      simpa [FreeAt, Array.getElem?_setIfInBounds_ne hother] using hmem
  · show pool.freeCells - 1 = rest.length
    omega
  · show pool.allocatedCells + 1 + (pool.freeCells - 1) = pool.totalCells
    omega

/-! ## Sweeping -/

/-- What a sweep makes of a cell. -/
inductive Swept : Cell → Cell → Prop
  | free (generation : Generation) (next : Option Nat) :
      Swept ⟨generation, .free next⟩ ⟨generation, .free next⟩
  | kept (generation : Generation) (object : HeapObject) :
      Swept ⟨generation, .live object true⟩ ⟨generation, .live object false⟩
  | reclaimed (generation : Generation) (object : HeapObject)
      (next : Option Nat) :
      Swept ⟨generation, .live object false⟩ ⟨generation.next, .free next⟩

/-- The indices below `bound` of the live cells without a mark. -/
def garbage (pool : Pool) (bound : Nat) : List Nat :=
  (List.range bound).filter fun index =>
    pool.cells[index]?.any fun cell => cell.isLive && !cell.isMarked

/-- The parts of a pool that only growth and release change. -/
def shape (pool : Pool) : Nat × Nat × Nat × Nat :=
  (pool.sizeClass, pool.cellSize, pool.cellsPerSuperblock, pool.superblocks)

/-- A sweep of the pool has worked through the cells below `bound`. -/
structure SweptTo (pool : Pool) (free : List Nat) (bound : Nat)
    (swept : Pool × Nat) : Prop where
  shape_eq : swept.1.shape = pool.shape
  freeCells_eq : swept.1.freeCells = pool.freeCells
  allocatedCells_eq : swept.1.allocatedCells = pool.allocatedCells
  size_eq : swept.1.cells.size = pool.cells.size
  cells_swept : ∀ index cell after, index < bound →
    pool.cells[index]? = some cell → swept.1.cells[index]? = some after →
      Swept cell after
  cells_left : ∀ index, bound ≤ index →
    swept.1.cells[index]? = pool.cells[index]?
  threaded : Threaded swept.1.cells swept.1.freeHead
    ((pool.garbage bound).reverse ++ free)
  reclaimed_eq : swept.2 = (pool.garbage bound).length

/-- The garbage below `bound + 1`: the cell at `bound` may be added. -/
theorem garbage_succ (pool : Pool) (bound : Nat) :
    pool.garbage (bound + 1) = pool.garbage bound ++
      [bound].filter fun index =>
        pool.cells[index]?.any fun cell => cell.isLive && !cell.isMarked := by
  rw [garbage, List.range_succ, List.filter_append]
  rfl

/-- Writing to a live cell leaves the list as it was. -/
theorem Threaded.set_live {generation : Generation}
    {object : HeapObject} {marked : Bool}
    (hthreaded : Threaded cells head free)
    (hcell : cells[index]? = some ⟨generation, .live object marked⟩)
    (cell : Cell) :
    Threaded (cells.setIfInBounds index cell) head free := by
  refine hthreaded.frame fun other hother => ?_
  rw [Array.getElem?_setIfInBounds_ne]
  intro heq
  subst heq
  obtain ⟨current, next, hfree⟩ := hthreaded.freeAt hother
  rw [hcell] at hfree
  cases hfree

/-- The cells after one step of a sweep, if the cell at `bound` is swept and
the others are as they were. -/
theorem SweptTo.cells_step {bound : Nat}
    {swept : Pool × Nat} (hswept : pool.SweptTo free bound swept)
    {after : Cell} (hcell : pool.cells[bound]? = some cell)
    (hafter : Swept cell after)
    (hat : cells[bound]? = some after)
    (hother : ∀ index, bound ≠ index →
      cells[index]? = swept.1.cells[index]?) :
    (∀ index old new, index < bound + 1 → pool.cells[index]? = some old →
      cells[index]? = some new → Swept old new) ∧
    ∀ index, bound + 1 ≤ index → cells[index]? = pool.cells[index]? := by
  constructor
  · intro index old new hindex hold hnew
    by_cases heq : bound = index
    · subst heq
      cases hcell.symm.trans hold
      cases hat.symm.trans hnew
      exact hafter
    · rw [hother index heq] at hnew
      exact hswept.cells_swept index old new (by omega) hold hnew
  · intro index hindex
    rw [hother index (by omega)]
    exact hswept.cells_left index (by omega)

/-- **One step of a sweep.** -/
theorem SweptTo.step {bound : Nat}
    {swept : Pool × Nat} (hswept : pool.SweptTo free bound swept)
    (hlt : bound < pool.cells.size) :
    pool.SweptTo free (bound + 1) (sweepCell swept bound) := by
  obtain ⟨⟨generation, state⟩, hcell⟩ :
      ∃ cell, pool.cells[bound]? = some cell :=
    ⟨_, Array.getElem?_eq_getElem hlt⟩
  have hsame := (hswept.cells_left bound (Nat.le_refl _)).trans hcell
  have hset : ∀ cell, (swept.1.cells.setIfInBounds bound cell)[bound]? = some cell :=
    fun cell => Array.getElem?_setIfInBounds_self_of_lt
      (Array.getElem?_eq_some_iff.mp hsame).1
  obtain ⟨current, reclaimed⟩ := swept
  cases state with
  | free next =>
      -- A free cell stays on the list where it is.
      obtain ⟨hbelow, habove⟩ := hswept.cells_step hcell (.free _ _) hsame
        fun _ _ => rfl
      have hgarbage : pool.garbage (bound + 1) = pool.garbage bound := by
        simp [garbage_succ, hcell, Cell.isLive, Cell.object?]
      simp only [sweepCell, hsame]
      exact ⟨hswept.shape_eq, hswept.freeCells_eq, hswept.allocatedCells_eq,
        hswept.size_eq, hbelow, habove, hgarbage ▸ hswept.threaded,
        hgarbage ▸ hswept.reclaimed_eq⟩
  | live object marked =>
      cases marked with
      | true =>
          obtain ⟨hbelow, habove⟩ := hswept.cells_step hcell (.kept _ _)
            (hset _) fun _ hne => Array.getElem?_setIfInBounds_ne hne
          have hgarbage : pool.garbage (bound + 1) = pool.garbage bound := by
            simp [garbage_succ, hcell, Cell.isMarked]
          simp only [sweepCell, hsame]
          refine ⟨hswept.shape_eq, hswept.freeCells_eq,
            hswept.allocatedCells_eq, ?_, hbelow, habove, ?_, ?_⟩
          · exact Array.size_setIfInBounds.trans hswept.size_eq
          · rw [hgarbage]
            exact hswept.threaded.set_live hsame _
          · rw [hgarbage]
            exact hswept.reclaimed_eq
      | false =>
          -- The cell is put in front of the list, whose other cells it is not.
          obtain ⟨hbelow, habove⟩ := hswept.cells_step hcell
            (.reclaimed _ _ current.freeHead) (hset _)
            fun _ hne => Array.getElem?_setIfInBounds_ne hne
          have hgarbage : pool.garbage (bound + 1) =
              pool.garbage bound ++ [bound] := by
            simp [garbage_succ, hcell, Cell.isLive, Cell.object?, Cell.isMarked]
          simp only [sweepCell, hsame]
          refine ⟨hswept.shape_eq, hswept.freeCells_eq,
            hswept.allocatedCells_eq, ?_, hbelow, habove, ?_, ?_⟩
          · exact Array.size_setIfInBounds.trans hswept.size_eq
          · rw [hgarbage, List.reverse_append, List.reverse_singleton,
              List.append_assoc]
            exact ⟨rfl, _, _, hset _, hswept.threaded.set_live hsame _⟩
          · rw [hgarbage, List.length_append]
            exact congrArg (· + 1) hswept.reclaimed_eq

/-- **A whole sweep**, by induction on the number of cells worked through. -/
theorem sweptTo_foldl
    (hthreaded : Threaded pool.cells pool.freeHead free) :
    ∀ bound, bound ≤ pool.cells.size →
      pool.SweptTo free bound ((List.range bound).foldl sweepCell (pool, 0)) := by
  intro bound
  induction bound with
  | zero =>
      intro _
      exact ⟨rfl, rfl, rfl, rfl, fun _ _ _ hlt => absurd hlt (Nat.not_lt_zero _),
        fun _ _ => rfl, hthreaded, rfl⟩
  | succ bound ih =>
      intro hbound
      rw [List.range_succ, List.foldl_append]
      exact (ih (by omega)).step (by omega)

/-- The garbage of a pool: the live cells that no tracer has marked. -/
theorem mem_garbage :
    index ∈ pool.garbage pool.cells.size ↔ ∃ generation object,
      pool.cells[index]? = some ⟨generation, .live object false⟩ := by
  rw [garbage, List.mem_filter, List.mem_range]
  constructor
  · intro hmem
    obtain ⟨hlt, hgarbage⟩ := hmem
    obtain ⟨⟨generation, state⟩, hcell, hgarbage⟩ :=
      (Option.any_eq_true _ _).mp hgarbage
    rw [hcell]
    cases state with
    | free next => cases hgarbage
    | live object marked =>
        cases marked with
        | true => cases hgarbage
        | false => exact ⟨generation, object, rfl⟩
  · intro hlive
    obtain ⟨generation, object, hcell⟩ := hlive
    refine ⟨(Array.getElem?_eq_some_iff.mp hcell).1, ?_⟩
    rw [hcell]
    rfl

theorem nodup_garbage (pool : Pool) (bound : Nat) :
    (pool.garbage bound).Nodup :=
  List.nodup_range.sublist List.filter_sublist

/-- A pool has no more garbage than live cells. -/
theorem length_garbage_le (pool : Pool) :
    (pool.garbage pool.cells.size).length ≤ pool.liveCells := by
  rw [liveCells, countP_eq_length_filter_range, garbage,
    ← List.countP_eq_length_filter, ← List.countP_eq_length_filter]
  refine List.countP_mono_left fun index _ hgarbage => ?_
  obtain ⟨cell, hcell, hlive⟩ := (Option.any_eq_true _ _).mp hgarbage
  refine (Option.any_eq_true _ _).mpr ⟨cell, hcell, ?_⟩
  exact (Bool.and_eq_true_iff.mp hlive).1

/-- A sweep keeps the shape of a pool and the number of its cells. -/
theorem shape_sweep
    (hpool : pool.Coherent free) :
    pool.sweep.1.shape = pool.shape ∧
      pool.sweep.1.cells.size = pool.cells.size := by
  have hswept := sweptTo_foldl hpool.threaded _ (Nat.le_refl _)
  exact ⟨hswept.shape_eq, hswept.size_eq⟩

/-- The number that a sweep returns. -/
theorem sweep_snd
    (hpool : pool.Coherent free) :
    pool.sweep.2 = (pool.garbage pool.cells.size).length :=
  (sweptTo_foldl hpool.threaded _ (Nat.le_refl _)).reclaimed_eq

/-- What a sweep makes of each cell. -/
theorem swept_sweep
    (hpool : pool.Coherent free)
    (hcell : pool.cells[index]? = some cell) :
    ∃ after, pool.sweep.1.cells[index]? = some after ∧ Swept cell after := by
  have hswept := sweptTo_foldl hpool.threaded _ (Nat.le_refl _)
  have hlt := (Array.getElem?_eq_some_iff.mp hcell).1
  have hafter := Array.getElem?_eq_getElem (hswept.size_eq.symm ▸ hlt)
  exact ⟨_, hafter, hswept.cells_swept index cell _ hlt hcell hafter⟩

/-- A sweep adds no cell. -/
theorem sweep_getElem?_eq_none
    (hpool : pool.Coherent free)
    (hnone : pool.cells[index]? = none) :
    pool.sweep.1.cells[index]? = none := by
  rw [Array.getElem?_eq_none_iff] at hnone ⊢
  rw [(shape_sweep hpool).2]
  exact hnone

/-- A sweep clears every mark. -/
theorem Coherent.unmarked_sweep
    (hpool : pool.Coherent free) : pool.sweep.1.Unmarked := by
  intro index after hafter
  cases hcell : pool.cells[index]? with
  | none =>
      rw [sweep_getElem?_eq_none hpool hcell] at hafter
      cases hafter
  | some cell =>
      obtain ⟨swept, hswept, hrel⟩ := swept_sweep hpool hcell
      cases hafter.symm.trans hswept
      cases hrel <;> rfl

/-- What is reclaimed was allocated: the counter does not drop below zero. -/
theorem allocatedCells_sweep
    (hpool : pool.Coherent free) :
    pool.sweep.1.allocatedCells + pool.sweep.2 = pool.allocatedCells := by
  have hswept := sweptTo_foldl hpool.threaded _ (Nat.le_refl _)
  have hallocated : pool.sweep.1.allocatedCells =
      pool.allocatedCells - pool.sweep.2 :=
    congrArg (· - _) hswept.allocatedCells_eq
  have hcount := sweep_snd hpool
  have hle := length_garbage_le pool
  have hlive := hpool.allocatedCells_eq
  omega

/-- **Sweeping.**  The reclaimed indices come first, in descending order. -/
theorem Coherent.sweep
    (hpool : pool.Coherent free) :
    pool.sweep.1.Coherent ((pool.garbage pool.cells.size).reverse ++ free) := by
  have hswept := sweptTo_foldl hpool.threaded _ (Nat.le_refl _)
  have hcount := sweep_snd hpool
  have hallocated := allocatedCells_sweep hpool
  have hcounted := hpool.counted
  refine Coherent.of_counted hswept.threaded ?_ ?_ ?_
  · intro index
    rw [List.mem_append, List.mem_reverse, mem_garbage, hpool.mem_free]
    cases hcell : pool.cells[index]? with
    | none =>
        have hnone := sweep_getElem?_eq_none hpool hcell
        simp [FreeAt, hcell, hnone]
    | some cell =>
        obtain ⟨after, hafter, hrel⟩ := swept_sweep hpool hcell
        cases hrel <;> simp [FreeAt, hcell, hafter]
  · show _ + pool.sweep.2 = _
    rw [hswept.freeCells_eq, hpool.freeCells_eq, hcount, List.length_append,
      List.length_reverse, Nat.add_comm]
  · have htotal : pool.sweep.1.totalCells = pool.totalCells := by
      rw [totalCells, totalCells, ← size_cells, ← size_cells,
        (shape_sweep hpool).2]
    have hfree : pool.sweep.1.freeCells = pool.freeCells + pool.sweep.2 :=
      congrArg (· + _) hswept.freeCells_eq
    omega

/-! ## Checking -/

/-- A coherent pool passes its check. -/
theorem Coherent.verify
    (hpool : pool.Coherent free) : pool.verify = .ok () := by
  have hchain : pool.chainHas pool.freeCells pool.freeHead = true :=
    (chainHas_iff pool _ _).mpr
      ⟨free, hpool.freeCells_eq.symm, hpool.threaded⟩
  rw [Pool.verify, if_pos ⟨hpool.counted, hpool.allocatedCells_eq.symm, hchain⟩]

/-- A pool that passes its check is coherent: the list has as many cells as
are free, so it misses none. -/
theorem exists_coherent_of_verify (hverify : pool.verify = .ok ()) :
    ∃ free, pool.Coherent free := by
  unfold Pool.verify at hverify
  split at hverify
  · next hchecks =>
      obtain ⟨hcounted, hlive, hchain⟩ := hchecks
      obtain ⟨free, hlength, hthreaded⟩ := (chainHas_iff pool _ _).mp hchain
      refine ⟨free, hthreaded, hthreaded.nodup, fun index =>
        ⟨hthreaded.freeAt, fun hfree => ?_⟩, hlength.symm, hlive.symm, hcounted⟩
      refine Decidable.byContradiction fun hmissed => ?_
      have hsub : index :: free ⊆ pool.freeIndices := by
        intro other hother
        rcases List.mem_cons.mp hother with rfl | hother
        · exact mem_freeIndices.mpr hfree
        · exact mem_freeIndices.mpr (hthreaded.freeAt hother)
      have hle := List.Nodup.length_le_of_subset
        (List.nodup_cons.mpr ⟨hmissed, hthreaded.nodup⟩) hsub
      have hall := pool.liveCells_add_freeIndices
      rw [List.length_cons] at hle
      omega
  · cases hverify

end Pool

end LazyDispatch
