import LazyDispatch.Fault
import LazyDispatch.Object

/-!
# Pools

A pool holds the cells of one size class.  It grows by whole superblocks.  Its
free cells are threaded into a list: each of them names the next one, and the
pool names the first.  Allocation takes the first free cell.  A sweep walks over
all cells: it clears the marks of the cells that a collection has reached, and
puts every other live cell in front of the free list.
-/

namespace LazyDispatch

/-- The sum of an amount over all items. -/
def total {α : Type} (amount : α → Nat) (items : Array α) : Nat :=
  items.foldr (fun item sum => amount item + sum) 0

/-- A change of one item changes the sum by as much as it changes the amount of
the item. -/
theorem total_modify {α : Type} (amount : α → Nat) {items : Array α}
    {index : Nat} {item : α} (hitem : items[index]? = some item)
    (change : α → α) :
    total amount (items.modify index change) + amount item =
      total amount items + amount (change item) := by
  obtain ⟨items⟩ := items
  simp only [total, ← Array.foldr_toList, Array.toList_modify, List.getElem?_toArray] at hitem ⊢
  induction items generalizing index with
  | nil => simp at hitem
  | cons first rest ih =>
      cases index with
      | zero =>
          obtain rfl : first = item := by simpa using hitem
          simp only [List.modify_zero_cons, List.foldr_cons]
          omega
      | succ index =>
          have hrest : rest[index]? = some item := by simpa using hitem
          have hsum := ih hrest
          simp only [List.modify_succ_cons, List.foldr_cons]
          omega

/-- A cell is free and names the next free cell, or it holds an object, which a
collection may have marked. -/
inductive CellState where
  | free (next : Option Nat)
  | live (object : HeapObject) (marked : Bool)

/-- A cell and the number of times that it was reclaimed. -/
structure Cell where
  generation : Generation
  state : CellState

/-- The object of a live cell. -/
def Cell.object? (cell : Cell) : Option HeapObject :=
  match cell.state with
  | .live object _ => some object
  | .free _ => none

/-- Whether a cell holds an object. -/
def Cell.isLive (cell : Cell) : Bool :=
  cell.object?.isSome

/-- Whether a cell holds an object that is marked. -/
def Cell.isMarked (cell : Cell) : Bool :=
  match cell.state with
  | .live _ marked => marked
  | .free _ => false

/-- Marks the object of a live cell. -/
def Cell.mark (cell : Cell) : Cell :=
  match cell with
  | ⟨generation, .live object _⟩ => ⟨generation, .live object true⟩
  | ⟨generation, .free next⟩ => ⟨generation, .free next⟩

/-- The number of references that a tracer will find when it visits a cell. -/
def Cell.untraced (cell : Cell) : Nat :=
  match cell.state with
  | .live object false => object.edges.length
  | _ => 0

/-- Replaces the object of a live cell of the given generation. -/
def Cell.update (generation : Generation) (change : HeapObject → HeapObject)
    (cell : Cell) : Cell :=
  match cell with
  | ⟨current, .live object marked⟩ =>
    if current = generation then ⟨current, .live (change object) marked⟩
    else ⟨current, .live object marked⟩
  | ⟨current, .free next⟩ => ⟨current, .free next⟩

/-- The cells of one size class. -/
structure Pool where
  sizeClass : Nat
  cellSize : Nat
  cellsPerSuperblock : Nat
  superblocks : Nat
  /-- The cells of all superblocks, one superblock after the other. -/
  cells : Array Cell
  /-- The first free cell. -/
  freeHead : Option Nat
  freeCells : Nat
  allocatedCells : Nat
  size_cells : cells.size = cellsPerSuperblock * superblocks

/-- The counters of a pool that do not agree with its cells. -/
structure Inconsistency where
  sizeClass : Nat
  allocated : Nat
  free : Nat
  total : Nat

/-- The text of an inconsistency. -/
def Inconsistency.message (found : Inconsistency) : String :=
  "pool " ++ toString found.sizeClass ++ ": " ++ toString found.allocated ++ " allocated + " ++
    toString found.free ++ " free != " ++ toString found.total ++ " cells"

namespace Pool

/-- A pool without superblocks. -/
def empty (sizeClass cellSize superblockSize : Nat) : Pool where
  sizeClass := sizeClass
  cellSize := cellSize
  cellsPerSuperblock := superblockSize / cellSize
  superblocks := 0
  cells := #[]
  freeHead := none
  freeCells := 0
  allocatedCells := 0
  size_cells := rfl

/-- The number of cells. -/
def totalCells (pool : Pool) : Nat :=
  pool.cellsPerSuperblock * pool.superblocks

/-- Why a pool cannot grow, if it cannot: it holds as many superblocks as it
may, or its cells would no longer fit into a reference. -/
def growFault? (pool : Pool) (maxSuperblocks : Option Nat) : Option Fault :=
  match maxSuperblocks.filter (· ≤ pool.superblocks) with
  | some limit => some (.outOfMemory pool.sizeClass limit)
  | none =>
    if 4294967295 < pool.totalCells + pool.cellsPerSuperblock then
      some (.unaddressableCells pool.sizeClass)
    else none

/-- The free cells of a new superblock that begins at `base`, threaded in
ascending order and ending in `next`. -/
def freshCells (base count : Nat) (next : Option Nat) : Array Cell :=
  Array.ofFn fun offset : Fin count =>
    ⟨0, .free (if offset + 1 < count then some (base + offset + 1) else next)⟩

/-- Adds a superblock and puts its cells in front of the free list. -/
def grow (pool : Pool) : Pool :=
  { pool with
    superblocks := pool.superblocks + 1
    cells := pool.cells ++ freshCells pool.totalCells pool.cellsPerSuperblock pool.freeHead
    freeHead := some pool.totalCells
    freeCells := pool.freeCells + pool.cellsPerSuperblock
    size_cells := by
      rw [Array.size_append, pool.size_cells, freshCells, Array.size_ofFn, Nat.mul_succ] }

/-- The reference that the next allocation will return. -/
def nextRef (pool : Pool) : Except Fault Ref :=
  match pool.freeHead with
  | none => .error .emptyFreeList
  | some index =>
    match pool.cells[index]? with
    | some ⟨generation, .free _⟩ =>
      .ok (.ofParts (.ofNat 8 pool.sizeClass) (.ofNat 32 index) generation)
    | _ => .error (.liveCellInFreeList pool.sizeClass)

/-- Puts an object into the first free cell. -/
def take (object : HeapObject) (pool : Pool) : Pool :=
  match pool.freeHead with
  | none => pool
  | some index =>
    match pool.cells[index]? with
    | some ⟨generation, .free next⟩ =>
      { pool with
        cells := pool.cells.setIfInBounds index ⟨generation, .live object false⟩
        freeHead := next
        freeCells := pool.freeCells - 1
        allocatedCells := pool.allocatedCells + 1
        size_cells := by rw [Array.size_setIfInBounds, pool.size_cells] }
    | _ => pool

/-- Replaces the object of a live cell of the given generation. -/
def update (index : Nat) (generation : Generation)
    (change : HeapObject → HeapObject) (pool : Pool) : Pool :=
  { pool with
    cells := pool.cells.modify index (·.update generation change)
    size_cells := by rw [Array.size_modify, pool.size_cells] }

/-- Marks the object of a live cell. -/
def mark (index : Nat) (pool : Pool) : Pool :=
  { pool with
    cells := pool.cells.modify index Cell.mark
    size_cells := by rw [Array.size_modify, pool.size_cells] }

/-- The number of references that a tracer may still find in a pool. -/
def untraced (pool : Pool) : Nat :=
  total Cell.untraced pool.cells

/-- Marking a cell takes its references out of those that may still be found. -/
theorem untraced_mark {pool : Pool} {index : Nat} {generation : Generation}
    {object : HeapObject}
    (hcell : pool.cells[index]? = some ⟨generation, .live object false⟩) :
    (pool.mark index).untraced + object.edges.length = pool.untraced := by
  simpa [untraced, mark, Cell.untraced, Cell.mark] using
    total_modify Cell.untraced hcell Cell.mark

/-- One step of a sweep, with the number of cells reclaimed so far.  A marked
cell loses its mark.  A live cell without a mark is freed: its generation is
bumped, and it becomes the first free cell. -/
def sweepCell (swept : Pool × Nat) (index : Nat) : Pool × Nat :=
  match swept with
  | (pool, reclaimed) =>
    match pool.cells[index]? with
    | some ⟨generation, .live object true⟩ =>
      ({ pool with
        cells := pool.cells.setIfInBounds index ⟨generation, .live object false⟩
        size_cells := by rw [Array.size_setIfInBounds, pool.size_cells] }, reclaimed)
    | some ⟨generation, .live _ false⟩ =>
      ({ pool with
        cells := pool.cells.setIfInBounds index ⟨generation.next, .free pool.freeHead⟩
        freeHead := some index
        size_cells := by rw [Array.size_setIfInBounds, pool.size_cells] }, reclaimed + 1)
    | _ => (pool, reclaimed)

/-- Sweeps all cells in ascending order, and counts the cells reclaimed. -/
def sweep (pool : Pool) : Pool × Nat :=
  let (swept, reclaimed) := (List.range pool.cells.size).foldl sweepCell (pool, 0)
  ({ swept with
    freeCells := swept.freeCells + reclaimed
    allocatedCells := swept.allocatedCells - reclaimed }, reclaimed)

/-- Whether the free list from `head` on has exactly `count` cells, all of them
free. -/
def chainHas (pool : Pool) : Nat → Option Nat → Bool
  | count, none => count == 0
  | 0, some _ => false
  | count + 1, some index =>
    match pool.cells[index]? with
    | some ⟨_, .free next⟩ => pool.chainHas count next
    | _ => false

/-- The number of live cells. -/
def liveCells (pool : Pool) : Nat :=
  pool.cells.countP Cell.isLive

/-- Checks the counters against the cells and the free list. -/
def verify (pool : Pool) : Except Inconsistency Unit :=
  if pool.allocatedCells + pool.freeCells = pool.totalCells ∧
      pool.liveCells = pool.allocatedCells ∧ pool.chainHas pool.freeCells pool.freeHead then
    .ok ()
  else
    .error ⟨pool.sizeClass, pool.allocatedCells, pool.freeCells, pool.totalCells⟩

/-- Gives all superblocks back. -/
def release (pool : Pool) : Pool :=
  { pool with
    superblocks := 0
    cells := #[]
    freeHead := none
    freeCells := 0
    allocatedCells := 0
    size_cells := rfl }

end Pool

end LazyDispatch
