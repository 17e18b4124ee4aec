import LazyDispatch.Heap.Pool
import LazyDispatch.Heap.Settings

/-!
# The heap

A heap has one pool for each size class.  References are checked: a reference
whose cell was reclaimed since resolves to nothing.

A collection has two phases.  The tracer works through a stack of pending
references: it takes the top one, and if that resolves to a cell without a mark,
it marks the cell and pushes the references that the object holds.  A stale
reference should never reach it; if one does, the heap notes it and goes on.
Then every pool is swept.  Each visit uses up one pending reference and pushes
only references of a cell that had no mark, so a heap with cycles is traced in
finitely many visits.
-/

namespace LazyDispatch

/-- What collections have done so far. -/
structure CollectionStats where
  collections : Nat := 0
  lastReclaimed : Nat := 0
  totalReclaimed : Nat := 0
  /-- Whether a reference without a cell of its generation ever reached the
  tracer.  No one who keeps references should let that happen. -/
  staleTraced : Bool := false

/-- The pools of all size classes, by size class. -/
structure Heap where
  settings : HeapSettings
  pools : Array Pool
  stats : CollectionStats

instance : Inhabited Heap := ⟨{}, #[], {}⟩

namespace Heap

/-- A heap without superblocks. -/
def create (settings : HeapSettings) : Except SettingsError Heap := do
  settings.validate
  return {
    settings
    pools := settings.cellSizes.toArray.mapIdx fun sizeClass cellSize =>
      .empty sizeClass cellSize settings.superblockSize
    stats := {} }

/-- The cell at an address. -/
def cellAt? (heap : Heap) (address : Address) : Option Cell :=
  match heap.pools[address.sizeClass]? with
  | none => none
  | some pool => pool.cells[address.index]?

/-- The cell of a reference, unless it was reclaimed since the reference was
made. -/
def cell? (heap : Heap) (ref : Ref) : Option Cell :=
  (heap.cellAt? ref.address).filter (·.generation = ref.generation)

/-- The object that a reference resolves to. -/
def get? (heap : Heap) (ref : Ref) : Option HeapObject :=
  (heap.cell? ref).bind Cell.object?

/-- Whether a reference resolves. -/
def isLive (heap : Heap) (ref : Ref) : Bool :=
  (heap.get? ref).isSome

/-- Changes the pool of a size class. -/
def modifyPool (heap : Heap) (sizeClass : Nat) (change : Pool → Pool) : Heap :=
  { heap with pools := heap.pools.modify sizeClass change }

/-- Changes the object that a reference resolves to; a stale reference changes
nothing. -/
def update (heap : Heap) (ref : Ref) (change : HeapObject → HeapObject) :
    Heap :=
  heap.modifyPool ref.address.sizeClass (·.update ref.address.index ref.generation change)

/-- The number of cells in use. -/
def allocatedCells (heap : Heap) : Nat :=
  total Pool.allocatedCells heap.pools

/-- The number of free cells. -/
def freeCells (heap : Heap) : Nat :=
  total Pool.freeCells heap.pools

/-- The number of cells. -/
def totalCells (heap : Heap) : Nat :=
  total Pool.totalCells heap.pools

/-- Checks every pool; the first inconsistency is reported. -/
def verify (heap : Heap) : Except Inconsistency Unit :=
  heap.pools.toList.forM Pool.verify

/-- Gives all superblocks back. -/
def releaseAll (heap : Heap) : Heap :=
  { heap with pools := heap.pools.map Pool.release }

/-! ## Collection -/

/-- Marks the cell of a reference. -/
def mark (heap : Heap) (ref : Ref) : Heap :=
  heap.modifyPool ref.address.sizeClass (·.mark ref.address.index)

/-- Notes that a stale reference reached the tracer. -/
def noteStale (heap : Heap) : Heap :=
  { heap with stats := { heap.stats with staleTraced := true } }

/-- Visits a reference: if it resolves to a cell without a mark, marks the cell
and finds the references that its object holds.  A reference whose cell was
reclaimed, or never was, is passed over and noted. -/
def visit (heap : Heap) (ref : Ref) : List Ref × Heap :=
  match heap.cell? ref with
  | some ⟨_, .live object false⟩ => (object.edges, heap.mark ref)
  | some _ => ([], heap)
  | none => ([], heap.noteStale)

/-- The number of references that a tracer may still find. -/
def untraced (heap : Heap) : Nat :=
  total Pool.untraced heap.pools

/-- The pool that holds the cell at an address. -/
theorem exists_pool_of_cellAt? {heap : Heap} {address : Address} {cell : Cell}
    (hcell : heap.cellAt? address = some cell) :
    ∃ pool, heap.pools[address.sizeClass]? = some pool ∧
      pool.cells[address.index]? = some cell := by
  unfold cellAt? at hcell
  split at hcell
  · cases hcell
  · next pool hpool => exact ⟨pool, hpool, hcell⟩

/-- A visit finds as many references as it takes out of those that may still be
found. -/
theorem untraced_visit (heap : Heap) (ref : Ref) :
    (heap.visit ref).2.untraced + (heap.visit ref).1.length = heap.untraced := by
  unfold visit
  split
  · next generation object hcell =>
      obtain ⟨hat, -⟩ := Option.filter_eq_some_iff.mp hcell
      obtain ⟨pool, hpool, hcell⟩ := exists_pool_of_cellAt? hat
      have hsum := total_modify Pool.untraced hpool (·.mark ref.address.index)
      have hmark := Pool.untraced_mark hcell
      simp only [untraced, mark, modifyPool]
      omega
  · simp
  · simp [untraced, noteStale]

/-- Visits pending references, the first one first, until none is left. -/
def trace (heap : Heap) (pending : List Ref) : Heap :=
  match pending with
  | [] => heap
  | ref :: pending =>
    match hvisit : heap.visit ref with
    | (found, visited) =>
      have huntraced : visited.untraced + found.length = heap.untraced := by
        simpa [hvisit] using heap.untraced_visit ref
      visited.trace (found.reverse ++ pending)
termination_by heap.untraced + pending.length
decreasing_by
  simp only [List.length_append, List.length_reverse, List.length_cons]
  omega

/-- Sweeps every pool, and counts the cells reclaimed. -/
def sweep (heap : Heap) : Nat × Heap :=
  let swept := heap.pools.map Pool.sweep
  let reclaimed := total (·.2) swept
  (reclaimed, {
    settings := heap.settings
    pools := swept.map (·.1)
    stats := { heap.stats with
      collections := heap.stats.collections + 1
      lastReclaimed := reclaimed
      totalReclaimed := heap.stats.totalReclaimed + reclaimed } })

/-- Reclaims every live cell that the roots do not reach, and counts these
cells.  The roots are pushed in order, so the last one is visited first. -/
def collect (heap : Heap) (roots : List Ref) : Nat × Heap :=
  (heap.trace roots.reverse).sweep

/-! ## Allocation -/

/-- The size class for an object of the given size: the first whose cells hold
it, or else the last. -/
def sizeClassFor (heap : Heap) (bytes : Nat) : Nat :=
  (heap.pools.findIdx? (bytes ≤ ·.cellSize)).getD (heap.pools.size - 1)

/-- Whether a pool has no free cell. -/
def isExhausted (heap : Heap) (sizeClass : Nat) : Bool :=
  heap.pools[sizeClass]?.all (·.freeHead.isNone)

/-- What became of an operation on a heap: a result or a fault, and the heap
after it. -/
abbrev Outcome (α : Type) := EStateM.Result Fault Heap α

/-- Makes sure that a size class has a free cell: the heap is collected if the
pool is exhausted or every allocation collects, and grows if the pool is still
exhausted then.  The object to be allocated counts as a root. -/
def makeRoom (heap : Heap) (sizeClass : Nat) (object : HeapObject)
    (roots : List Ref) :
    Outcome Unit :=
  if heap.settings.torture || heap.isExhausted sizeClass then
    let heap := (heap.collect (roots ++ object.edges)).2
    if heap.isExhausted sizeClass then
      match heap.pools[sizeClass]?.bind (·.growFault? heap.settings.maxSuperblocks) with
      | some fault => .error fault heap
      | none => .ok () (heap.modifyPool sizeClass Pool.grow)
    else .ok () heap
  else .ok () heap

/-- Puts an object into the first free cell of a size class. -/
def place (heap : Heap) (sizeClass : Nat) (object : HeapObject) : Outcome Ref :=
  match heap.pools[sizeClass]?.map Pool.nextRef with
  | none => .error (.unknownSizeClass sizeClass) heap
  | some (.error fault) => .error fault heap
  | some (.ok ref) => .ok ref (heap.modifyPool sizeClass (Pool.take object))

/-- Allocates a cell of the given size class. -/
def allocateIn (heap : Heap) (sizeClass : Nat) (object : HeapObject)
    (roots : List Ref) :
    Outcome Ref :=
  if sizeClass < heap.pools.size then
    match heap.makeRoom sizeClass object roots with
    | .ok () heap => heap.place sizeClass object
    | .error fault heap => .error fault heap
  else .error (.unknownSizeClass sizeClass) heap

/-- Allocates a cell of the size class that fits the object. -/
def allocate (heap : Heap) (object : HeapObject) (roots : List Ref) :
    Outcome Ref :=
  heap.allocateIn (heap.sizeClassFor object.size) object roots

end Heap

end LazyDispatch
