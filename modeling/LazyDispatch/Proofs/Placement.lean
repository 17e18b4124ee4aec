import LazyDispatch.Proofs.Aliasing

/-!
# Where objects are placed

Which cell an allocation takes is decided by very little: for each size class,
the number of cells and the list of the free indices; and for each cell, how
often it was reclaimed.  A `Placement` holds this and nothing else, no object
and no link.  It follows a run of calls by itself, once it is told which cells
each collection would find to be garbage:

* a collection puts the garbage of each size class in front of its list, in
  descending order;
* growth puts the new indices in front, in ascending order;
* an allocation collects if the list is empty, or always if the settings say so,
  grows if the list is empty still, and takes the head of the list.

The pools follow this model (`Heap.LaidOut`) through every call, so every
reference that a run returns is the one that the model predicts.
-/

namespace LazyDispatch

/-- Size class, index and generation of a reference. -/
def Ref.parts (ref : Ref) : Nat × Nat × Nat :=
  (ref.sizeClass.toNat, ref.index.toNat, ref.generation.toNat)

/-- The number of cells in a superblock of a size class. -/
def HeapSettings.superblockCells (settings : HeapSettings) (sizeClass : Nat) :
    Nat :=
  settings.cellSizes[sizeClass]?.elim 0 (settings.superblockSize / ·)

/-! ## The model -/

/-- What decides where objects are placed. -/
structure Placement where
  /-- The number of cells of a size class. -/
  cells : Nat → Nat
  /-- The free indices of a size class; the first one is taken next. -/
  free : Nat → List Nat
  /-- How often the cell at an address was reclaimed. -/
  reclaimed : Address → Nat

/-- A call as far as placement is concerned.  The function tells which cells a
collection would find to be garbage. -/
inductive Placement.Event where
  | allocate (sizeClass : Nat) (garbage : Address → Bool)
  | collect (garbage : Address → Bool)

namespace Placement

/-- No size class has cells yet. -/
def start : Placement :=
  ⟨fun _ => 0, fun _ => [], fun _ => 0⟩

/-- Reclaims the garbage of every size class. -/
def reclaim (garbage : Address → Bool) (placement : Placement) : Placement :=
  { placement with
    free := fun sizeClass =>
      ((List.range (placement.cells sizeClass)).filter fun index =>
        garbage ⟨sizeClass, index⟩).reverse ++ placement.free sizeClass
    reclaimed := fun address => placement.reclaimed address + (garbage address).toNat }

/-- Adds `count` cells to a size class. -/
def grow (sizeClass count : Nat) (placement : Placement) : Placement :=
  { placement with
    cells := Function.update placement.cells sizeClass (placement.cells sizeClass + count)
    free := Function.update placement.free sizeClass
      (List.range' (placement.cells sizeClass) count ++ placement.free sizeClass) }

/-- The collection before an allocation, if there is one. -/
def prepare (settings : HeapSettings) (sizeClass : Nat)
    (garbage : Address → Bool) (placement : Placement) : Placement :=
  if settings.torture || (placement.free sizeClass).isEmpty then placement.reclaim garbage
  else placement

/-- Grows a size class that has no free cell. -/
def ensure (settings : HeapSettings) (sizeClass : Nat) (placement : Placement) :
    Placement :=
  if (placement.free sizeClass).isEmpty then
    placement.grow sizeClass (settings.superblockCells sizeClass)
  else placement

/-- Takes the first free cell of a size class. -/
def take (sizeClass : Nat) (placement : Placement) :
    Option (Nat × Nat × Nat) × Placement :=
  match placement.free sizeClass with
  | [] => (none, placement)
  | index :: rest =>
    (some (sizeClass, index, placement.reclaimed ⟨sizeClass, index⟩ % 2 ^ 24),
      { placement with free := Function.update placement.free sizeClass rest })

/-- Follows one call, and predicts the reference that it returns. -/
def step (settings : HeapSettings) (placement : Placement) :
    Event → Option (Nat × Nat × Nat) × Placement
  | .allocate sizeClass garbage =>
    ((placement.prepare settings sizeClass garbage).ensure settings sizeClass).take sizeClass
  | .collect garbage => (none, placement.reclaim garbage)

/-- Follows calls one after the other. -/
def run (settings : HeapSettings) (placement : Placement) :
    List Event → List (Nat × Nat × Nat) × Placement
  | [] => ([], placement)
  | event :: events =>
    let stepped := placement.step settings event
    let finished := stepped.2.run settings events
    (stepped.1.toList ++ finished.1, finished.2)

end Placement

/-- What a call is for the placement.  An allocation holds on to its object. -/
def HeapCall.event? (heap : Heap) : HeapCall → Option Placement.Event
  | .allocate object roots =>
    some (.allocate (heap.sizeClassFor object.size)
      ((collect (roots ++ object.edges)).reclaims heap))
  | .allocateIn sizeClass object roots =>
    some (.allocate sizeClass ((collect (roots ++ object.edges)).reclaims heap))
  | .collect roots => some (.collect ((collect roots).reclaims heap))
  | _ => none

namespace Heap

/-- What a run is for the placement. -/
def events (heap : Heap) : List HeapCall → List Placement.Event
  | [] => []
  | call :: calls =>
    (call.event? heap).toList ++
      match call.perform heap with
      | .ok _ after => after.events calls
      | .error _ _ => []

end Heap

namespace Placement

/-- A placement follows calls in two parts. -/
theorem run_append (settings : HeapSettings) (placement : Placement)
    (before later : List Event) :
    placement.run settings (before ++ later) =
      ((placement.run settings before).1 ++
          ((placement.run settings before).2.run settings later).1,
        ((placement.run settings before).2.run settings later).2) := by
  induction before generalizing placement with
  | nil => rfl
  | cons event before ih => simp only [List.cons_append, run, ih, List.append_assoc]

/-- Growing a size class and taking a cell reclaim nothing. -/
@[simp] theorem reclaimed_ensure (settings : HeapSettings) (sizeClass : Nat)
    (placement : Placement) :
    (placement.ensure settings sizeClass).reclaimed = placement.reclaimed := by
  unfold ensure
  split <;> rfl

@[simp] theorem reclaimed_take (sizeClass : Nat) (placement : Placement) :
    (placement.take sizeClass).2.reclaimed = placement.reclaimed := by
  unfold take
  split <;> rfl

end Placement

/-! ## The pools follow the model -/

/-- A pool is as the placement has it. -/
structure Pool.LaidOut (pool : Pool) (settings : HeapSettings)
    (placement : Placement) (sizeClass : Nat) : Prop where
  coherent : pool.Coherent (placement.free sizeClass)
  totalCells_eq : pool.totalCells = placement.cells sizeClass
  superblock_eq : pool.cellsPerSuperblock = settings.superblockCells sizeClass

/-- A heap is as the placement has it: so are its pools, and generations count
reclamations. -/
structure Heap.LaidOut (heap : Heap) (settings : HeapSettings)
    (placement : Placement) :
    Prop where
  settings_eq : heap.settings = settings
  pools : ∀ (sizeClass : Nat) (pool : Pool), heap.pools[sizeClass]? = some pool →
    pool.LaidOut settings placement sizeClass
  generation_eq : ∀ address,
    (heap.generationAt address).toNat = placement.reclaimed address % 2 ^ 24

/-- A pool that neither grows nor gives superblocks back is laid out if its free
list is. -/
theorem Pool.LaidOut.of_shape {pool changed : Pool} {settings : HeapSettings}
    {placement after : Placement} {sizeClass : Nat}
    (hpool : pool.LaidOut settings placement sizeClass)
    (hshape : changed.shape = pool.shape)
    (hcells : after.cells sizeClass = placement.cells sizeClass)
    (hcoherent : changed.Coherent (after.free sizeClass)) :
    changed.LaidOut settings after sizeClass := by
  simp only [shape, Prod.mk.injEq] at hshape
  obtain ⟨-, -, hsuperblock, hsuperblocks⟩ := hshape
  refine ⟨hcoherent, ?_, ?_⟩
  · rw [hcells, ← hpool.totalCells_eq, totalCells, totalCells, hsuperblock, hsuperblocks]
  · rw [hsuperblock, hpool.superblock_eq]

namespace Heap

section Steps

variable {heap room after : Heap} {settings : HeapSettings} {placement : Placement}
  {sizeClass : Nat} {object : HeapObject} {roots : List Ref}

/-- A change of one pool lays the heap out anew if it does so for that pool, and
the placement is the same in every other size class. -/
theorem laidOut_modifyPool
    (hpools : ∀ (sizeClass : Nat) (pool : Pool), heap.pools[sizeClass]? = some pool →
      pool.LaidOut settings placement sizeClass)
    {next : Placement} {change : Pool → Pool}
    (hchange : ∀ pool, heap.pools[sizeClass]? = some pool →
      (change pool).LaidOut settings next sizeClass)
    (hcells : ∀ other, other ≠ sizeClass → next.cells other = placement.cells other)
    (hfree : ∀ other, other ≠ sizeClass → next.free other = placement.free other) :
    ∀ (other : Nat) (pool : Pool),
      (heap.modifyPool sizeClass change).pools[other]? = some pool →
        pool.LaidOut settings next other := by
  intro other pool hpool
  rw [getElem?_modifyPool] at hpool
  by_cases hother : sizeClass = other
  · subst hother
    rw [if_pos rfl] at hpool
    obtain ⟨old, hold, rfl⟩ := Option.map_eq_some_iff.mp hpool
    exact hchange old hold
  · rw [if_neg hother] at hpool
    have hlaid := hpools other pool hpool
    apply hlaid.of_shape rfl (hcells other (Ne.symm hother))
    rw [hfree other (Ne.symm hother)]
    exact hlaid.coherent

/-- The tracer marks cells, and leaves the free lists alone. -/
theorem laidOut_trace
    (hpools : ∀ (sizeClass : Nat) (pool : Pool), heap.pools[sizeClass]? = some pool →
      pool.LaidOut settings placement sizeClass) (pending : List Ref) :
    ∀ (sizeClass : Nat) (pool : Pool), (heap.trace pending).pools[sizeClass]? = some pool →
      pool.LaidOut settings placement sizeClass := by
  fun_induction Heap.trace heap pending with
  | case1 heap => exact hpools
  | case2 heap ref pending found visited hvisit huntraced ih =>
      apply ih
      rcases heap.visit_cases ref with ⟨object, -, hmark⟩ | ⟨-, hsame, -⟩ | ⟨-, hnoted⟩
      · cases hmark.symm.trans hvisit
        apply laidOut_modifyPool hpools
        · intro pool hpool
          have hlaid := hpools _ pool hpool
          exact hlaid.of_shape rfl rfl (hlaid.coherent.mark _)
        · exact fun _ _ => rfl
        · exact fun _ _ => rfl
      · cases hsame.symm.trans hvisit
        exact hpools
      · cases hnoted.symm.trans hvisit
        exact hpools

/-- A collection reclaims the live cells that its tracer left without a mark. -/
theorem reclaims_collect (hheap : heap.Coherent) (roots : List Ref)
    (address : Address) :
    (HeapCall.collect roots).reclaims heap address =
      ((heap.trace roots.reverse).cellAt? address).any fun cell =>
        cell.isLive && !cell.isMarked := by
  show (heap.isHeld address && !(heap.collect roots).2.isHeld address) = _
  rw [isHeld, isHeld, collect, content?_sweep (hheap.toSound.trace _),
    ← content?_trace hheap roots, content?]
  cases (heap.trace roots.reverse).cellAt? address with
  | none => rfl
  | some cell =>
      obtain ⟨generation, state⟩ := cell
      cases state with
      | free next => rfl
      | live object marked => cases marked <;> rfl

/-- **Collection.** -/
theorem LaidOut.collect (hlaid : heap.LaidOut settings placement)
    (hheap : heap.Coherent) (roots : List Ref) :
    (heap.collect roots).2.LaidOut settings
      (placement.reclaim ((HeapCall.collect roots).reclaims heap)) := by
  refine ⟨(collect_settings_stats hheap roots).1.trans hlaid.settings_eq, ?_, ?_⟩
  · intro sizeClass pool hpool
    rw [Heap.collect, sweep] at hpool
    simp only [Array.getElem?_map] at hpool
    obtain ⟨swept, hswept, rfl⟩ := Option.map_eq_some_iff.mp hpool
    obtain ⟨traced, htraced, rfl⟩ := Option.map_eq_some_iff.mp hswept
    have hpool := laidOut_trace hlaid.pools roots.reverse sizeClass traced htraced
    have hgarbage : traced.garbage traced.cells.size =
        (List.range (placement.cells sizeClass)).filter fun index =>
          (HeapCall.collect roots).reclaims heap ⟨sizeClass, index⟩ := by
      rw [Pool.garbage, traced.size_cells]
      show (List.range traced.totalCells).filter _ = _
      rw [hpool.totalCells_eq]
      refine List.filter_congr fun index _ => ?_
      rw [reclaims_collect hheap, cellAt?_eq_bind, htraced, Option.bind_some]
    refine hpool.of_shape (Pool.shape_sweep hpool.coherent).1 rfl ?_
    show traced.sweep.1.Coherent (List.reverse _ ++ placement.free sizeClass)
    rw [← hgarbage]
    exact hpool.coherent.sweep
  · intro address
    have hraised := HeapCall.generationAt_collected hheap (.collect roots) address
    have hgeneration := hlaid.generation_eq address
    show (((HeapCall.collect roots).collected heap).generationAt address).toNat = _
    rw [hraised, BitVec.toNat_add, BitVec.toNat_ofNat, hgeneration]
    exact (Nat.add_mod _ _ _).symm

/-- The model knows when a pool is exhausted. -/
theorem LaidOut.isExhausted_eq (hlaid : heap.LaidOut settings placement)
    (hclass : sizeClass < heap.pools.size) :
    heap.isExhausted sizeClass = (placement.free sizeClass).isEmpty := by
  have hpool := Array.getElem?_eq_getElem hclass
  rw [isExhausted, hpool, Option.all_some, (hlaid.pools sizeClass _ hpool).coherent.freeHead_eq]
  cases placement.free sizeClass <;> rfl

/-- **The collection before an allocation.** -/
theorem LaidOut.prepared (hlaid : heap.LaidOut settings placement)
    (hheap : heap.Coherent) (hclass : sizeClass < heap.pools.size)
    (object : HeapObject) (roots : List Ref) :
    (heap.prepared sizeClass object roots).LaidOut settings
      (placement.prepare settings sizeClass
        ((HeapCall.collect (roots ++ object.edges)).reclaims heap)) := by
  rw [Heap.prepared, Placement.prepare, hlaid.settings_eq, hlaid.isExhausted_eq hclass]
  split
  · exact hlaid.collect hheap _
  · exact hlaid

/-- **Growth.** -/
theorem LaidOut.ensure (hlaid : heap.LaidOut settings placement)
    (hheap : heap.Coherent) (hclass : sizeClass < heap.pools.size)
    (hroom : Roomy heap sizeClass room) :
    room.LaidOut settings (placement.ensure settings sizeClass) := by
  have hgeneration : ∀ address,
      (room.generationAt address).toNat = placement.reclaimed address % 2 ^ 24 := by
    intro address
    rw [hroom.generationAt]
    exact hlaid.generation_eq address
  have hsettings := hroom.settings_stats.1.trans hlaid.settings_eq
  have hempty := hlaid.isExhausted_eq hclass
  cases hroom with
  | enough hfree =>
      rw [hfree] at hempty
      rw [Placement.ensure, ← hempty]
      exact hlaid
  | grown hfull hmay =>
      rw [hfull] at hempty
      rw [Placement.ensure, ← hempty, if_pos rfl]
      refine ⟨hsettings, ?_, hgeneration⟩
      apply laidOut_modifyPool hlaid.pools
      · intro pool hpool
        have hold := hlaid.pools sizeClass pool hpool
        have hgrown := hold.coherent.grow (hheap.pools sizeClass pool hpool).cells_pos
        rw [hold.totalCells_eq, hold.superblock_eq] at hgrown
        refine ⟨?_, ?_, hold.superblock_eq⟩
        · simpa only [Placement.grow, Function.update_self] using hgrown
        · simp only [Placement.grow, Function.update_self]
          rw [← hold.totalCells_eq, ← hold.superblock_eq]
          exact Nat.mul_succ _ _
      · exact fun other hother => Function.update_of_ne hother _ _
      · exact fun other hother => Function.update_of_ne hother _ _

/-- **Placing an object.**  The reference is the one that the model predicts. -/
theorem LaidOut.place (hlaid : heap.LaidOut settings placement)
    (hheap : heap.Coherent) {ref : Ref}
    (hok : heap.place sizeClass object = .ok ref after) :
    (placement.take sizeClass).1 = some ref.parts ∧
      after.LaidOut settings (placement.take sizeClass).2 := by
  cases hpool : heap.pools[sizeClass]? with
  | none =>
      rw [Heap.place, hpool] at hok
      cases hok
  | some pool =>
      have hfree := (hlaid.pools sizeClass pool hpool).coherent
      cases hlist : placement.free sizeClass with
      | nil =>
          rw [hlist] at hfree
          rw [Heap.place, hpool, Option.map_some, Pool.nextRef, hfree.freeHead_eq] at hok
          cases hok
      | cons index rest =>
          rw [hlist] at hfree
          obtain ⟨_, haddress, hplace, hplaced⟩ :=
            exists_placed hheap hpool hfree.freeHead_eq object
          cases hplace.symm.trans hok
          have hgeneration := hlaid.generation_eq ref.address
          rw [generationAt, hplaced.free, Option.elim_some, haddress] at hgeneration
          have hparts : ref.parts = (sizeClass, index, ref.generation.toNat) :=
            congrArg (fun address => (address.sizeClass, address.index, ref.generation.toNat))
              haddress
          simp only [Placement.take, hlist]
          refine ⟨?_, hlaid.settings_eq, ?_, ?_⟩
          · rw [hparts, hgeneration]
          · apply laidOut_modifyPool hlaid.pools
            · intro other hother
              cases hpool.symm.trans hother
              refine (hlaid.pools sizeClass pool hpool).of_shape (pool.shape_take object) rfl ?_
              simpa only [Function.update_self] using hfree.take object
            · exact fun _ _ => rfl
            · exact fun other hother => Function.update_of_ne hother _ _
          · intro address
            rw [hplaced.generationAt]
            exact hlaid.generation_eq address

/-- **Allocation.** -/
theorem LaidOut.allocateIn (hlaid : heap.LaidOut settings placement) (hheap : heap.Coherent)
    {ref : Ref} (hok : heap.allocateIn sizeClass object roots = .ok ref after) :
    ∃ next, placement.step settings (.allocate sizeClass
        ((HeapCall.collect (roots ++ object.edges)).reclaims heap)) = (some ref.parts, next) ∧
      after.LaidOut settings next := by
  unfold Heap.allocateIn at hok
  split at hok
  · next hclass =>
      have hprepared := hlaid.prepared hheap hclass object roots
      rcases heap.makeRoom_cases sizeClass object roots with
        ⟨room, hroom, hmake⟩ | ⟨fault, -, -, hmake⟩
      · rw [hmake] at hok
        have hcoherent := hheap.prepared sizeClass object roots
        have hsize : sizeClass < (heap.prepared sizeClass object roots).pools.size := by
          rw [size_prepared hheap]
          exact hclass
        obtain ⟨hparts, hafter⟩ := (hprepared.ensure hcoherent hsize hroom).place
          (hroom.coherent hcoherent) hok
        exact ⟨_, Prod.ext hparts rfl, hafter⟩
      · rw [hmake] at hok
        cases hok
  · cases hok

/-- Changing an object moves nothing. -/
theorem LaidOut.update (hlaid : heap.LaidOut settings placement) (ref : Ref)
    (change : HeapObject → HeapObject) :
    (heap.update ref change).LaidOut settings placement := by
  refine ⟨hlaid.settings_eq, ?_, ?_⟩
  · apply laidOut_modifyPool hlaid.pools
    · intro pool hpool
      have hold := hlaid.pools _ pool hpool
      exact hold.of_shape rfl rfl (hold.coherent.update _ _ change)
    · exact fun _ _ => rfl
    · exact fun _ _ => rfl
  · intro address
    rw [generationAt_update]
    exact hlaid.generation_eq address

end Steps

end Heap

namespace HeapCall

variable {call : HeapCall} {heap after : Heap} {ref? : Option Ref} {settings : HeapSettings}
  {placement : Placement}

/-- The model counts what an allocation reclaims, which is nothing if it does
not collect. -/
theorem reclaimed_allocate (hlaid : heap.LaidOut settings placement) {sizeClass : Nat}
    (hclass : sizeClass < heap.pools.size) (object : HeapObject) (roots : List Ref)
    (address : Address) :
    (placement.step settings (.allocate sizeClass
        ((collect (roots ++ object.edges)).reclaims heap))).2.reclaimed address =
      placement.reclaimed address +
        ((allocateIn sizeClass object roots).reclaims heap address).toNat := by
  have hreclaims : (allocateIn sizeClass object roots).reclaims heap address =
      (heap.isHeld address && !(heap.prepared sizeClass object roots).isHeld address) := rfl
  rw [Placement.step, Placement.reclaimed_take, Placement.reclaimed_ensure, Placement.prepare,
    hreclaims, Heap.prepared, hlaid.settings_eq, hlaid.isExhausted_eq hclass]
  split
  · rfl
  · rw [Bool.and_not_self]
    rfl

/-- **One call.**  A call that gives no superblocks back does what the model
does. -/
theorem laidOut_perform (hheap : heap.Coherent)
    (hlaid : heap.LaidOut settings placement)
    (hok : call.perform heap = .ok ref? after) (hkeep : call ≠ .releaseAll) :
    ∃ next, placement.run settings (call.event? heap).toList =
        (ref?.toList.map Ref.parts, next) ∧
      after.LaidOut settings next ∧
      ∀ address, next.reclaimed address =
        placement.reclaimed address + (call.reclaims heap address).toNat := by
  have hallocate : ∀ {sizeClass object roots},
      Heap.Outcome.map some (heap.allocateIn sizeClass object roots) = .ok ref? after →
      ∃ next, placement.run settings [.allocate sizeClass
          ((collect (roots ++ object.edges)).reclaims heap)] =
          (ref?.toList.map Ref.parts, next) ∧
        after.LaidOut settings next ∧
        ∀ address, next.reclaimed address = placement.reclaimed address +
          ((allocateIn sizeClass object roots).reclaims heap address).toNat := by
    intro sizeClass object roots hmap
    obtain ⟨ref, hallocated, rfl⟩ := Heap.Outcome.map_eq_ok hmap
    obtain ⟨next, hstep, hafter⟩ := hlaid.allocateIn hheap hallocated
    refine ⟨next, ?_, hafter, ?_⟩
    · rw [Placement.run, hstep]
      rfl
    · intro address
      obtain ⟨room, hsize, -⟩ := Heap.allocateIn_eq_ok hheap hallocated
      rw [Heap.size_prepared hheap] at hsize
      rw [← reclaimed_allocate hlaid hsize, hstep]
  cases call with
  | allocate object roots => exact hallocate hok
  | allocateIn sizeClass object roots => exact hallocate hok
  | collect roots =>
      cases hok
      exact ⟨_, rfl, hlaid.collect hheap roots, fun _ => rfl⟩
  | update ref change =>
      cases hok
      refine ⟨placement, rfl, hlaid.update ref change, ?_⟩
      intro address
      show _ = placement.reclaimed address + (heap.isHeld address && !heap.isHeld address).toNat
      rw [Bool.and_not_self]
      rfl
  | releaseAll => exact absurd rfl hkeep

end HeapCall

namespace Heap

variable {heap start final : Heap} {settings : HeapSettings} {placement : Placement}
  {calls : List HeapCall} {refs : List Ref}

/-- **A whole run**, by induction on the calls. -/
theorem laidOut_run (hheap : heap.Coherent) (hlaid : heap.LaidOut settings placement)
    (hrun : heap.run calls = .ok refs final) (hkeep : ∀ call ∈ calls, call ≠ .releaseAll) :
    ∃ last, placement.run settings (heap.events calls) = (refs.map Ref.parts, last) ∧
      final.LaidOut settings last ∧
      ∀ address, last.reclaimed address =
        placement.reclaimed address + heap.reclamations address calls := by
  induction calls generalizing heap placement refs with
  | nil =>
      cases hrun
      exact ⟨placement, rfl, hlaid, fun _ => rfl⟩
  | cons call calls ih =>
      obtain ⟨ref?, after, rest, hcall, hrest, rfl⟩ := run_cons_eq_ok hrun
      obtain ⟨next, hstep, hnext, hcount⟩ :=
        HeapCall.laidOut_perform hheap hlaid hcall (hkeep call List.mem_cons_self)
      obtain ⟨last, hlast, hfinal, htotal⟩ := ih (HeapCall.perform_coherent hheap hcall) hnext
        hrest fun other hother => hkeep other (List.mem_cons_of_mem _ hother)
      refine ⟨last, ?_, hfinal, ?_⟩
      · rw [events, hcall, Placement.run_append, hstep, hlast, List.map_append]
      · intro address
        rw [htotal, hcount, reclamations_cons hcall, Nat.add_assoc]

/-- A new heap has no cells. -/
theorem laidOut_create (hcreate : create settings = .ok start) :
    start.LaidOut settings .start := by
  obtain ⟨heap, heq, -, -, hempty, -⟩ := exists_create (validate_of_create hcreate)
  cases heq.symm.trans hcreate
  rw [create, validate_of_create hcreate] at hcreate
  cases hcreate
  refine ⟨rfl, ?_, ?_⟩
  · intro sizeClass pool hpool
    rw [Array.getElem?_mapIdx, List.getElem?_toArray] at hpool
    obtain ⟨size, hsize, rfl⟩ := Option.map_eq_some_iff.mp hpool
    refine ⟨Pool.coherent_empty _ _ _, rfl, ?_⟩
    rw [HeapSettings.superblockCells, hsize]
    rfl
  · intro address
    rw [generationAt, hempty]
    rfl

/-- **Placement is last in, first out.**  Take a run on a new heap that gives no
superblocks back.  The references that it returns are, part by part, those that
the model predicts: a size class is a list of free indices, empty at first; a
collection puts the indices that it reclaims in front in descending order,
growth puts the new indices in front in ascending order, and an allocation takes
the head; the generation is the number of reclamations of the cell so far,
modulo `2 ^ 24`.  After the run the free list of each pool is the list of the
model, and the model has counted the reclamations of the run. -/
theorem run_places_lifo (hcreate : create settings = .ok start)
    (hrun : start.run calls = .ok refs final) (hkeep : ∀ call ∈ calls, call ≠ .releaseAll) :
    ∃ last, Placement.start.run settings (start.events calls) = (refs.map Ref.parts, last) ∧
      (∀ (sizeClass : Nat) (pool : Pool), final.pools[sizeClass]? = some pool →
        pool.Coherent (last.free sizeClass) ∧ pool.totalCells = last.cells sizeClass) ∧
      ∀ address, last.reclaimed address = start.reclamations address calls := by
  obtain ⟨last, hlast, hfinal, hcount⟩ :=
    laidOut_run (coherent_of_create hcreate) (laidOut_create hcreate) hrun hkeep
  refine ⟨last, hlast, ?_, ?_⟩
  · intro sizeClass pool hpool
    have hlaid := hfinal.pools sizeClass pool hpool
    exact ⟨hlaid.coherent, hlaid.totalCells_eq⟩
  · intro address
    rw [hcount]
    exact Nat.zero_add _

/-- Two superblocks are filled in ascending order.  The collection then reclaims
the first three cells, of which the last is the first to be taken again. -/
theorem run_places_lifo_pairSettings :
    ∃ start refs final, create pairSettings = .ok start ∧
      start.run pairCalls = .ok refs final ∧ (∀ call ∈ pairCalls, call ≠ .releaseAll) ∧
      refs.map Ref.parts = [(0, 0, 0), (0, 1, 0), (0, 2, 0), (0, 2, 1)] := by
  have hcreate : create pairSettings = .ok ⟨pairSettings, #[.empty 0 32 64], {}⟩ := rfl
  obtain ⟨refs, final, hrun⟩ := exists_run_pairCalls hcreate
  obtain ⟨last, hlast, -, -⟩ := run_places_lifo hcreate hrun ne_releaseAll_of_mem_pairCalls
  have hpredicted : (Placement.start.run pairSettings
      (events ⟨pairSettings, #[.empty 0 32 64], {}⟩ pairCalls)).1 =
        [(0, 0, 0), (0, 1, 0), (0, 2, 0), (0, 2, 1)] := by decide +kernel
  rw [hlast] at hpredicted
  exact ⟨_, refs, final, hcreate, hrun, ne_releaseAll_of_mem_pairCalls, hpredicted⟩

end Heap

end LazyDispatch
