import LazyDispatch.Proofs.Accounts
import LazyDispatch.Proofs.Allocation

/-!
# Runs of a heap

A host makes calls on a heap one after the other, with any objects and any
roots, also such as do not resolve.  Each call is a collection, if it needs one,
and then the work of the call itself (`perform_cases`).  Every call keeps the
heap coherent, so every run does: the faults of a broken free list never occur,
no counter drops below zero, every index fits into a reference, and each object
ever allocated is either still allocated or was counted as reclaimed.
-/

namespace LazyDispatch

/-- Changes the result of an outcome. -/
def Heap.Outcome.map {α β : Type} (f : α → β) : Outcome α → Outcome β
  | .ok result heap => .ok (f result) heap
  | .error fault heap => .error fault heap

theorem Heap.Outcome.map_eq_ok {α β : Type} {f : α → β} {outcome : Outcome α}
    {result : β} {after : Heap} (hmap : map f outcome = .ok result after) :
    ∃ value, outcome = .ok value after ∧ f value = result := by
  cases outcome with
  | ok value heap =>
      cases hmap
      exact ⟨value, rfl, rfl⟩
  | error fault heap => cases hmap

theorem Heap.Outcome.map_eq_error {α β : Type} {f : α → β} {outcome : Outcome α}
    {fault : Fault} {after : Heap} (hmap : map f outcome = .error fault after) :
    outcome = .error fault after := by
  cases outcome with
  | ok value heap => cases hmap
  | error found heap =>
      cases hmap
      rfl

/-- What a host may ask of a heap. -/
inductive HeapCall where
  | allocate (object : HeapObject) (roots : List Ref)
  | allocateIn (sizeClass : Nat) (object : HeapObject) (roots : List Ref)
  | collect (roots : List Ref)
  | update (ref : Ref) (change : HeapObject → HeapObject)
  | releaseAll

namespace HeapCall

open Heap

/-- The object that a call stores. -/
def object? : HeapCall → Option HeapObject
  | allocate object _ => some object
  | allocateIn _ object _ => some object
  | _ => none

/-- Makes a call.  An allocation returns a reference. -/
def perform (call : HeapCall) (heap : Heap) : Outcome (Option Ref) :=
  match call with
  | allocate object roots => Outcome.map some (heap.allocate object roots)
  | allocateIn sizeClass object roots =>
    Outcome.map some (heap.allocateIn sizeClass object roots)
  | collect roots => .ok none (heap.collect roots).2
  | update ref change => .ok none (heap.update ref change)
  | releaseAll => .ok none heap.releaseAll

/-- The heap after the collection that a call runs, if it runs one. -/
def collected (call : HeapCall) (heap : Heap) : Heap :=
  match call with
  | allocate object roots =>
    heap.prepared (heap.sizeClassFor object.size) object roots
  | allocateIn sizeClass object roots => heap.prepared sizeClass object roots
  | collect roots => (heap.collect roots).2
  | _ => heap

end HeapCall

/-- Makes calls one after the other up to the first that fails, and lists the
references that they return. -/
def Heap.run (heap : Heap) : List HeapCall → Outcome (List Ref)
  | [] => .ok [] heap
  | call :: calls =>
    match call.perform heap with
    | .ok ref? after => Outcome.map (ref?.toList ++ ·) (after.run calls)
    | .error fault after => .error fault after

namespace Heap

/-! ## Counting -/

/-- Changing an object allocates nothing. -/
theorem allocatedCells_update (heap : Heap) (ref : Ref)
    (change : HeapObject → HeapObject) :
    (heap.update ref change).allocatedCells = heap.allocatedCells := by
  have hsum : ∀ pools : Array Pool, total Pool.allocatedCells pools =
      total id (pools.map Pool.allocatedCells) :=
    fun pools => (total_map id Pool.allocatedCells pools).symm
  rw [allocatedCells, allocatedCells, hsum, hsum, update, modifyPool,
    map_modify_of_fixed]
  exact fun pool => rfl

/-- What a collection reclaims was allocated. -/
theorem allocatedCells_collect {heap : Heap} (hheap : heap.Coherent)
    (roots : List Ref) :
    (heap.collect roots).2.allocatedCells + (heap.collect roots).1 =
      heap.allocatedCells := by
  have hsound := hheap.toSound.trace roots.reverse
  have hunmark := congrArg Heap.allocatedCells
    (tracing_collect hheap roots).unmark_eq
  have htraced : (heap.trace roots.reverse).allocatedCells =
      heap.allocatedCells := by
    simp only [allocatedCells, unmark, total_map] at hunmark
    exact hunmark
  rw [← htraced]
  simp only [collect, sweep, allocatedCells, total_map]
  rw [← total_add]
  refine total_congr fun pool hpool => ?_
  obtain ⟨free, hfree⟩ := hsound.exists_free hpool
  exact Pool.allocatedCells_sweep hfree

end Heap

namespace HeapCall

open Heap

section OneCall

variable {call : HeapCall} {heap after : Heap} {ref? : Option Ref}

/-- A call runs at most one collection before it does its work. -/
theorem collected_cases (call : HeapCall) (heap : Heap) :
    call.collected heap = heap ∨
      ∃ roots, call.collected heap = (heap.collect roots).2 := by
  have hprepared : ∀ sizeClass object roots,
      heap.prepared sizeClass object roots = heap ∨
        ∃ all, heap.prepared sizeClass object roots = (heap.collect all).2 := by
    intro sizeClass object roots
    rcases heap.prepared_cases sizeClass object roots with ⟨-, heq⟩ | ⟨-, heq⟩
    · exact Or.inr ⟨_, heq⟩
    · exact Or.inl heq
  cases call with
  | allocate object roots => exact hprepared _ object roots
  | allocateIn sizeClass object roots => exact hprepared sizeClass object roots
  | collect roots => exact Or.inr ⟨roots, rfl⟩
  | update ref change => exact Or.inl rfl
  | releaseAll => exact Or.inl rfl

/-- **What a completed call has done** after its collection: an allocation has
made room and placed its object; a collection has nothing left to do. -/
theorem perform_cases (hheap : heap.Coherent)
    (hok : call.perform heap = .ok ref? after) :
    (∃ sizeClass object room ref, call.object? = some object ∧
        ref? = some ref ∧ sizeClass < (call.collected heap).pools.size ∧
        Roomy (call.collected heap) sizeClass room ∧
        Placed room object ref after) ∨
      (call.object? = none ∧ ref? = none ∧
        ((∃ roots, call = .collect roots ∧ after = call.collected heap) ∨
          (∃ ref change, call = .update ref change ∧
            after = heap.update ref change) ∨
          (call = .releaseAll ∧ after = heap.releaseAll))) := by
  have hallocate : ∀ {sizeClass object roots},
      Outcome.map some (heap.allocateIn sizeClass object roots) =
        .ok ref? after →
      ∃ room ref, ref? = some ref ∧
        sizeClass < (heap.prepared sizeClass object roots).pools.size ∧
        Roomy (heap.prepared sizeClass object roots) sizeClass room ∧
        Placed room object ref after := by
    intro sizeClass object roots hmap
    obtain ⟨ref, hallocated, rfl⟩ := Outcome.map_eq_ok hmap
    obtain ⟨room, hroom⟩ := allocateIn_eq_ok hheap hallocated
    exact ⟨room, ref, rfl, hroom⟩
  cases call with
  | allocate object roots =>
      obtain ⟨room, ref, hroom⟩ := hallocate hok
      exact Or.inl ⟨_, object, room, ref, rfl, hroom⟩
  | allocateIn sizeClass object roots =>
      obtain ⟨room, ref, hroom⟩ := hallocate hok
      exact Or.inl ⟨_, object, room, ref, rfl, hroom⟩
  | collect roots =>
      cases hok
      exact Or.inr ⟨rfl, rfl, Or.inl ⟨roots, rfl, rfl⟩⟩
  | update ref change =>
      cases hok
      exact Or.inr ⟨rfl, rfl, Or.inr (Or.inl ⟨ref, change, rfl, rfl⟩)⟩
  | releaseAll =>
      cases hok
      exact Or.inr ⟨rfl, rfl, Or.inr (Or.inr ⟨rfl, rfl⟩)⟩

/-- A completed call keeps the heap coherent. -/
theorem perform_coherent (hheap : heap.Coherent)
    (hok : call.perform heap = .ok ref? after) : after.Coherent := by
  rcases perform_cases hheap hok with ⟨_, _, _, _, -, -, -, -, hplaced⟩ |
    ⟨-, -, ⟨roots, rfl, rfl⟩ | ⟨ref, change, -, rfl⟩ | ⟨-, rfl⟩⟩
  · exact hplaced.coherent
  · exact hheap.collect roots
  · exact hheap.update ref change
  · exact hheap.releaseAll

/-- A collection moves cells from allocated to reclaimed. -/
theorem collected_balanced (call : HeapCall) (hheap : heap.Coherent) :
    (call.collected heap).allocatedCells +
        (call.collected heap).stats.totalReclaimed =
      heap.allocatedCells + heap.stats.totalReclaimed := by
  rcases call.collected_cases heap with heq | ⟨roots, heq⟩
  · rw [heq]
  · have hcells := allocatedCells_collect hheap roots
    rw [heq, (collect_settings_stats hheap roots).2]
    show _ + (_ + _) = _
    omega

/-- A call that does not give superblocks back balances: the cells that are
allocated or were reclaimed increase by the object that the call stores. -/
theorem perform_balanced (hheap : heap.Coherent)
    (hok : call.perform heap = .ok ref? after) (hkeep : call ≠ .releaseAll) :
    after.allocatedCells + after.stats.totalReclaimed =
      heap.allocatedCells + heap.stats.totalReclaimed +
        if call.object?.isSome then 1 else 0 := by
  have hcollected := call.collected_balanced hheap
  rcases perform_cases hheap hok with
    ⟨sizeClass, object, room, ref, hobject, -, hsize, hroom, hplaced⟩ |
    ⟨hobject, -, ⟨roots, -, rfl⟩ | ⟨ref, change, -, rfl⟩ | ⟨hrelease, -⟩⟩
  · rw [hplaced.allocatedCells_eq, hplaced.stats_eq, hroom.settings_stats.2,
      hroom.allocatedCells hsize, hobject, Option.isSome_some, if_pos rfl]
    omega
  · rw [hobject]
    exact hcollected
  · rw [hobject, allocatedCells_update]
    rfl
  · exact absurd hrelease hkeep

/-- The faults of a call. -/
theorem perform_eq_error (hheap : heap.Coherent) {fault : Fault}
    (herror : call.perform heap = .error fault after) :
    (∃ sizeClass, fault = .unknownSizeClass sizeClass) ∨
      (∃ sizeClass limit, fault = .outOfMemory sizeClass limit) ∨
      (∃ sizeClass, fault = .unaddressableCells sizeClass) := by
  have hallocate : ∀ {sizeClass object roots},
      Outcome.map some (heap.allocateIn sizeClass object roots) =
        .error fault after →
      (∃ sizeClass, fault = .unknownSizeClass sizeClass) ∨
        (∃ sizeClass limit, fault = .outOfMemory sizeClass limit) ∨
        (∃ sizeClass, fault = .unaddressableCells sizeClass) := by
    intro sizeClass object roots hmap
    rcases (allocateIn_eq_error_iff hheap).mp ⟨_, Outcome.map_eq_error hmap⟩ with
      ⟨-, heq⟩ | ⟨-, pool, -, hfault⟩
    · exact Or.inl ⟨sizeClass, heq⟩
    · rcases Pool.growFault?_eq_some_iff.mp hfault with
        ⟨limit, -, -, heq⟩ | ⟨-, -, heq⟩
      · exact Or.inr (Or.inl ⟨_, limit, heq⟩)
      · exact Or.inr (Or.inr ⟨_, heq⟩)
  cases call with
  | allocate object roots => exact hallocate herror
  | allocateIn sizeClass object roots => exact hallocate herror
  | collect roots => cases herror
  | update ref change => cases herror
  | releaseAll => cases herror

end OneCall

end HeapCall

namespace Heap

/-! ## Runs -/

section Runs

variable {heap final : Heap} {calls : List HeapCall} {refs : List Ref}

/-- A completed run makes its first call and then runs on. -/
theorem run_cons_eq_ok {call : HeapCall}
    (hrun : heap.run (call :: calls) = .ok refs final) :
    ∃ ref? after rest, call.perform heap = .ok ref? after ∧
      after.run calls = .ok rest final ∧ refs = ref?.toList ++ rest := by
  rw [run] at hrun
  cases hcall : call.perform heap with
  | error fault after =>
      rw [hcall] at hrun
      cases hrun
  | ok ref? after =>
      rw [hcall] at hrun
      obtain ⟨rest, hrest, rfl⟩ := Outcome.map_eq_ok hrun
      exact ⟨ref?, after, rest, rfl, hrest, rfl⟩

/-- A completed run keeps the heap coherent. -/
theorem run_coherent (hheap : heap.Coherent)
    (hrun : heap.run calls = .ok refs final) : final.Coherent := by
  induction calls generalizing heap refs with
  | nil =>
      cases hrun
      exact hheap
  | cons call calls ih =>
      obtain ⟨ref?, after, rest, hcall, hrest, -⟩ := run_cons_eq_ok hrun
      exact ih (HeapCall.perform_coherent hheap hcall) hrest

/-- A completed run without a release balances. -/
theorem run_balanced (hheap : heap.Coherent)
    (hrun : heap.run calls = .ok refs final)
    (hkeep : ∀ call ∈ calls, call ≠ .releaseAll) :
    final.allocatedCells + final.stats.totalReclaimed =
      heap.allocatedCells + heap.stats.totalReclaimed +
        calls.countP (·.object?.isSome) := by
  induction calls generalizing heap refs with
  | nil =>
      cases hrun
      rfl
  | cons call calls ih =>
      obtain ⟨ref?, after, rest, hcall, hrest, -⟩ := run_cons_eq_ok hrun
      have hfirst := HeapCall.perform_balanced hheap hcall
        (hkeep call List.mem_cons_self)
      have hothers := ih (HeapCall.perform_coherent hheap hcall) hrest
        fun other hother => hkeep other (List.mem_cons_of_mem _ hother)
      rw [List.countP_cons]
      omega

/-- The faults of a run are those of its calls. -/
theorem run_eq_error (hheap : heap.Coherent) {fault : Fault}
    (hrun : heap.run calls = .error fault final) :
    (∃ sizeClass, fault = .unknownSizeClass sizeClass) ∨
      (∃ sizeClass limit, fault = .outOfMemory sizeClass limit) ∨
      (∃ sizeClass, fault = .unaddressableCells sizeClass) := by
  induction calls generalizing heap with
  | nil => cases hrun
  | cons call calls ih =>
      rw [run] at hrun
      cases hcall : call.perform heap with
      | error found after =>
          rw [hcall] at hrun
          cases hrun
          exact HeapCall.perform_eq_error hheap hcall
      | ok ref? after =>
          rw [hcall] at hrun
          exact ih (HeapCall.perform_coherent hheap hcall)
            (Outcome.map_eq_error hrun)

end Runs

/-! ## The main theorem -/

/-- A coherent heap passes its check. -/
theorem Coherent.verify {heap : Heap} (hheap : heap.Coherent) :
    heap.verify = .ok () := by
  refine verify_eq_ok fun pool hpool => ?_
  obtain ⟨free, hfree⟩ := hheap.toSound.exists_free hpool
  exact hfree.accounted

/-- Every index of a sound pool fits into a reference. -/
theorem index_fits {pool : Pool} {sizeClass : Nat}
    (hpool : pool.Sound sizeClass) :
    ∀ index < pool.cells.size, (BitVec.ofNat 32 index).toNat = index := by
  intro index hindex
  have hfew := hpool.addressable
  rw [pool.size_cells] at hindex
  unfold Pool.totalCells at hfew
  rw [BitVec.toNat_ofNat, Nat.mod_eq_of_lt (by omega)]

/-- Once there is room, the next allocation finds a free cell to take. -/
theorem Roomy.take_counted {heap room : Heap} {sizeClass : Nat} {pool : Pool}
    (hroom : Roomy heap sizeClass room) (hheap : heap.Coherent)
    (hpool : room.pools[sizeClass]? = some pool) (object : HeapObject) :
    (∃ ref, pool.nextRef = .ok ref) ∧
      (pool.take object).freeCells + 1 = pool.freeCells := by
  obtain ⟨index, hhead⟩ := hroom.exists_freeHead hpool
  obtain ⟨free, hfree⟩ := ((hroom.coherent hheap).pools _ pool hpool).coherent
  obtain ⟨rest, generation, next, rfl, hcell, -⟩ := hfree.exists_head hhead
  constructor
  · rw [Pool.nextRef, hhead]
    simp only [hcell]
    exact ⟨_, rfl⟩
  · rw [(hfree.take object).freeCells_eq, hfree.freeCells_eq]
    rfl

/-- **Every run keeps the pools coherent.**  Valid settings make a heap, and
after every run of calls on it that completes, the free list of each pool visits
every free cell once, the counters agree with the cells, and nothing is marked.
So the check passes; the next allocation that gets room finds a free cell, and
its counter does not drop below zero, nor does that of the next collection; and
every index fits into a reference.  Without a release, the objects stored are
those still allocated and those reclaimed.  A run fails only if a size class is
unknown or a pool may not grow. -/
theorem run_keeps_coherent (settings : HeapSettings)
    (hvalid : settings.validate = .ok ()) :
    ∃ start, create settings = .ok start ∧ ∀ calls,
      (∀ refs heap, start.run calls = .ok refs heap →
        (∀ (sizeClass : Nat) pool, heap.pools[sizeClass]? = some pool →
          (∃ free, pool.Coherent free) ∧ pool.Unmarked ∧
          ∀ index < pool.cells.size, (BitVec.ofNat 32 index).toNat = index) ∧
        heap.verify = .ok () ∧
        (∀ sizeClass object roots room,
          heap.makeRoom sizeClass object roots = .ok () room →
          ∀ pool, room.pools[sizeClass]? = some pool →
            (∃ ref, pool.nextRef = .ok ref) ∧
            (pool.take object).freeCells + 1 = pool.freeCells ∧
            ∀ index < pool.cells.size, (BitVec.ofNat 32 index).toNat = index) ∧
        (∀ pending (sizeClass : Nat) pool,
          (heap.trace pending).pools[sizeClass]? = some pool →
          pool.sweep.1.allocatedCells + pool.sweep.2 = pool.allocatedCells) ∧
        ((∀ call ∈ calls, call ≠ .releaseAll) →
          calls.countP (·.object?.isSome) =
            heap.allocatedCells + heap.stats.totalReclaimed)) ∧
      (∀ fault heap, start.run calls = .error fault heap →
        (∃ sizeClass, fault = .unknownSizeClass sizeClass) ∨
        (∃ sizeClass limit, fault = .outOfMemory sizeClass limit) ∨
        (∃ sizeClass, fault = .unaddressableCells sizeClass)) := by
  obtain ⟨start, hcreate, hstart, hstats, -, hnone⟩ := exists_create hvalid
  refine ⟨start, hcreate, fun calls => ⟨fun refs heap hrun => ?_,
    fun fault heap hrun => run_eq_error hstart hrun⟩⟩
  have hheap := run_coherent hstart hrun
  refine ⟨?_, hheap.verify, ?_, ?_, fun hkeep => ?_⟩
  · intro sizeClass pool hpool
    have hsound := hheap.pools sizeClass pool hpool
    exact ⟨hsound.coherent, hheap.unmarked sizeClass pool hpool,
      index_fits hsound⟩
  · intro sizeClass object roots room hmake pool hpool
    rcases heap.makeRoom_cases sizeClass object roots with
      ⟨_, hroom, heq⟩ | ⟨fault, -, -, heq⟩
    · cases heq.symm.trans hmake
      have hprepared := hheap.prepared sizeClass object roots
      obtain ⟨hnext, htaken⟩ := hroom.take_counted hprepared hpool object
      exact ⟨hnext, htaken,
        index_fits ((hroom.coherent hprepared).pools sizeClass pool hpool)⟩
    · cases heq.symm.trans hmake
  · intro pending sizeClass pool hpool
    obtain ⟨free, hfree⟩ :=
      ((hheap.toSound.trace pending).pools sizeClass pool hpool).coherent
    exact Pool.allocatedCells_sweep hfree
  · have hbalanced := run_balanced hstart hrun hkeep
    rw [hnone, hstats] at hbalanced
    have hzero : ({} : CollectionStats).totalReclaimed = 0 := rfl
    omega

/-- Superblocks of two cells. -/
def pairSettings : HeapSettings where
  cellSizes := [32]
  superblockSize := 64

/-- Fills a superblock, grows, reclaims everything and starts again. -/
def pairCalls : List HeapCall :=
  [.allocateIn 0 ⟨.null, []⟩ [],
    .allocateIn 0 ⟨.list [firstRef 0], []⟩ [firstRef 0],
    .allocateIn 0 ⟨.null, []⟩ [firstRef 1],
    .collect [],
    .allocateIn 0 ⟨.list [firstRef 1], []⟩ []]

/-- The run completes. -/
theorem exists_run_pairCalls {start : Heap}
    (hcreate : create pairSettings = .ok start) :
    ∃ refs heap, start.run pairCalls = .ok refs heap := by
  have hstart : create pairSettings =
      .ok ⟨pairSettings, #[.empty 0 32 64], {}⟩ := rfl
  cases hstart.symm.trans hcreate
  have hcompletes : (match run ⟨pairSettings, #[.empty 0 32 64], {}⟩ pairCalls with
      | .ok _ _ => true
      | .error _ _ => false) = true := by decide +kernel
  split at hcompletes
  · next refs heap hrun => exact ⟨refs, heap, hrun⟩
  · cases hcompletes

theorem ne_releaseAll_of_mem_pairCalls :
    ∀ call ∈ pairCalls, call ≠ .releaseAll := by
  intro call hcall
  simp only [pairCalls, List.mem_cons, List.not_mem_nil, or_false] at hcall
  rcases hcall with rfl | rfl | rfl | rfl | rfl <;> exact HeapCall.noConfusion

/-- Four objects are stored, before and after a collection. -/
theorem run_keeps_coherent_pairSettings :
    pairSettings.validate = .ok () ∧ ∃ start refs heap,
      create pairSettings = .ok start ∧
      start.run pairCalls = .ok refs heap ∧ heap.verify = .ok () ∧
      4 = heap.allocatedCells + heap.stats.totalReclaimed := by
  obtain ⟨start, hcreate, hruns⟩ := run_keeps_coherent pairSettings rfl
  obtain ⟨refs, heap, hrun⟩ := exists_run_pairCalls hcreate
  obtain ⟨-, hverify, -, -, hcounted⟩ := (hruns pairCalls).1 refs heap hrun
  exact ⟨rfl, start, refs, heap, hcreate, hrun, hverify,
    hcounted ne_releaseAll_of_mem_pairCalls⟩

end Heap

end LazyDispatch
