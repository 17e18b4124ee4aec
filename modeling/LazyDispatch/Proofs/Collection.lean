import LazyDispatch.Proofs.Tracing
import Mathlib.Data.Set.Card

/-!
# Collections are exact

A collection keeps every cell that the roots reach, generation and object
included, and frees all other live cells.  `collect_exact` states this for every
coherent heap, with the number of cells reclaimed, and for every order in which
a tracer may visit roots and references.

The argument has two halves that meet in the marks: tracing marks the reachable
cells (`LazyDispatch.Proofs.Tracing`), and a sweep frees the live cells without
a mark (`LazyDispatch.Proofs.FreeList`).
-/

namespace LazyDispatch

namespace Heap

variable {roots : List Ref}

variable {heap : Heap} {address : Address}

/-- The cell at an address holds an object. -/
def HoldsObject (heap : Heap) (address : Address) : Prop :=
  ∃ generation object, heap.content? address = some (generation, some object)

/-! ## Soundness through a collection -/

/-- A heap that is not being collected has no marks. -/
theorem Coherent.not_markedAt (hheap : heap.Coherent)
    (address : Address) : ¬ heap.MarkedAt address := by
  intro hmark
  obtain ⟨cell, hcell, hmarked⟩ := hmark
  obtain ⟨pool, hpool, hcell⟩ := exists_pool_of_cellAt? hcell
  rw [hheap.unmarked _ pool hpool _ cell hcell] at hmarked
  cases hmarked

/-- A visit keeps a heap sound. -/
theorem Sound.visit (hheap : heap.Sound) (ref : Ref) :
    (heap.visit ref).2.Sound := by
  rcases heap.visit_cases ref with ⟨object, -, hvisit⟩ | ⟨-, hvisit, -⟩ | ⟨-, hvisit⟩
  · rw [hvisit]
    exact hheap.mark ref
  · rw [hvisit]
    exact hheap
  · rw [hvisit]
    exact ⟨hheap.size_le, hheap.pools⟩

/-- Tracing keeps a heap sound. -/
theorem Sound.trace (hheap : heap.Sound) (pending : List Ref) :
    (heap.trace pending).Sound := by
  fun_induction Heap.trace heap pending with
  | case1 heap => exact hheap
  | case2 heap ref pending found visited hvisit huntraced ih =>
      have hvisited := hheap.visit ref
      rw [hvisit] at hvisited
      exact ih hvisited

/-- A sweep makes a sound heap coherent. -/
theorem Sound.sweep (hheap : heap.Sound) :
    heap.sweep.2.Coherent := by
  have hpools : ∀ (sizeClass : Nat) (pool : Pool),
      heap.sweep.2.pools[sizeClass]? = some pool →
      ∃ old, heap.pools[sizeClass]? = some old ∧ pool = old.sweep.1 := by
    intro sizeClass pool hpool
    simp only [Heap.sweep, Array.getElem?_map] at hpool
    obtain ⟨swept, hswept, rfl⟩ := Option.map_eq_some_iff.mp hpool
    obtain ⟨old, hold, rfl⟩ := Option.map_eq_some_iff.mp hswept
    exact ⟨old, hold, rfl⟩
  refine ⟨⟨?_, ?_⟩, ?_⟩
  · simpa [Heap.sweep] using hheap.size_le
  · intro sizeClass pool hpool
    obtain ⟨old, hold, rfl⟩ := hpools sizeClass pool hpool
    exact (hheap.pools sizeClass old hold).sweep
  · intro sizeClass pool hpool
    obtain ⟨old, hold, rfl⟩ := hpools sizeClass pool hpool
    obtain ⟨free, hfree⟩ := (hheap.pools sizeClass old hold).coherent
    exact hfree.unmarked_sweep

/-- A collection keeps a heap coherent. -/
theorem Coherent.collect (hheap : heap.Coherent)
    (roots : List Ref) : (heap.collect roots).2.Coherent :=
  (hheap.toSound.trace roots.reverse).sweep

/-! ## Contents after a collection -/

/-- The tracer of a collection, run to its end. -/
theorem tracing_collect (hheap : heap.Coherent)
    (roots : List Ref) :
    Tracing heap roots ([], heap.trace roots.reverse) :=
  (tracing_start hheap.not_markedAt fun _ => List.mem_reverse).run
    (run_trace heap roots.reverse)

/-- Tracing changes no content. -/
theorem content?_trace (hheap : heap.Coherent)
    (roots : List Ref) :
    (heap.trace roots.reverse).content? = heap.content? :=
  content?_eq_of_unmark_eq (tracing_collect hheap roots).unmark_eq

/-- A collection keeps the settings, and the statistics count it. -/
theorem collect_settings_stats (hheap : heap.Coherent)
    (roots : List Ref) :
    (heap.collect roots).2.settings = heap.settings ∧
      (heap.collect roots).2.stats = {
        collections := heap.stats.collections + 1
        lastReclaimed := (heap.collect roots).1
        totalReclaimed := heap.stats.totalReclaimed + (heap.collect roots).1
        staleTraced := (heap.collect roots).2.stats.staleTraced } := by
  have hunmark := (tracing_collect hheap roots).unmark_eq
  have hsettings := congrArg Heap.settings hunmark
  have hstats := congrArg Heap.stats hunmark
  simp only [unmark, CollectionStats.mk.injEq] at hsettings hstats
  obtain ⟨hcollections, -, hreclaimed, -⟩ := hstats
  refine ⟨hsettings, ?_⟩
  rw [← hcollections, ← hreclaimed]
  rfl

/-- **What the tracer notes:** a collection comes upon a stale reference exactly
if one is among the roots or in a reachable object. -/
theorem staleTraced_collect (hheap : heap.Coherent)
    (roots : List Ref) :
    (heap.collect roots).2.stats.staleTraced = true ↔
      heap.stats.staleTraced = true ∨ heap.ComesUponStale roots :=
  (tracing_collect hheap roots).staleTraced_iff

/-- What a collection does to the cell at an address, told from its content and
from whether it is reachable. -/
theorem content?_collect (hheap : heap.Coherent)
    (roots : List Ref) (address : Address) :
    ∃ reached : Bool, (reached = true ↔ heap.Reachable roots address) ∧
      (heap.collect roots).2.content? address =
        (heap.content? address).map fun content =>
          if content.2.isSome && !reached then (content.1.next, none)
          else content := by
  have hmarked := (tracing_collect hheap roots).markedAt_iff address
  rw [collect, content?_sweep (hheap.toSound.trace _),
    ← content?_trace hheap roots, content?]
  unfold MarkedAt at hmarked
  cases hcell : (heap.trace roots.reverse).cellAt? address with
  | none =>
      rw [hcell] at hmarked
      exact ⟨false, by simpa using hmarked, rfl⟩
  | some cell =>
      rw [hcell] at hmarked
      exact ⟨cell.isMarked, by simpa using hmarked, rfl⟩

/-- A reachable cell is left alone. -/
theorem content?_collect_of_reachable (hheap : heap.Coherent)
    (hreach : heap.Reachable roots address) :
    (heap.collect roots).2.content? address = heap.content? address := by
  obtain ⟨reached, hreached, hcontent⟩ := content?_collect hheap roots address
  rw [hcontent, hreached.mpr hreach]
  simp

/-- A reachable object is left alone. -/
theorem get?_collect_of_reachable (hheap : heap.Coherent) {ref : Ref} {object : HeapObject}
    (hreach : heap.Reachable roots ref.address)
    (hget : heap.get? ref = some object) :
    (heap.collect roots).2.get? ref = some object := by
  rw [get?_eq_some_iff, content?_collect_of_reachable hheap hreach]
  exact get?_eq_some_iff.mp hget

/-- A cell without an object is left alone. -/
theorem content?_collect_of_not_holdsObject
    (hheap : heap.Coherent) (roots : List Ref)
    (hempty : ¬ heap.HoldsObject address) :
    (heap.collect roots).2.content? address = heap.content? address := by
  obtain ⟨reached, -, hcontent⟩ := content?_collect hheap roots address
  rw [hcontent]
  cases hold : heap.content? address with
  | none => rfl
  | some content =>
      obtain ⟨generation, object⟩ := content
      cases object with
      | none => rfl
      | some object => exact absurd ⟨generation, object, hold⟩ hempty

/-- A live cell that is not reachable is reclaimed. -/
theorem content?_collect_of_unreachable (hheap : heap.Coherent) {generation : Generation}
    {object : HeapObject}
    (hlive : heap.content? address = some (generation, some object))
    (hreach : ¬ heap.Reachable roots address) :
    (heap.collect roots).2.content? address = some (generation.next, none) := by
  obtain ⟨reached, hreached, hcontent⟩ := content?_collect hheap roots address
  have hfalse : reached = false := by
    rw [← Bool.not_eq_true, hreached]
    exact hreach
  rw [hcontent, hlive, hfalse]
  rfl

/-! ## Counting what is reclaimed -/

/-- The addresses of the live cells without a mark, pool by pool. -/
def garbage (heap : Heap) : List Address :=
  (List.range heap.pools.size).flatMap fun sizeClass =>
    (heap.pools[sizeClass]?.elim [] fun pool =>
      pool.garbage pool.cells.size).map (Address.mk sizeClass)

theorem mem_garbage :
    address ∈ heap.garbage ↔ ∃ generation object,
      heap.cellAt? address = some ⟨generation, .live object false⟩ := by
  obtain ⟨sizeClass, index⟩ := address
  rw [garbage, List.mem_flatMap, cellAt?_eq_bind]
  constructor
  · intro hfound
    obtain ⟨otherClass, -, hmem⟩ := hfound
    obtain ⟨other, hother, heq⟩ := List.mem_map.mp hmem
    cases heq
    cases hpool : heap.pools[sizeClass]? with
    | none =>
        rw [hpool] at hother
        cases hother
    | some pool =>
        rw [hpool] at hother
        exact Pool.mem_garbage.mp hother
  · intro hlive
    obtain ⟨generation, object, hcell⟩ := hlive
    obtain ⟨pool, hpool, hcell⟩ := Option.bind_eq_some_iff.mp hcell
    refine ⟨sizeClass, List.mem_range.mpr ?_, List.mem_map_of_mem ?_⟩
    · exact (Array.getElem?_eq_some_iff.mp hpool).1
    · rw [hpool]
      exact Pool.mem_garbage.mpr ⟨generation, object, hcell⟩

theorem nodup_garbage (heap : Heap) : heap.garbage.Nodup := by
  refine List.nodup_flatMap.mpr ⟨fun sizeClass _ => ?_, ?_⟩
  · refine List.Nodup.map (fun _ _ heq => congrArg Address.index heq) ?_
    cases heap.pools[sizeClass]? with
    | none => exact List.nodup_nil
    | some pool => exact Pool.nodup_garbage pool _
  · refine List.nodup_range.imp fun {first second} hne address hfirst hsecond => ?_
    obtain ⟨_, _, rfl⟩ := List.mem_map.mp hfirst
    obtain ⟨_, _, heq⟩ := List.mem_map.mp hsecond
    exact hne (congrArg Address.sizeClass heq).symm

/-- A sum over all items is a sum over their positions. -/
theorem total_eq_sum_range {α : Type} (amount : α → Nat) (items : Array α) :
    total amount items =
      ((List.range items.size).map fun index => items[index]?.elim 0 amount).sum := by
  obtain ⟨items⟩ := items
  rw [total, List.foldr_toArray]
  simp only [List.size_toArray, List.getElem?_toArray]
  induction items with
  | nil => rfl
  | cons first rest ih =>
      rw [List.foldr_cons, ih, List.length_cons, List.range_succ_eq_map,
        List.map_cons, List.sum_cons, List.map_map]
      rfl

/-- A sweep of a sound heap reclaims exactly the garbage. -/
theorem sweep_fst (hheap : heap.Sound) :
    heap.sweep.1 = heap.garbage.length := by
  have hpools : total Prod.snd (heap.pools.map Pool.sweep) =
      total (fun pool => (pool.garbage pool.cells.size).length) heap.pools := by
    rw [total_map]
    refine total_congr fun pool hpool => ?_
    obtain ⟨free, hfree⟩ := hheap.exists_free hpool
    exact Pool.sweep_snd hfree
  show total Prod.snd (heap.pools.map Pool.sweep) = _
  rw [hpools, total_eq_sum_range, garbage, List.length_flatMap]
  refine congrArg List.sum (List.map_congr_left fun sizeClass _ => ?_)
  rw [List.length_map]
  cases heap.pools[sizeClass]? <;> rfl

/-- A collection reclaims as many cells as hold an object that is not
reachable. -/
theorem collect_fst (hheap : heap.Coherent) (roots : List Ref) :
    (heap.collect roots).1 =
      {address | heap.HoldsObject address ∧
        ¬ heap.Reachable roots address}.ncard := by
  have htracing := tracing_collect hheap roots
  have hset : {address | heap.HoldsObject address ∧
      ¬ heap.Reachable roots address} =
      ((heap.trace roots.reverse).garbage.toFinset : Set Address) := by
    ext address
    rw [Set.mem_ofPred_eq, List.coe_toFinset, Set.mem_ofPred_eq, mem_garbage,
      ← htracing.markedAt_iff address, HoldsObject, ← content?_trace hheap roots,
      content?, MarkedAt]
    cases (heap.trace roots.reverse).cellAt? address with
    | none => simp
    | some cell =>
        obtain ⟨generation, state⟩ := cell
        cases state <;> simp [Cell.content, Cell.object?, Cell.isMarked]
  rw [hset, Set.ncard_coe_finset,
    List.toFinset_card_of_nodup (nodup_garbage _), collect,
    sweep_fst (hheap.toSound.trace _)]

/-! ## The main theorem -/

/-- **Collections are exact.**  A live cell keeps its generation and object if
and only if it is reachable; otherwise it is freed, with the next generation.
Free cells keep their generation, and no cell comes or goes.  The cells freed
are counted.

The last three parts are about a tracer that takes pending references in any
order and may push a reference any number of times: it always stops, it stops
only when nothing is pending, and the collection that it leads to is the same. -/
theorem collect_exact {heap : Heap} (hheap : heap.Coherent) (roots : List Ref) :
    (∀ address generation object,
      heap.content? address = some (generation, some object) →
      ((heap.collect roots).2.content? address =
          some (generation, some object) ↔ heap.Reachable roots address) ∧
      (¬ heap.Reachable roots address → ∃ next : Generation,
        (heap.collect roots).2.content? address = some (next, none) ∧
        next.toNat = (generation.toNat + 1) % 2 ^ 24)) ∧
    (∀ address generation,
      heap.content? address = some (generation, none) →
      (heap.collect roots).2.content? address = some (generation, none)) ∧
    (∀ address, heap.content? address = none →
      (heap.collect roots).2.content? address = none) ∧
    (heap.collect roots).1 = {address | heap.HoldsObject address ∧
      ¬ heap.Reachable roots address}.ncard ∧
    (heap.collect roots).2.stats.lastReclaimed = (heap.collect roots).1 ∧
    (heap.collect roots).2.stats.totalReclaimed =
      heap.stats.totalReclaimed + (heap.collect roots).1 ∧
    WellFounded (fun after before => TraceStep before after) ∧
    (∀ pending traced, pending ≠ [] →
      ∃ after, TraceStep (pending, traced) after) ∧
    (∀ pending traced, (∀ ref, ref ∈ pending ↔ ref ∈ roots) →
      Relation.ReflTransGen TraceStep (pending, heap) ([], traced) →
      traced.sweep = heap.collect roots) := by
  have hstats := (collect_settings_stats hheap roots).2
  refine ⟨fun address generation object hlive => ⟨⟨fun hkept => ?_, ?_⟩, ?_⟩,
    fun address generation hfree => ?_, fun address hnone => ?_,
    collect_fst hheap roots, by rw [hstats], by rw [hstats],
    wellFounded_traceStep, ?_, ?_⟩
  · refine Classical.byContradiction fun hreach => ?_
    rw [content?_collect_of_unreachable hheap hlive hreach] at hkept
    simp at hkept
  · intro hreach
    rw [content?_collect_of_reachable hheap hreach, hlive]
  · intro hreach
    refine ⟨_, content?_collect_of_unreachable hheap hlive hreach, ?_⟩
    simp [Generation.next, BitVec.toNat_add]
  · rw [content?_collect_of_not_holdsObject hheap roots, hfree]
    intro hholds
    obtain ⟨other, object, hlive⟩ := hholds
    cases hfree.symm.trans hlive
  · rw [content?_collect_of_not_holdsObject hheap roots, hnone]
    intro hholds
    obtain ⟨other, object, hlive⟩ := hholds
    cases hnone.symm.trans hlive
  · intro pending traced hpending
    cases pending with
    | nil => exact absurd rfl hpending
    | cons ref rest => exact ⟨_, .visit (List.Perm.refl _) fun _ => Iff.rfl⟩
  · intro pending traced hpending hrun
    have hreverse : ∀ ref, ref ∈ pending ↔ ref ∈ roots.reverse :=
      fun ref => (hpending ref).trans List.mem_reverse.symm
    rw [collect, eq_trace_of_run hheap.not_markedAt hreverse hrun]

/-- The reference to a cell of the first pool that was never reclaimed. -/
def firstRef (index : Nat) : Ref :=
  .ofParts 0 (.ofNat 32 index) 0

/-- Two lists that hold each other, an object that nothing holds, and a free
cell. -/
def loopHeap : Heap where
  settings := { cellSizes := [32], superblockSize := 128 }
  pools := #[{
    sizeClass := 0
    cellSize := 32
    cellsPerSuperblock := 4
    superblocks := 1
    cells := #[⟨0, .live ⟨.list [firstRef 1], []⟩ false⟩,
      ⟨0, .live ⟨.list [firstRef 0], []⟩ false⟩,
      ⟨0, .live ⟨.null, []⟩ false⟩, ⟨0, .free none⟩]
    freeHead := some 3
    freeCells := 1
    allocatedCells := 3
    size_cells := rfl }]
  stats := {}

theorem coherent_loopHeap : loopHeap.Coherent := by
  refine ⟨⟨by decide, ?_⟩, ?_⟩
  · intro sizeClass pool hpool
    cases sizeClass with
    | zero =>
        cases hpool
        exact ⟨Pool.exists_coherent_of_verify rfl, rfl, by decide, by decide⟩
    | succ sizeClass => cases hpool
  · intro sizeClass pool hpool index cell hcell
    cases sizeClass with
    | zero =>
        cases hpool
        rcases index with _ | _ | _ | _ | index <;> cases hcell <;> rfl
    | succ sizeClass => cases hpool

/-- In a cycle that a root reaches every cell is kept. -/
theorem collect_exact_loopHeap :
    loopHeap.Coherent ∧
      (loopHeap.collect [firstRef 0]).2.content? ⟨0, 1⟩ =
        some (0, some ⟨.list [firstRef 0], []⟩) := by
  refine ⟨coherent_loopHeap, ?_⟩
  refine ((collect_exact coherent_loopHeap [firstRef 0]).1 ⟨0, 1⟩ 0
    ⟨.list [firstRef 0], []⟩ rfl).1.mpr ?_
  have hroot : loopHeap.Reachable [firstRef 0] (firstRef 0).address :=
    .root List.mem_cons_self rfl
  have hedge : loopHeap.Reachable [firstRef 0] (firstRef 1).address :=
    .edge hroot rfl List.mem_cons_self rfl
  exact hedge

end Heap

end LazyDispatch
