import LazyDispatch.Proofs.Aliasing
import Mathlib.Algebra.Order.BigOperators.Group.Finset

/-!
# Generations that do not come round

The generation of a cell counts its reclamations up to `2 ^ 24`, and the
statistics of the heap count the reclamations of all cells together without a
bound.  Between two states of a heap no generation has come round exactly if the
cells' generations, taken together, have advanced by as much as the statistics:
this is visible in the two states alone.  For every run of calls from the one
state to the other it means that no cell was reclaimed `2 ^ 24` times
(`neverWraps_iff`).
-/

namespace LazyDispatch.Heap

variable {address : Address} {cells : Finset Address}

/-- The addresses of all cells. -/
def addresses (heap : Heap) : Finset Address :=
  (Finset.range heap.pools.size).biUnion fun sizeClass =>
    (Finset.range (heap.pools[sizeClass]?.elim 0 (·.cells.size))).image (Address.mk sizeClass)

/-- How far the generation of a cell has advanced, going round if it has to. -/
def advance (before after : Heap) (address : Address) : Nat :=
  (after.generationAt address - before.generationAt address).toNat

/-- No generation has come round: the generations account for all reclamations
in between. -/
def NeverWraps (before after : Heap) : Prop :=
  after.stats.totalReclaimed =
    before.stats.totalReclaimed + ∑ address ∈ after.addresses, before.advance after address

instance (before after : Heap) : Decidable (before.NeverWraps after) :=
  inferInstanceAs (Decidable (_ = _))

theorem mem_addresses {heap : Heap} :
    address ∈ heap.addresses ↔ ∃ content, heap.content? address = some content := by
  obtain ⟨sizeClass, index⟩ := address
  have hcontent : heap.content? ⟨sizeClass, index⟩ =
      (heap.pools[sizeClass]?.bind (·.cells[index]?)).map Cell.content := by
    rw [content?, cellAt?_eq_bind]
  simp only [addresses, Finset.mem_biUnion, Finset.mem_image, Finset.mem_range, Address.mk.injEq]
  rw [hcontent]
  constructor
  · intro hmem
    obtain ⟨_, -, _, hindex, hclass, hplace⟩ := hmem
    rw [hclass, hplace] at hindex
    cases hpool : heap.pools[sizeClass]? with
    | none =>
        rw [hpool] at hindex
        exact absurd hindex (Nat.not_lt_zero _)
    | some pool =>
        rw [hpool] at hindex
        have hcell : pool.cells[index]? = some pool.cells[index] := Array.getElem?_eq_getElem hindex
        rw [Option.bind_some, hcell]
        exact ⟨_, rfl⟩
  · intro hsome
    obtain ⟨content, hcontent⟩ := hsome
    obtain ⟨cell, hcell, -⟩ := Option.map_eq_some_iff.mp hcontent
    obtain ⟨pool, hpool, hcell⟩ := Option.bind_eq_some_iff.mp hcell
    refine ⟨sizeClass, (Array.getElem?_eq_some_iff.mp hpool).1, index, ?_, rfl, rfl⟩
    rw [hpool]
    exact (Array.getElem?_eq_some_iff.mp hcell).1

/-! ## Counting reclamations -/

section Counting

variable {heap after final : Heap} {call : HeapCall} {calls : List HeapCall} {ref? : Option Ref}
  {refs : List Ref}

/-- A reclaimed cell held an object. -/
theorem isHeld_of_reclaims
    (hreclaims : call.reclaims heap address = true) :
    heap.isHeld address = true :=
  (Bool.and_eq_true_iff.mp hreclaims).1

/-- No cell goes away, unless superblocks are given back. -/
theorem addresses_subset_perform (hheap : heap.Coherent)
    (hok : call.perform heap = .ok ref? after) (hkeep : call ≠ .releaseAll) :
    heap.addresses ⊆ after.addresses := by
  intro address hmem
  rw [mem_addresses] at hmem ⊢
  obtain ⟨content, hcontent⟩ := hmem
  have hcollected : ∃ content, (call.collected heap).content? address = some content := by
    rcases HeapCall.content?_collected hheap call address with
      ⟨-, hsame⟩ | ⟨-, generation, object, -, hnew⟩
    · exact ⟨content, hsame.trans hcontent⟩
    · exact ⟨_, hnew⟩
  rcases HeapCall.perform_cases hheap hok with
    ⟨sizeClass, object, room, ref, -, -, -, hroom, hplaced⟩ |
    ⟨-, -, ⟨roots, -, rfl⟩ | ⟨ref, change, -, rfl⟩ | ⟨hrelease, -⟩⟩
  · have hroomy : ∃ content, room.content? address = some content := by
      rcases hroom.content? address with hsame | ⟨hnone, hnew⟩
      · rw [hsame]
        exact hcollected
      · exact ⟨_, hnew⟩
    rw [hplaced.content?]
    split
    · exact ⟨_, rfl⟩
    · exact hroomy
  · exact hcollected
  · rw [content?_update]
    split
    · exact ⟨_, by rw [hcontent, Option.map_some]⟩
    · exact ⟨content, hcontent⟩
  · exact absurd hrelease hkeep

theorem addresses_subset_run (hheap : heap.Coherent) (hrun : heap.run calls = .ok refs final)
    (hkeep : ∀ call ∈ calls, call ≠ .releaseAll) : heap.addresses ⊆ final.addresses := by
  induction calls generalizing heap refs with
  | nil =>
      cases hrun
      exact Finset.Subset.refl _
  | cons call calls ih =>
      obtain ⟨ref?, after, rest, hcall, hrest, -⟩ := run_cons_eq_ok hrun
      have hfirst := addresses_subset_perform hheap hcall (hkeep call List.mem_cons_self)
      have hothers := ih (HeapCall.perform_coherent hheap hcall) hrest
        fun other hother => hkeep other (List.mem_cons_of_mem _ hother)
      exact hfirst.trans hothers

/-- A call reclaims what its collection counts, among any cells that include
all. -/
theorem totalReclaimed_collected (hheap : heap.Coherent) (call : HeapCall)
    (hcells : heap.addresses ⊆ cells) :
    (call.collected heap).stats.totalReclaimed = heap.stats.totalReclaimed +
      ∑ address ∈ cells, (call.reclaims heap address).toNat := by
  rcases call.collected_cases heap with hsame | ⟨roots, hcollect⟩
  · simp [HeapCall.reclaims, hsame]
  · have hreclaims : ∀ address, call.reclaims heap address = true ↔
        heap.HoldsObject address ∧ ¬ heap.Reachable roots address := by
      intro address
      obtain ⟨reached, hreached, hcontent⟩ := content?_collect hheap roots address
      rw [← hreached]
      unfold HeapCall.reclaims isHeld HoldsObject
      rw [hcollect, hcontent]
      cases heap.content? address with
      | none => simp
      | some content =>
          obtain ⟨generation, _ | object⟩ := content
          · simp
          · cases reached <;> simp
    have hset : {address | heap.HoldsObject address ∧ ¬ heap.Reachable roots address} =
        ((cells.filter fun address => call.reclaims heap address = true : Finset Address) :
          Set Address) := by
      ext address
      simp only [Set.mem_ofPred_eq, Finset.coe_filter, hreclaims, iff_and_self, and_imp]
      intro hholds _
      obtain ⟨generation, object, hlive⟩ := hholds
      exact hcells (mem_addresses.mpr ⟨_, hlive⟩)
    rw [hcollect, (collect_settings_stats hheap roots).2]
    show heap.stats.totalReclaimed + (heap.collect roots).1 = _
    rw [collect_fst hheap roots, hset, Set.ncard_coe_finset, Finset.card_filter]
    congr 1
    refine Finset.sum_congr rfl fun address _ => ?_
    cases call.reclaims heap address <;> rfl

/-- The statistics count the cells that a call reclaims. -/
theorem totalReclaimed_perform (hheap : heap.Coherent)
    (hok : call.perform heap = .ok ref? after) (hkeep : call ≠ .releaseAll)
    (hcells : heap.addresses ⊆ cells) :
    after.stats.totalReclaimed = heap.stats.totalReclaimed +
      ∑ address ∈ cells, (call.reclaims heap address).toNat := by
  rw [← totalReclaimed_collected hheap call hcells]
  rcases HeapCall.perform_cases hheap hok with
    ⟨sizeClass, object, room, ref, -, -, -, hroom, hplaced⟩ |
    ⟨-, -, ⟨roots, -, rfl⟩ | ⟨ref, change, rfl, rfl⟩ | ⟨hrelease, -⟩⟩
  · rw [hplaced.stats_eq, hroom.settings_stats.2]
  · rfl
  · rfl
  · exact absurd hrelease hkeep

theorem totalReclaimed_run (hheap : heap.Coherent)
    (hrun : heap.run calls = .ok refs final)
    (hkeep : ∀ call ∈ calls, call ≠ .releaseAll)
    (hcells : final.addresses ⊆ cells) :
    final.stats.totalReclaimed = heap.stats.totalReclaimed +
      ∑ address ∈ cells, heap.reclamations address calls := by
  induction calls generalizing heap refs with
  | nil =>
      cases hrun
      simp [reclamations]
  | cons call calls ih =>
      obtain ⟨ref?, after, rest, hcall, hrest, -⟩ := run_cons_eq_ok hrun
      have hlater : ∀ other ∈ calls, other ≠ .releaseAll :=
        fun other hother => hkeep other (List.mem_cons_of_mem _ hother)
      have hafter := HeapCall.perform_coherent hheap hcall
      have hall := (addresses_subset_run hheap hrun hkeep).trans hcells
      have hfirst := totalReclaimed_perform hheap hcall (hkeep call List.mem_cons_self) hall
      have hothers := ih hafter hrest hlater
      simp only [reclamations_cons hcall, Finset.sum_add_distrib]
      omega

/-- A cell that a run reclaims is there at the end. -/
theorem reclamations_eq_zero (hheap : heap.Coherent) (hrun : heap.run calls = .ok refs final)
    (hkeep : ∀ call ∈ calls, call ≠ .releaseAll)
    (hnone : address ∉ final.addresses) : heap.reclamations address calls = 0 := by
  induction calls generalizing heap refs with
  | nil => rfl
  | cons call calls ih =>
      obtain ⟨ref?, after, rest, hcall, hrest, -⟩ := run_cons_eq_ok hrun
      have hothers := ih (HeapCall.perform_coherent hheap hcall) hrest
        fun other hother => hkeep other (List.mem_cons_of_mem _ hother)
      have hfirst : call.reclaims heap address = false := by
        cases hreclaims : call.reclaims heap address with
        | false => rfl
        | true =>
            refine absurd (addresses_subset_run hheap hrun hkeep (mem_addresses.mpr ?_)) hnone
            have hheld := isHeld_of_reclaims hreclaims
            exact Option.isSome_iff_exists.mp
              (Option.isSome_of_any hheld)
      rw [reclamations_cons hcall, hfirst, hothers]
      rfl

/-- The advance of a generation is the number of reclamations, up to full
circles. -/
theorem advance_run (hheap : heap.Coherent)
    (hrun : heap.run calls = .ok refs final)
    (hkeep : ∀ call ∈ calls, call ≠ .releaseAll) (address : Address) :
    heap.advance final address = heap.reclamations address calls % 2 ^ 24 := by
  rw [advance, generationAt_run hheap hrun hkeep, BitVec.add_comm, BitVec.add_sub_cancel,
    BitVec.toNat_ofNat]

/-- **No generation comes round in a run exactly if every cell is reclaimed less
often than there are generations.** -/
theorem neverWraps_iff (hheap : heap.Coherent) (hrun : heap.run calls = .ok refs final)
    (hkeep : ∀ call ∈ calls, call ≠ .releaseAll) :
    heap.NeverWraps final ↔ ∀ address, heap.reclamations address calls < 2 ^ 24 := by
  have htotal := totalReclaimed_run hheap hrun hkeep (Finset.Subset.refl _)
  have hle : ∀ address ∈ final.addresses,
      heap.advance final address ≤ heap.reclamations address calls := by
    intro address _
    rw [advance_run hheap hrun hkeep]
    exact Nat.mod_le _ _
  unfold NeverWraps
  rw [htotal, Nat.add_left_cancel_iff, eq_comm, Finset.sum_eq_sum_iff_of_le hle]
  constructor
  · intro hsame address
    by_cases hmem : address ∈ final.addresses
    · have hmod := hsame address hmem
      rw [advance_run hheap hrun hkeep] at hmod
      exact hmod ▸ Nat.mod_lt _ (by decide)
    · rw [reclamations_eq_zero hheap hrun hkeep hmem]
      decide
  · intro hfew address _
    rw [advance_run hheap hrun hkeep]
    exact Nat.mod_eq_of_lt (hfew address)

end Counting

end LazyDispatch.Heap
