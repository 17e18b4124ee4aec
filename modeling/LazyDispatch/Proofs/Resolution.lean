import LazyDispatch.Proofs.Aliasing

/-!
# What resolves later

A reference that resolves after a call either resolved before it or is the one
that the call returned.  So a run makes no other references resolve than those
that it returns.

When all superblocks are given back, nothing resolves any more.  But the
generations are kept in the cells and go with them: a superblock that is made
later begins with the first generation again.  A reference from before resolves
once more while its cell, counted from then, has come to the generation of the
reference and holds an object; it is then one that an allocation has returned
for a second time.
-/

namespace LazyDispatch.Heap

/-! ## One call -/

section OneCall

variable {heap after : Heap} {ref other : Ref} {found : HeapObject}
  {call : HeapCall} {ref? : Option Ref}

theorem get?_of_collected (hheap : heap.Coherent) (call : HeapCall)
    (hget : (call.collected heap).get? ref = some found) :
    heap.get? ref = some found := by
  rw [get?_eq_some_iff] at hget ⊢
  rcases HeapCall.content?_collected hheap call ref.address with ⟨-, hsame⟩ | ⟨-, _, _, -, hnew⟩
  · exact hsame.symm.trans hget
  · rw [hnew] at hget
    simp at hget

theorem get?_of_update {change : HeapObject → HeapObject}
    (hget : (heap.update ref change).get? other = some found) :
    ∃ object, heap.get? other = some object ∧
      found = if ref = other then change object else object := by
  have hheld : ∃ object, heap.get? other = some object := by
    rw [get?_eq_some_iff, content?_update] at hget
    split at hget
    · obtain ⟨⟨generation, held⟩, hcontent, hsame⟩ := Option.map_eq_some_iff.mp hget
      split at hsame
      · obtain ⟨rfl, hheld⟩ := Prod.mk.inj hsame
        obtain ⟨object, rfl, -⟩ := Option.map_eq_some_iff.mp hheld
        exact ⟨object, get?_eq_some_iff.mpr hcontent⟩
      · cases hsame
        exact ⟨found, get?_eq_some_iff.mpr hcontent⟩
    · exact ⟨found, get?_eq_some_iff.mpr hget⟩
  obtain ⟨object, hold⟩ := hheld
  rw [get?_update hold] at hget
  exact ⟨object, hold, (Option.some.inj hget).symm⟩

theorem content?_releaseAll (heap : Heap) (address : Address) :
    heap.releaseAll.content? address = none := by
  rw [content?, cellAt?_eq_bind, releaseAll, Array.getElem?_map]
  cases heap.pools[address.sizeClass]? with
  | none => rfl
  | some pool => simp [Pool.release]

/-- Nothing resolves when all superblocks were given back. -/
theorem get?_releaseAll (heap : Heap) (ref : Ref) :
    heap.releaseAll.get? ref = none := by
  cases hget : heap.releaseAll.get? ref with
  | none => rfl
  | some found => cases (content?_releaseAll heap _).symm.trans (get?_eq_some_iff.mp hget)

/-- What resolves after a call is what the call stored, or an object from before
as the call amends it. -/
theorem get?_of_perform (hheap : heap.Coherent) (hok : call.perform heap = .ok ref? after)
    (hget : after.get? ref = some found) :
    ref? = some ref ∧ call.object? = some found ∨
      ∃ object, heap.get? ref = some object ∧ found = call.amend ref object := by
  rcases HeapCall.perform_cases hheap hok with
    ⟨sizeClass, stored, room, new, hstored, hsome, -, hroom, hplaced⟩ |
    ⟨-, -, ⟨roots, rfl, rfl⟩ | ⟨changed, change, rfl, rfl⟩ | ⟨-, rfl⟩⟩
  · rw [get?_eq_some_iff, hplaced.content?] at hget
    split at hget
    · next haddress =>
        obtain ⟨hgeneration, hfound⟩ := Prod.mk.inj (Option.some.inj hget)
        cases Ref.ext_address haddress hgeneration.symm
        exact .inl ⟨hsome, hfound ▸ hstored⟩
    · have hroomy : room.get? ref = some found := get?_eq_some_iff.mpr hget
      have hcollected : (call.collected heap).get? ref = some found := by
        rw [get?_eq_some_iff] at hroomy ⊢
        rcases hroom.content? ref.address with hsame | ⟨-, hnew⟩
        · exact hsame.symm.trans hroomy
        · rw [hnew] at hroomy
          simp at hroomy
      have hsame : call.amend ref found = found := by
        cases call with
        | update changed change => cases hstored
        | _ => rfl
      exact .inr ⟨found, get?_of_collected hheap call hcollected, hsame.symm⟩
  · exact .inr ⟨found, get?_of_collected hheap (.collect roots) hget, rfl⟩
  · exact .inr (get?_of_update hget)
  · rw [get?_releaseAll] at hget
    cases hget

end OneCall

/-! ## Runs -/

variable {heap final : Heap} {calls : List HeapCall} {refs : List Ref} {ref : Ref}

/-- A run makes no other references resolve than those that it returns. -/
theorem mem_of_get?_run (hheap : heap.Coherent)
    (hrun : heap.run calls = .ok refs final) (hnone : heap.get? ref = none)
    (hlive : final.isLive ref = true) : ref ∈ refs := by
  induction calls generalizing heap refs with
  | nil =>
      cases hrun
      rw [isLive, hnone] at hlive
      cases hlive
  | cons call calls ih =>
      obtain ⟨ref?, after, rest, hcall, hrest, rfl⟩ := run_cons_eq_ok hrun
      cases hafter : after.get? ref with
      | none =>
          exact List.mem_append_right _ (ih (HeapCall.perform_coherent hheap hcall) hrest hafter)
      | some found =>
          rcases get?_of_perform hheap hcall hafter with ⟨hreturned, -⟩ | ⟨object, hobject, -⟩
          · exact List.mem_append_left _ (Option.mem_toList.mpr hreturned)
          · cases hnone.symm.trans hobject

/-- A reference resolves if its cell is of its generation and holds an object. -/
theorem isLive_iff (heap : Heap) (ref : Ref) : heap.isLive ref = true ↔
    heap.isHeld ref.address = true ∧ heap.generationAt ref.address = ref.generation := by
  rw [isLive, isHeld, generationAt, Option.isSome_iff_exists]
  simp only [get?_eq_some_iff]
  cases heap.content? ref.address with
  | none => simp
  | some content =>
      obtain ⟨generation, _ | object⟩ := content <;> simp

/-! ## Giving all superblocks back -/

/-- **A reference comes back with its generation.**  When all superblocks were
given back, no reference resolves.  After any further calls that reclaim no cell
`2 ^ 24` times, a reference resolves exactly if its cell was reclaimed since
then as often as its generation says and holds an object.  Then one of these
calls has returned the same reference. -/
theorem released_reference_returns_with_generation (hheap : heap.Coherent)
    (hrun : heap.releaseAll.run calls = .ok refs final)
    (hkeep : ∀ call ∈ calls, call ≠ .releaseAll)
    (hfew : ∀ address, heap.releaseAll.reclamations address calls < 2 ^ 24)
    (ref : Ref) :
    heap.releaseAll.get? ref = none ∧
      (final.isLive ref = true ↔ final.isHeld ref.address = true ∧
        heap.releaseAll.reclamations ref.address calls = ref.generation.toNat) ∧
      (final.isLive ref = true → ref ∈ refs) := by
  have hreleased : heap.releaseAll.Coherent := hheap.releaseAll
  refine ⟨get?_releaseAll heap ref, ?_, mem_of_get?_run hreleased hrun (get?_releaseAll heap ref)⟩
  have hstart : heap.releaseAll.generationAt ref.address = 0#24 := by
    rw [generationAt, content?_releaseAll]
    rfl
  rw [isLive_iff, generationAt_run hreleased hrun hkeep, hstart, BitVec.zero_add]
  refine and_congr_right fun _ => ?_
  rw [← BitVec.toNat_inj, BitVec.toNat_ofNat, Nat.mod_eq_of_lt (hfew ref.address)]

/-- Whether a reference resolves after some calls, and again after all
superblocks were given back and other calls were made. -/
def resolvesTwice (heap : Heap) (earlier later : List HeapCall) (ref : Ref) :
    Bool :=
  match heap.run earlier with
  | .ok _ middle =>
    middle.isLive ref && match middle.releaseAll.run later with
      | .ok _ final => final.isLive ref
      | .error _ _ => false
  | .error _ _ => false

theorem exists_of_resolvesTwice {earlier later : List HeapCall}
    (htwice : heap.resolvesTwice earlier later ref = true) :
    ∃ before middle refs final, heap.run earlier = .ok before middle ∧ middle.isLive ref = true ∧
      middle.releaseAll.run later = .ok refs final ∧ final.isLive ref = true := by
  unfold resolvesTwice at htwice
  split at htwice
  · next before middle hearlier =>
      obtain ⟨hmiddle, hfinal⟩ := Bool.and_eq_true_iff.mp htwice
      split at hfinal
      · next refs final hlater =>
          exact ⟨before, middle, refs, final, hearlier, hmiddle, hlater, hfinal⟩
      · cases hfinal
  · cases htwice

/-- Stores an object, reclaims it and stores another one. -/
def storeTwice : List HeapCall :=
  [.allocateIn 0 ⟨.null, []⟩ [], .collect [], .allocateIn 0 ⟨.null, []⟩ []]

/-- The second object of a heap comes back with the second object that is stored
after all superblocks were given back. -/
theorem released_reference_returns_with_generation_storeTwice :
    ∃ start before heap refs final, create pairSettings = .ok start ∧
      start.run storeTwice = .ok before heap ∧ heap.isLive (.ofParts 0 0 1) = true ∧
      heap.releaseAll.run storeTwice = .ok refs final ∧
      (∀ call ∈ storeTwice, call ≠ .releaseAll) ∧
      (∀ address, heap.releaseAll.reclamations address storeTwice < 2 ^ 24) ∧
      heap.releaseAll.get? (.ofParts 0 0 1) = none ∧
      heap.releaseAll.reclamations (Ref.ofParts 0 0 1).address storeTwice = 1 ∧
      .ofParts 0 0 1 ∈ refs := by
  have htwice : resolvesTwice ⟨pairSettings, #[.empty 0 32 64], {}⟩ storeTwice storeTwice
      (.ofParts 0 0 1) = true := by decide +kernel
  obtain ⟨before, heap, refs, final, hbefore, hlive, hrun, hagain⟩ := exists_of_resolvesTwice htwice
  have hcreate : create pairSettings = .ok ⟨pairSettings, #[.empty 0 32 64], {}⟩ := rfl
  have hheap : heap.Coherent := run_coherent (coherent_of_create hcreate) hbefore
  have hkeep : ∀ call ∈ storeTwice, call ≠ .releaseAll := by
    intro call hcall
    simp only [storeTwice, List.mem_cons, List.not_mem_nil, or_false] at hcall
    rcases hcall with rfl | rfl | rfl <;> exact HeapCall.noConfusion
  have hfew : ∀ address, heap.releaseAll.reclamations address storeTwice < 2 ^ 24 :=
    fun address => Nat.lt_of_le_of_lt (reclamations_le _ address storeTwice) (by decide)
  obtain ⟨hnone, hiff, hmem⟩ :=
    released_reference_returns_with_generation hheap hrun hkeep hfew (.ofParts 0 0 1)
  exact ⟨_, before, heap, refs, final, hcreate, hbefore, hlive, hrun, hkeep, hfew, hnone,
    (hiff.mp hagain).2, hmem hagain⟩

/-- A reference of the first generation comes back with the first object that is
stored. -/
theorem released_reference_comes_back :
    ∃ start before heap refs final, create pairSettings = .ok start ∧
      start.run [.allocateIn 0 ⟨.null, []⟩ []] = .ok before heap ∧
      heap.isLive (firstRef 0) = true ∧ heap.releaseAll.isLive (firstRef 0) = false ∧
      heap.releaseAll.run [.allocateIn 0 ⟨.list [], []⟩ []] = .ok refs final ∧
      final.isLive (firstRef 0) = true := by
  have htwice : resolvesTwice ⟨pairSettings, #[.empty 0 32 64], {}⟩
      [.allocateIn 0 ⟨.null, []⟩ []] [.allocateIn 0 ⟨.list [], []⟩ []] (firstRef 0) = true := by
    decide +kernel
  obtain ⟨before, heap, refs, final, hbefore, hlive, hrun, hagain⟩ := exists_of_resolvesTwice htwice
  have hdead : heap.releaseAll.isLive (firstRef 0) = false := by
    rw [isLive, get?_releaseAll]
    rfl
  exact ⟨_, before, heap, refs, final, rfl, hbefore, hlive, hdead, hrun, hagain⟩

end LazyDispatch.Heap
