import LazyDispatch.Proofs.KindLaw

/-!
# The order of creation

The *chronicle* of a heap lists the references that allocations returned, one
after the other.  As long as no generation has come round they are distinct, and
the heap alone shows which references they are: those whose cell is past their
generation, and those that resolve (`Heap.Issued`).

Some references of an object lead back: those of an environment to its parent
and to the arguments that were promised, and that of an unforced promise to its
environment.  A heap is in order if each of them stands in the chronicle before
the object that holds it.  Then whoever follows them comes to earlier and
earlier objects, so no object is met twice, and no more of them than there are
cells.
-/

namespace LazyDispatch

/-! ## Earlier and later -/

/-- One reference stands before another one in a chronicle. -/
def CreatedBefore (born : List Ref) (first second : Ref) : Prop :=
  born.idxOf first < born.idxOf second ∧ second ∈ born

namespace CreatedBefore

variable {born more : List Ref} {first second third : Ref}

theorem trans (hfirst : CreatedBefore born first second)
    (hsecond : CreatedBefore born second third) :
    CreatedBefore born first third :=
  ⟨Nat.lt_trans hfirst.1 hsecond.1, hsecond.2⟩

theorem mem_left (hbefore : CreatedBefore born first second) : first ∈ born :=
  List.idxOf_lt_length_iff.mp (Nat.lt_of_lt_of_le hbefore.1 List.idxOf_le_length)

/-- A longer chronicle tells the same. -/
theorem append (hbefore : CreatedBefore born first second) (more : List Ref) :
    CreatedBefore (born ++ more) first second := by
  refine ⟨?_, List.mem_append_left _ hbefore.2⟩
  rw [List.idxOf_append_of_mem hbefore.mem_left, List.idxOf_append_of_mem hbefore.2]
  exact hbefore.1

theorem of_append (hbefore : CreatedBefore (born ++ more) first second)
    (hmem : second ∈ born) :
    CreatedBefore born first second := by
  refine ⟨?_, hmem⟩
  have hlt := hbefore.1
  rw [List.idxOf_append_of_mem hmem] at hlt
  have hfirst : first ∈ born := by
    rw [List.idxOf_append] at hlt
    split at hlt
    · next hmem => exact hmem
    · have := List.idxOf_lt_length_iff.mpr hmem
      omega
  rwa [List.idxOf_append_of_mem hfirst] at hlt

/-- What was there before comes before what is new. -/
theorem of_new (hfirst : first ∈ born) (hnew : second ∉ born)
    (hmore : second ∈ more) :
    CreatedBefore (born ++ more) first second := by
  refine ⟨?_, List.mem_append_right _ hmore⟩
  rw [List.idxOf_append_of_mem hfirst, List.idxOf_append_of_notMem hnew]
  have := List.idxOf_lt_length_iff.mpr hfirst
  omega

end CreatedBefore

/-! ## References that were returned -/

namespace Heap

/-- The cell of a reference is past its generation, or holds its object. -/
def Issued (heap : Heap) (ref : Ref) : Prop :=
  ref.generation.toNat < (heap.generationAt ref.address).toNat ∨ heap.isLive ref = true

section Issued

variable {heap after : Heap} {ref : Ref} {object : HeapObject} {call : HeapCall} {ref? : Option Ref}
  {calls : List HeapCall} {refs : List Ref}

theorem isLive_of_get? (hget : heap.get? ref = some object) :
    heap.isLive ref = true := by
  rw [isLive, hget]
  rfl

theorem issued_of_get? (hget : heap.get? ref = some object) : heap.Issued ref :=
  .inr (isLive_of_get? hget)

theorem isLive_update (heap : Heap) (target : Ref)
    (change : HeapObject → HeapObject) (ref : Ref) :
    (heap.update target change).isLive ref = heap.isLive ref := by
  rw [Bool.eq_iff_iff, isLive, isLive, Option.isSome_iff_exists, Option.isSome_iff_exists]
  constructor
  · intro hlive
    obtain ⟨found, hfound⟩ := hlive
    obtain ⟨object, hobject, -⟩ := get?_of_update hfound
    exact ⟨object, hobject⟩
  · intro hlive
    obtain ⟨object, hobject⟩ := hlive
    exact ⟨_, get?_update hobject target change⟩

theorem issued_update (heap : Heap) (target : Ref)
    (change : HeapObject → HeapObject) (ref : Ref) :
    (heap.update target change).Issued ref ↔ heap.Issued ref := by
  rw [Issued, Issued, generationAt_update, isLive_update]

/-- A change of an object brings no generation round. -/
theorem neverWraps_update (origin heap : Heap) (target : Ref)
    (change : HeapObject → HeapObject) :
    origin.NeverWraps (heap.update target change) ↔ origin.NeverWraps heap := by
  have haddresses : (heap.update target change).addresses = heap.addresses := by
    ext address
    rw [mem_addresses, mem_addresses, content?_update]
    split
    · cases heap.content? address <;> simp
    · rfl
  have hadvance : origin.advance (heap.update target change) = origin.advance heap := by
    funext address
    rw [advance, advance, generationAt_update]
  unfold NeverWraps
  rw [haddresses, hadvance]
  rfl

theorem toNat_generationAt_perform (hheap : heap.Coherent)
    (hok : call.perform heap = .ok ref? after) (hkeep : call ≠ .releaseAll)
    {address : Address}
    (hroom : (heap.generationAt address).toNat +
      (call.reclaims heap address).toNat < 2 ^ 24) :
    (after.generationAt address).toNat =
      (heap.generationAt address).toNat + (call.reclaims heap address).toNat := by
  rw [HeapCall.generationAt_perform hheap hok hkeep, HeapCall.generationAt_collected hheap,
    BitVec.toNat_add, BitVec.toNat_ofNat]
  omega

/-- A call issues the reference that it returns, and takes none back. -/
theorem issued_perform (hheap : heap.Coherent)
    (hok : call.perform heap = .ok ref? after) (hkeep : call ≠ .releaseAll)
    (hroom : ∀ address, (heap.generationAt address).toNat +
      (call.reclaims heap address).toNat < 2 ^ 24) :
    after.Issued ref ↔ heap.Issued ref ∨ ref? = some ref := by
  have hgeneration := toNat_generationAt_perform hheap hok hkeep (hroom ref.address)
  constructor
  · intro hissued
    rcases hissued with hpast | hlive
    · cases hreclaims : call.reclaims heap ref.address with
      | false =>
          rw [hreclaims] at hgeneration
          exact .inl (.inl (by simpa [hgeneration] using hpast))
      | true =>
          -- The reference goes stale with this call, or did so before.
          rw [hgeneration, hreclaims] at hpast
          rcases Nat.lt_succ_iff_lt_or_eq.mp hpast with hbefore | hsame
          · exact .inl (.inl hbefore)
          · exact .inl (.inr ((isLive_iff heap ref).mpr
              ⟨isHeld_of_reclaims hreclaims, (BitVec.eq_of_toNat_eq hsame).symm⟩))
    · obtain ⟨found, hfound⟩ := Option.isSome_iff_exists.mp hlive
      rcases get?_of_perform hheap hok hfound with ⟨hnew, -⟩ | ⟨object, hold, -⟩
      · exact .inr hnew
      · exact .inl (issued_of_get? hold)
  · intro hissued
    rcases hissued with (hpast | hlive) | rfl
    · exact .inl (hgeneration ▸ Nat.lt_add_right _ hpast)
    · obtain ⟨object, hget⟩ := Option.isSome_iff_exists.mp hlive
      cases hreclaims : call.reclaims heap ref.address with
      | false =>
          exact issued_of_get? (HeapCall.get?_perform hheap hok hkeep
            (HeapCall.get?_collected hheap hget hreclaims))
      | true =>
          refine .inl ?_
          rw [hgeneration, hreclaims, generationAt_of_get? hget]
          exact Nat.lt_succ_self _
    · obtain ⟨object, -, hget, -⟩ := HeapCall.perform_eq_some hheap hok
      exact issued_of_get? hget

/-- A run issues the references that it returns, and takes none back. -/
theorem issued_run (hheap : heap.Coherent)
    (hrun : heap.run calls = .ok refs after)
    (hkeep : ∀ call ∈ calls, call ≠ .releaseAll)
    (hroom : ∀ address, (heap.generationAt address).toNat +
      heap.reclamations address calls < 2 ^ 24) :
    after.Issued ref ↔ heap.Issued ref ∨ ref ∈ refs := by
  induction calls generalizing heap refs with
  | nil =>
      cases hrun
      simp
  | cons call calls ih =>
      obtain ⟨ref?, next, rest, hcall, hrest, rfl⟩ := run_cons_eq_ok hrun
      have hfirst := hkeep call List.mem_cons_self
      simp only [reclamations_cons hcall] at hroom
      have hshort : ∀ address,
          (heap.generationAt address).toNat + (call.reclaims heap address).toNat < 2 ^ 24 := by
        intro address
        have := hroom address
        omega
      rw [ih (HeapCall.perform_coherent hheap hcall) hrest
          (fun other hother => hkeep other (List.mem_cons_of_mem _ hother)) fun address => by
            rw [toNat_generationAt_perform hheap hcall hfirst (hshort address), Nat.add_assoc]
            exact hroom address,
        issued_perform hheap hcall hfirst hshort, List.mem_append, Option.mem_toList, or_assoc]

end Issued

/-! ## Chronicles -/

/-- Calls that give no superblocks back lead from one heap to another, and
return certain references in this order. -/
def Chronicle (heap : Heap) (born : List Ref) (after : Heap) : Prop :=
  ∃ calls, heap.run calls = .ok born after ∧ ∀ call ∈ calls, call ≠ .releaseAll

/-- A heap without cells. -/
structure Vacant (heap : Heap) : Prop where
  coherent : heap.Coherent
  empty : ∀ address, heap.content? address = none

theorem vacant_of_create {settings : HeapSettings} {heap : Heap}
    (hcreate : create settings = .ok heap) :
    heap.Vacant := by
  obtain ⟨_, heq, hheap, -, hempty, -⟩ := exists_create (validate_of_create hcreate)
  cases heq.symm.trans hcreate
  exact ⟨hheap, hempty⟩

section Chronicle

variable {origin heap middle after : Heap} {born more : List Ref} {ref : Ref} {object : HeapObject}
  {roots : List Ref}

theorem Vacant.generationAt (hvacant : origin.Vacant) (address : Address) :
    origin.generationAt address = 0 := by
  rw [Heap.generationAt, hvacant.empty]
  rfl

theorem Vacant.not_issued (hvacant : origin.Vacant) (ref : Ref) :
    ¬origin.Issued ref := by
  intro hissued
  rcases hissued with hpast | hlive
  · rw [hvacant.generationAt] at hpast
    exact Nat.not_lt_zero _ hpast
  · obtain ⟨object, hget⟩ := Option.isSome_iff_exists.mp hlive
    cases (hvacant.empty _).symm.trans (get?_eq_some_iff.mp hget)

theorem Chronicle.refl (heap : Heap) : heap.Chronicle [] heap := ⟨[], rfl, nofun⟩

theorem chronicle_of_perform {call : HeapCall} {ref? : Option Ref}
    (hok : call.perform heap = .ok ref? after) (hkeep : call ≠ .releaseAll) :
    heap.Chronicle ref?.toList after := by
  refine ⟨[call], ?_, fun other hother => ?_⟩
  · rw [run, hok]
    exact congrArg (EStateM.Result.ok · after) (List.append_nil _)
  · cases List.mem_singleton.mp hother
    exact hkeep

theorem Chronicle.append (hfirst : heap.Chronicle born middle)
    (hsecond : middle.Chronicle more after) :
    heap.Chronicle (born ++ more) after := by
  obtain ⟨before, hbefore, hkeep⟩ := hfirst
  obtain ⟨later, hlater, hstill⟩ := hsecond
  refine ⟨before ++ later, run_append hbefore hlater, fun call hcall => ?_⟩
  rcases List.mem_append.mp hcall with hcall | hcall
  · exact hkeep call hcall
  · exact hstill call hcall

theorem Chronicle.update (hborn : heap.Chronicle born after) (ref : Ref)
    (change : HeapObject → HeapObject) :
    heap.Chronicle born (after.update ref change) := by
  have hok : (HeapCall.update ref change).perform after = .ok none (after.update ref change) := rfl
  simpa using hborn.append (chronicle_of_perform hok nofun)

theorem Chronicle.coherent (hborn : heap.Chronicle born after)
    (hheap : heap.Coherent) :
    after.Coherent := by
  obtain ⟨calls, hrun, -⟩ := hborn
  exact run_coherent hheap hrun

/-- If no generation has come round at the end, then none had before. -/
theorem Chronicle.neverWraps (hfirst : heap.Chronicle born middle)
    (hsecond : middle.Chronicle more after) (hheap : heap.Coherent)
    (hwraps : heap.NeverWraps after) :
    heap.NeverWraps middle := by
  obtain ⟨before, hbefore, hkeep⟩ := hfirst
  obtain ⟨later, hlater, hstill⟩ := hsecond
  have hall := run_append hbefore hlater
  have hfew := (neverWraps_iff hheap hall fun call hcall =>
    (List.mem_append.mp hcall).elim (hkeep call) (hstill call)).mp hwraps
  refine (neverWraps_iff hheap hbefore hkeep).mpr fun address => ?_
  obtain ⟨_, _, _, hother, -, -, hcount⟩ := run_append_eq_ok hall
  cases hbefore.symm.trans hother
  have := hfew address
  rw [hcount] at this
  omega

/-- What is issued later was issued before, or returned in between. -/
theorem Chronicle.issued_iff (hfirst : origin.Chronicle born heap)
    (hsecond : heap.Chronicle more after) (hvacant : origin.Vacant)
    (hwraps : origin.NeverWraps after) :
    after.Issued ref ↔ heap.Issued ref ∨ ref ∈ more := by
  have hbefore := hfirst.neverWraps hsecond hvacant.coherent hwraps
  have hcoherent := hfirst.coherent hvacant.coherent
  obtain ⟨before, hbeforeRun, hkeep⟩ := hfirst
  obtain ⟨later, hlater, hstill⟩ := hsecond
  have hall := run_append hbeforeRun hlater
  have hfew := (neverWraps_iff hvacant.coherent hall fun call hcall =>
    (List.mem_append.mp hcall).elim (hkeep call) (hstill call)).mp hwraps
  refine issued_run hcoherent hlater hstill fun address => ?_
  obtain ⟨_, _, _, hother, -, -, hcount⟩ := run_append_eq_ok hall
  cases hbeforeRun.symm.trans hother
  have htotal := hfew address
  rw [hcount] at htotal
  rw [generationAt_run hvacant.coherent hbeforeRun hkeep, hvacant.generationAt]
  simp only [BitVec.ofNat_eq_ofNat, BitVec.zero_add, BitVec.toNat_ofNat]
  omega

/-- The heap shows which references were returned. -/
theorem Chronicle.mem_iff (hborn : origin.Chronicle born heap)
    (hvacant : origin.Vacant) (hwraps : origin.NeverWraps heap) :
    ref ∈ born ↔ heap.Issued ref := by
  rw [(Chronicle.refl origin).issued_iff hborn hvacant hwraps]
  exact ⟨.inr, fun hissued => hissued.resolve_left (hvacant.not_issued ref)⟩

theorem Chronicle.nodup (hborn : origin.Chronicle born heap)
    (hvacant : origin.Vacant) (hwraps : origin.NeverWraps heap) :
    born.Nodup := by
  obtain ⟨calls, hrun, hkeep⟩ := hborn
  exact nodup_run hvacant.coherent hrun hkeep
    ((neverWraps_iff hvacant.coherent hrun hkeep).mp hwraps)

/-- What was issued is not returned again. -/
theorem Chronicle.notMem_of_issued (hfirst : origin.Chronicle born heap)
    (hsecond : heap.Chronicle more after) (hvacant : origin.Vacant)
    (hwraps : origin.NeverWraps after)
    (hissued : origin.NeverWraps heap → heap.Issued ref) : ref ∉ more := by
  have hbefore := hfirst.neverWraps hsecond hvacant.coherent hwraps
  have hmem : ref ∈ born := (hfirst.mem_iff hvacant hbefore).mpr (hissued hbefore)
  exact List.disjoint_of_nodup_append ((hfirst.append hsecond).nodup hvacant hwraps) hmem

end Chronicle

end Heap

/-! ## References that lead back -/

/-- The environment that a promise was made in, until it is forced. -/
def Promise.scope? : Promise → Option Ref
  | pending _ env | underEvaluation _ env => some env
  | forced _ _ => none

/-- The references of an object to what was there before it. -/
def Object.links : Object → List Ref
  | environment env => env.parent.toList ++ env.frame.promised
  | promise deferred => deferred.scope?.toList
  | _ => []

theorem Frame.promised_subset_edges (frame : Frame) :
    frame.promised ⊆ frame.entries.filterMap (·.2.value) := by
  intro ref href
  obtain ⟨⟨symbol, source, value⟩, hentry, hpromised⟩ := List.mem_filterMap.mp href
  refine List.mem_filterMap.mpr ⟨_, hentry, ?_⟩
  cases source with
  | promise => exact hpromised
  | _ => cases hpromised

theorem Object.links_subset_edges (object : Object) :
    object.links ⊆ object.edges := by
  cases object with
  | environment env =>
      exact List.append_subset.mpr ⟨List.subset_append_left _ _,
        List.subset_append_of_subset_right _ env.frame.promised_subset_edges⟩
  | promise deferred =>
      cases deferred with
      | forced expr value => exact List.nil_subset _
      | _ => exact List.Subset.refl _
  | _ => exact List.nil_subset _

namespace Heap

variable {change : HeapObject → HeapObject}

variable {origin heap middle after : Heap} {born more : List Ref} {ref other : Ref}
  {object found : HeapObject} {roots : List Ref}

/-- Whatever leads back leads to something earlier. -/
structure InOrder (born : List Ref) (heap : Heap) : Prop where
  before : ∀ {ref object}, heap.get? ref = some object → ∀ link ∈ object.payload.links,
    CreatedBefore born link ref

theorem InOrder.append (horder : heap.InOrder born) (more : List Ref) :
    heap.InOrder (born ++ more) :=
  ⟨fun hget link hlink => (horder.before hget link hlink).append more⟩

/-- An object changes, and leads back to earlier ones. -/
theorem InOrder.update (horder : heap.InOrder born)
    (hlinks : ∀ {object}, heap.get? ref = some object → ∀ link ∈ (change object).payload.links,
      CreatedBefore born link ref) : (heap.update ref change).InOrder born := by
  refine ⟨fun {other found} hfound link hlink => ?_⟩
  obtain ⟨object, hget, rfl⟩ := get?_of_update hfound
  split at hlink
  · next heq =>
      subst heq
      exact hlinks hget link hlink
  · exact horder.before hget link hlink

/-- A heap with its chronicle since it was new, in order unless a generation has
come round. -/
structure Ordered (origin : Heap) (born : List Ref) (heap : Heap) : Prop where
  vacant : origin.Vacant
  chronicle : origin.Chronicle born heap
  order : origin.NeverWraps heap → heap.InOrder born

/-- A heap changes into another one that is in order if the first is. -/
def Continues (origin heap after : Heap) : Prop :=
  ∃ more, heap.Chronicle more after ∧ ∀ born, origin.Ordered born heap → origin.NeverWraps after →
    after.InOrder (born ++ more)

theorem Ordered.coherent (hordered : origin.Ordered born heap) :
    heap.Coherent :=
  hordered.chronicle.coherent hordered.vacant.coherent

theorem Ordered.neverWraps (hordered : origin.Ordered born heap)
    (hmore : heap.Chronicle more after) (hwraps : origin.NeverWraps after) :
    origin.NeverWraps heap :=
  hordered.chronicle.neverWraps hmore hordered.vacant.coherent hwraps

theorem Ordered.nodup (hordered : origin.Ordered born heap)
    (hwraps : origin.NeverWraps heap) :
    born.Nodup :=
  hordered.chronicle.nodup hordered.vacant hwraps

theorem Ordered.mem_iff (hordered : origin.Ordered born heap)
    (hwraps : origin.NeverWraps heap) {ref : Ref} :
    ref ∈ born ↔ heap.Issued ref :=
  hordered.chronicle.mem_iff hordered.vacant hwraps

theorem Ordered.continues (hordered : origin.Ordered born heap)
    (hcontinues : origin.Continues heap after) :
    ∃ more, origin.Ordered (born ++ more) after := by
  obtain ⟨more, hmore, horder⟩ := hcontinues
  exact ⟨more, hordered.vacant, hordered.chronicle.append hmore, horder born hordered⟩

/-- What was issued stays so. -/
theorem Ordered.issued (hordered : origin.Ordered born heap)
    (hcontinues : origin.Continues heap after)
    (hwraps : origin.NeverWraps after)
    (hissued : origin.NeverWraps heap → heap.Issued ref) :
    after.Issued ref := by
  obtain ⟨more, hmore, -⟩ := hcontinues
  exact (hordered.chronicle.issued_iff hmore hordered.vacant hwraps).mpr
    (.inl (hissued (hordered.neverWraps hmore hwraps)))

theorem Continues.refl (origin heap : Heap) : origin.Continues heap heap :=
  ⟨[], .refl heap, fun _ hordered hwraps => (hordered.order hwraps).append _⟩

theorem Continues.trans (hfirst : origin.Continues heap middle)
    (hsecond : origin.Continues middle after) :
    origin.Continues heap after := by
  obtain ⟨more, hmore, horder⟩ := hfirst
  obtain ⟨rest, hrest, hlater⟩ := hsecond
  refine ⟨more ++ rest, hmore.append hrest, fun born hordered hwraps => ?_⟩
  rw [← List.append_assoc]
  exact hlater _ ⟨hordered.vacant, hordered.chronicle.append hmore, horder born hordered⟩ hwraps

/-- An object changes at the end, and leads back to what came before it. -/
theorem Continues.update (hcontinues : origin.Continues heap after)
    (hlinks : ∀ born more, origin.Ordered born heap → heap.Chronicle more after →
      origin.NeverWraps after → after.InOrder (born ++ more) → ∀ {object},
      after.get? ref = some object → ∀ link ∈ (change object).payload.links,
      CreatedBefore (born ++ more) link ref) : origin.Continues heap (after.update ref change) := by
  obtain ⟨more, hmore, horder⟩ := hcontinues
  refine ⟨more, hmore.update ref change, fun born hordered hwraps => ?_⟩
  have hbefore := (neverWraps_update origin after ref change).mp hwraps
  have hinOrder := horder born hordered hbefore
  exact hinOrder.update fun hget => hlinks born more hordered hmore hbefore hinOrder hget

/-- An object changes, and leads back to what it led to already. -/
theorem Continues.update_subset (hcontinues : origin.Continues heap after)
    (hget : after.get? ref = some object)
    (hlinks : (change object).payload.links ⊆ object.payload.links) :
    origin.Continues heap (after.update ref change) := by
  refine hcontinues.update fun born more _ _ _ horder {found} hfound link hlink => ?_
  cases hget.symm.trans hfound
  exact horder.before hget link (hlinks hlink)

theorem continues_collect (origin heap : Heap) (roots : List Ref) :
    origin.Continues heap (heap.collect roots).2 := by
  have hok : (HeapCall.collect roots).perform heap = .ok none (heap.collect roots).2 := rfl
  have hmore := chronicle_of_perform hok nofun
  refine ⟨_, hmore, fun born hordered hwraps => ⟨fun hget => ?_⟩⟩
  have horder := (hordered.order (hordered.neverWraps hmore hwraps)).append []
  exact horder.before (get?_of_collect hordered.coherent hget)

/-- A new object leads back to what was issued before. -/
theorem continues_allocate (hok : heap.allocate object roots = .ok ref after)
    (hlinks : origin.NeverWraps heap → ∀ link ∈ object.payload.links, heap.Issued link) :
    origin.Continues heap after := by
  have hmore := chronicle_of_perform (perform_allocate hok) nofun
  refine ⟨_, hmore, fun born hordered hwraps => ⟨fun hget => ?_⟩⟩
  have hbefore := hordered.neverWraps hmore hwraps
  rcases get?_of_allocate hordered.coherent hok hget with ⟨rfl, rfl⟩ | hold
  · have hnodup := (hordered.chronicle.append hmore).nodup hordered.vacant hwraps
    intro link hlink
    refine .of_new ((hordered.mem_iff hbefore).mpr (hlinks hbefore link hlink)) (fun hother => ?_)
      (List.mem_singleton.mpr rfl)
    exact List.disjoint_of_nodup_append hnodup hother (List.mem_singleton.mpr rfl)
  · exact ((hordered.order hbefore).append _).before hold

/-- A reference that resolves in the end, but did not in the beginning, is new. -/
theorem Ordered.mem_more (hordered : origin.Ordered born heap)
    (hmore : heap.Chronicle more after) (hwraps : origin.NeverWraps after)
    (hnew : heap.get? ref = none) (hget : after.get? ref = some object) :
    ref ∈ more ∧ ref ∉ born := by
  have hmem : ref ∈ more := by
    obtain ⟨calls, hrun, -⟩ := hmore
    exact mem_of_get?_run hordered.coherent hrun hnew (isLive_of_get? hget)
  have hnodup := (hordered.chronicle.append hmore).nodup hordered.vacant hwraps
  exact ⟨hmem, fun hborn => List.disjoint_of_nodup_append hnodup hborn hmem⟩

/-- It came later than whatever was issued in the beginning. -/
theorem Ordered.createdBefore (hordered : origin.Ordered born heap)
    (hmore : heap.Chronicle more after) (hwraps : origin.NeverWraps after)
    (hnew : heap.get? ref = none) (hget : after.get? ref = some object)
    (hother : heap.Issued other) :
    CreatedBefore (born ++ more) other ref := by
  obtain ⟨hmem, hborn⟩ := hordered.mem_more hmore hwraps hnew hget
  exact .of_new ((hordered.mem_iff (hordered.neverWraps hmore hwraps)).mpr hother) hborn hmem

/-- What was there in the beginning, and resolves in the end, resolved all the
time. -/
theorem Ordered.isLive (hordered : origin.Ordered born heap)
    (hmore : heap.Chronicle more after) (hwraps : origin.NeverWraps after)
    (hborn : ref ∈ born) (hget : after.get? ref = some object) :
    heap.isLive ref = true := by
  cases hbefore : heap.get? ref with
  | none => exact absurd hborn (hordered.mem_more hmore hwraps hbefore hget).2
  | some found => exact isLive_of_get? hbefore

/-! ## How deep an object lies -/

/-- The number of references that resolve and stand before a reference in a
chronicle. -/
def depth (heap : Heap) (born : List Ref) (ref : Ref) : Nat :=
  (born.take (born.idxOf ref)).countP heap.isLive

theorem depth_add_one (hmem : ref ∈ born) (hlive : heap.isLive ref = true) :
    heap.depth born ref + 1 = (born.take (born.idxOf ref + 1)).countP heap.isLive := by
  rw [List.take_add_one, List.getElem?_idxOf hmem, List.countP_append, depth]
  simp [hlive]

/-- Earlier objects lie less deep. -/
theorem depth_lt (hbefore : CreatedBefore born other ref)
    (hlive : heap.isLive other = true) :
    heap.depth born other < heap.depth born ref := by
  rw [Nat.lt_iff_add_one_le, depth_add_one hbefore.mem_left hlive]
  exact (List.take_sublist_take_left hbefore.1).countP_le

theorem card_addresses_le (heap : Heap) :
    heap.addresses.card ≤ heap.totalCells := by
  have hpools : heap.totalCells =
      ∑ sizeClass ∈ Finset.range heap.pools.size,
        (heap.pools[sizeClass]?.elim 0 (·.cells.size)) := by
    rw [totalCells, total_eq_sum_range]
    have hcells : Pool.totalCells = (·.cells.size) := by
      funext pool
      exact pool.size_cells.symm
    rw [hcells]
    rfl
  rw [hpools]
  refine Finset.card_biUnion_le.trans (Finset.sum_le_sum fun sizeClass _ => ?_)
  exact Finset.card_image_le.trans (Finset.card_range _).le

/-- There are no more references that resolve than cells. -/
theorem countP_isLive_le (hnodup : born.Nodup) :
    born.countP heap.isLive ≤ heap.totalCells := by
  have hlive : ∀ {ref : Ref}, ref ∈ born.filter heap.isLive → heap.isLive ref = true :=
    fun href => (List.mem_filter.mp href).2
  have haddresses : ((born.filter heap.isLive).map Ref.address).Nodup := by
    refine (hnodup.filter _).map_on fun first hfirst second hsecond hsame => ?_
    have hgeneration := ((isLive_iff heap first).mp (hlive hfirst)).2
    rw [hsame, ((isLive_iff heap second).mp (hlive hsecond)).2] at hgeneration
    exact Ref.ext_address hsame hgeneration.symm
  rw [List.countP_eq_length_filter, ← List.length_map Ref.address,
    ← List.toFinset_card_of_nodup haddresses]
  refine (Finset.card_le_card fun address haddress => ?_).trans heap.card_addresses_le
  obtain ⟨ref, href, rfl⟩ := List.mem_map.mp (List.mem_toFinset.mp haddress)
  obtain ⟨object, hget⟩ := Option.isSome_iff_exists.mp (hlive href)
  exact mem_addresses.mpr ⟨_, get?_eq_some_iff.mp hget⟩

end Heap

end LazyDispatch
