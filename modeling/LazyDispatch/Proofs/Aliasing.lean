import LazyDispatch.Proofs.HeapRun

/-!
# References never alias

A reference resolves only while its cell has the generation at which the
reference was made.  The generation of a cell counts its reclamations
(`generationAt_run`), and a cell is given out again only after it was reclaimed.
So unless some cell is reclaimed so often that its generation comes round, all
references that a run returns are distinct, and a reference whose object was
reclaimed never resolves again, whatever is stored in its cell.
-/

namespace LazyDispatch

namespace Heap

variable {heap : Heap} {ref : Ref} {object : HeapObject}

/-- The generation of the cell at an address; a cell that does not exist yet
will start with the first one. -/
def generationAt (heap : Heap) (address : Address) : Generation :=
  (heap.content? address).elim 0 Prod.fst

/-- Whether the cell at an address holds an object. -/
def isHeld (heap : Heap) (address : Address) : Bool :=
  (heap.content? address).any (·.2.isSome)

/-- A reference that resolves has the generation of its cell. -/
theorem generationAt_of_get?
    (hget : heap.get? ref = some object) :
    heap.generationAt ref.address = ref.generation := by
  rw [generationAt, get?_eq_some_iff.mp hget]
  rfl

/-- The cell of a reference that resolves holds an object. -/
theorem isHeld_of_get?
    (hget : heap.get? ref = some object) : heap.isHeld ref.address = true := by
  rw [isHeld, get?_eq_some_iff.mp hget]
  rfl

/-- Growth keeps generations. -/
theorem Roomy.generationAt {room : Heap} {sizeClass : Nat}
    (hroom : Roomy heap sizeClass room) (address : Address) :
    room.generationAt address = heap.generationAt address := by
  unfold Heap.generationAt
  rcases hroom.content? address with hsame | ⟨hnone, hnew⟩
  · rw [hsame]
  · rw [hnone, hnew]
    rfl

/-- Placing an object keeps generations. -/
theorem Placed.generationAt {after : Heap}
    (hplaced : Placed heap object ref after) (address : Address) :
    after.generationAt address = heap.generationAt address := by
  unfold Heap.generationAt
  rw [hplaced.content?]
  split
  · next heq =>
      rw [heq, hplaced.free]
      rfl
  · rfl

/-- Changing an object keeps generations. -/
theorem generationAt_update (heap : Heap) (ref : Ref)
    (change : HeapObject → HeapObject) (address : Address) :
    (heap.update ref change).generationAt address =
      heap.generationAt address := by
  unfold generationAt
  rw [content?_update]
  split
  · cases heap.content? address with
    | none => rfl
    | some content =>
        rw [Option.map_some]
        split <;> rfl
  · rfl

/-- An object changes only through the reference to it: another reference to
the same cell is of another generation. -/
theorem get?_update
    (hget : heap.get? ref = some object) (other : Ref)
    (change : HeapObject → HeapObject) :
    (heap.update other change).get? ref =
      some (if other = ref then change object else object) := by
  rw [get?_eq_some_iff] at hget ⊢
  rw [content?_update, hget]
  by_cases haddress : ref.address = other.address
  · by_cases hgeneration : ref.generation = other.generation
    · rw [if_pos haddress, if_pos (Ref.ext_address haddress hgeneration).symm]
      simp [hgeneration]
    · rw [if_pos haddress, if_neg]
      · simp [hgeneration]
      · intro heq
        subst heq
        exact hgeneration rfl
  · rw [if_neg haddress, if_neg]
    intro heq
    subst heq
    exact haddress rfl

end Heap

namespace HeapCall

open Heap

variable {ref : Ref}

/-- Whether the collection of a call reclaims the cell at an address. -/
def reclaims (call : HeapCall) (heap : Heap) (address : Address) : Bool :=
  heap.isHeld address && !(call.collected heap).isHeld address

/-- What a call makes of the object of a reference. -/
def amend (ref : Ref) (object : HeapObject) (call : HeapCall) : HeapObject :=
  match call with
  | update other change => if other = ref then change object else object
  | _ => object

/-! ## One call -/

section OneCall

variable {call : HeapCall} {heap after : Heap} {ref? : Option Ref}

/-- The collection of a call leaves a cell alone, or reclaims it. -/
theorem content?_collected (hheap : heap.Coherent) (call : HeapCall)
    (address : Address) :
    (call.reclaims heap address = false ∧
        (call.collected heap).content? address = heap.content? address) ∨
      (call.reclaims heap address = true ∧ ∃ generation object,
        heap.content? address = some (generation, some object) ∧
        (call.collected heap).content? address =
          some (generation.next, none)) := by
  unfold reclaims isHeld
  rcases call.collected_cases heap with heq | ⟨roots, heq⟩
  · rw [heq]
    exact Or.inl ⟨by simp, rfl⟩
  · obtain ⟨reached, -, hcontent⟩ := content?_collect hheap roots address
    rw [heq, hcontent]
    cases heap.content? address with
    | none => exact Or.inl ⟨rfl, rfl⟩
    | some content =>
        obtain ⟨generation, _ | object⟩ := content
        · exact Or.inl ⟨rfl, rfl⟩
        · cases reached with
          | true => exact Or.inl ⟨rfl, rfl⟩
          | false => exact Or.inr ⟨rfl, generation, object, rfl, rfl⟩

/-- The collection of a call raises the generation of each cell that it
reclaims. -/
theorem generationAt_collected (hheap : heap.Coherent) (call : HeapCall)
    (address : Address) :
    (call.collected heap).generationAt address = heap.generationAt address +
      BitVec.ofNat 24 (call.reclaims heap address).toNat := by
  unfold generationAt
  rcases content?_collected hheap call address with
    ⟨hkept, hsame⟩ | ⟨hreclaims, generation, object, hold, hnew⟩
  · rw [hsame, hkept]
    exact (BitVec.add_zero _).symm
  · rw [hnew, hold, hreclaims]
    rfl

/-- A reference goes on to resolve unless its cell is reclaimed. -/
theorem get?_collected (hheap : heap.Coherent)
    {object : HeapObject} (hget : heap.get? ref = some object)
    (hkept : call.reclaims heap ref.address = false) :
    (call.collected heap).get? ref = some object := by
  rcases content?_collected hheap call ref.address with
    ⟨-, hsame⟩ | ⟨hreclaims, -⟩
  · rw [get?_eq_some_iff, hsame]
    exact get?_eq_some_iff.mp hget
  · rw [hkept] at hreclaims
    cases hreclaims

/-- After its collection, a call that gives no superblocks back changes no
generation. -/
theorem generationAt_perform (hheap : heap.Coherent)
    (hok : call.perform heap = .ok ref? after) (hkeep : call ≠ .releaseAll)
    (address : Address) :
    after.generationAt address = (call.collected heap).generationAt address := by
  rcases perform_cases hheap hok with
    ⟨sizeClass, object, room, ref, -, -, -, hroom, hplaced⟩ |
    ⟨-, -, ⟨roots, -, rfl⟩ | ⟨ref, change, rfl, rfl⟩ | ⟨hrelease, -⟩⟩
  · rw [hplaced.generationAt, hroom.generationAt]
  · rfl
  · exact generationAt_update heap ref change address
  · exact absurd hrelease hkeep

/-- After its collection, a call changes an object only through the reference
to it. -/
theorem get?_perform (hheap : heap.Coherent)
    (hok : call.perform heap = .ok ref? after) (hkeep : call ≠ .releaseAll) {object : HeapObject}
    (hget : (call.collected heap).get? ref = some object) :
    after.get? ref = some (call.amend ref object) := by
  rcases perform_cases hheap hok with
    ⟨sizeClass, stored, room, other, hstored, -, -, hroom, hplaced⟩ |
    ⟨-, -, ⟨roots, rfl, rfl⟩ | ⟨other, change, rfl, rfl⟩ | ⟨hrelease, -⟩⟩
  · have hsame : call.amend ref object = object := by
      cases call with
      | update other change => cases hstored
      | _ => rfl
    rw [hsame]
    exact hplaced.get?_of_get? (hroom.get?_of_get? hget)
  · exact hget
  · exact get?_update hget other change
  · exact absurd hrelease hkeep

/-- An allocation returns a reference to a cell that holds nothing after the
collection, with the generation that the cell has then. -/
theorem perform_eq_some (hheap : heap.Coherent)
    (hok : call.perform heap = .ok (some ref) after) :
    ∃ object, call.object? = some object ∧ after.get? ref = some object ∧
      (call.collected heap).isHeld ref.address = false ∧
      (call.collected heap).generationAt ref.address = ref.generation := by
  rcases perform_cases hheap hok with
    ⟨sizeClass, object, room, _, hobject, hsome, -, hroom, hplaced⟩ | ⟨-, hnone, -⟩
  · cases hsome
    have hgeneration : room.generationAt ref.address = ref.generation := by
      rw [generationAt, hplaced.free]
      rfl
    refine ⟨object, hobject, hplaced.get?_self, ?_, ?_⟩
    · rw [isHeld]
      rcases hroom.content? ref.address with hsame | ⟨hnone, -⟩
      · rw [← hsame, hplaced.free]
        rfl
      · rw [hnone]
        rfl
    · rw [← hroom.generationAt, hgeneration]
  · cases hnone

end OneCall

end HeapCall

/-! ## Runs -/

namespace Heap

variable {ref : Ref} {settings : HeapSettings} {start : Heap}

/-- How often a run reclaims the cell at an address. -/
def reclamations (heap : Heap) (address : Address) : List HeapCall → Nat
  | [] => 0
  | call :: calls =>
    (call.reclaims heap address).toNat +
      match call.perform heap with
      | .ok _ after => after.reclamations address calls
      | .error _ _ => 0

section Runs

variable {heap final : Heap} {calls : List HeapCall} {refs : List Ref}

theorem reclamations_cons {call : HeapCall} {ref? : Option Ref} {after : Heap}
    (hok : call.perform heap = .ok ref? after) (address : Address)
    (calls : List HeapCall) :
    heap.reclamations address (call :: calls) =
      (call.reclaims heap address).toNat + after.reclamations address calls := by
  rw [reclamations, hok]

/-- A call reclaims a cell at most once. -/
theorem reclamations_le (heap : Heap) (address : Address)
    (calls : List HeapCall) :
    heap.reclamations address calls ≤ calls.length := by
  induction calls generalizing heap with
  | nil => exact Nat.le_refl _
  | cons call calls ih =>
      have hfirst := Bool.toNat_le (call.reclaims heap address)
      rw [reclamations, List.length_cons]
      split
      · next after _ =>
          have hothers := ih after
          omega
      · omega

/-- A run in two parts. -/
theorem run_append_eq_ok {before later : List HeapCall}
    (hrun : heap.run (before ++ later) = .ok refs final) :
    ∃ earlier middle rest, heap.run before = .ok earlier middle ∧
      middle.run later = .ok rest final ∧ refs = earlier ++ rest ∧
      ∀ address, heap.reclamations address (before ++ later) =
        heap.reclamations address before + middle.reclamations address later := by
  induction before generalizing heap refs with
  | nil =>
      exact ⟨[], heap, refs, rfl, hrun, rfl, fun _ => (Nat.zero_add _).symm⟩
  | cons call before ih =>
      obtain ⟨ref?, after, others, hcall, hothers, rfl⟩ := run_cons_eq_ok hrun
      obtain ⟨earlier, middle, rest, hbefore, hlater, rfl, hcount⟩ := ih hothers
      refine ⟨ref?.toList ++ earlier, middle, rest, ?_, hlater,
        (List.append_assoc _ _ _).symm, fun address => ?_⟩
      · simp only [run, hcall, hbefore, Outcome.map]
      · rw [List.cons_append, reclamations_cons hcall, reclamations_cons hcall,
          hcount, Nat.add_assoc]

/-- **Generations count reclamations.** -/
theorem generationAt_run (hheap : heap.Coherent)
    (hrun : heap.run calls = .ok refs final)
    (hkeep : ∀ call ∈ calls, call ≠ .releaseAll) (address : Address) :
    final.generationAt address = heap.generationAt address +
      BitVec.ofNat 24 (heap.reclamations address calls) := by
  induction calls generalizing heap refs with
  | nil =>
      cases hrun
      exact (BitVec.add_zero _).symm
  | cons call calls ih =>
      obtain ⟨ref?, after, rest, hcall, hrest, -⟩ := run_cons_eq_ok hrun
      have hfirst := hkeep call List.mem_cons_self
      rw [ih (HeapCall.perform_coherent hheap hcall) hrest
          fun other hother => hkeep other (List.mem_cons_of_mem _ hother),
        HeapCall.generationAt_perform hheap hcall hfirst,
        HeapCall.generationAt_collected hheap, reclamations_cons hcall,
        BitVec.ofNat_add, BitVec.add_assoc]

/-- A reference goes on to resolve, to the object as the run amends it, as long
as its cell is not reclaimed. -/
theorem get?_run_of_unreclaimed (hheap : heap.Coherent)
    (hrun : heap.run calls = .ok refs final)
    (hkeep : ∀ call ∈ calls, call ≠ .releaseAll)
    {object : HeapObject} (hget : heap.get? ref = some object)
    (hnever : heap.reclamations ref.address calls = 0) :
    final.get? ref = some (calls.foldl (HeapCall.amend ref) object) := by
  induction calls generalizing heap refs object with
  | nil =>
      cases hrun
      exact hget
  | cons call calls ih =>
      obtain ⟨ref?, after, rest, hcall, hrest, -⟩ := run_cons_eq_ok hrun
      rw [reclamations_cons hcall, Nat.add_eq_zero_iff] at hnever
      obtain ⟨hfirst, hothers⟩ := hnever
      have hkept : call.reclaims heap ref.address = false := by
        simpa using hfirst
      have hafter := HeapCall.get?_perform hheap hcall
        (hkeep call List.mem_cons_self) (HeapCall.get?_collected hheap hget hkept)
      exact ih (HeapCall.perform_coherent hheap hcall) hrest
        (fun other hother => hkeep other (List.mem_cons_of_mem _ hother))
        hafter hothers

/-- Fewer than `2 ^ 24` reclamations do not bring a generation round. -/
theorem generation_add_ne (generation : Generation) {count : Nat}
    (hpos : 0 < count) (hfew : count < 2 ^ 24) :
    generation + BitVec.ofNat 24 count ≠ generation := by
  intro heq
  have hnat := congrArg BitVec.toNat heq
  have hlt := generation.isLt
  rw [BitVec.toNat_add, BitVec.toNat_ofNat] at hnat
  omega

/-- Once its cell was reclaimed, a reference does not resolve. -/
theorem get?_run_of_reclaimed (hheap : heap.Coherent)
    (hrun : heap.run calls = .ok refs final)
    (hkeep : ∀ call ∈ calls, call ≠ .releaseAll)
    {object : HeapObject} (hget : heap.get? ref = some object)
    (hsome : 0 < heap.reclamations ref.address calls)
    (hfew : heap.reclamations ref.address calls < 2 ^ 24) :
    final.get? ref = none := by
  cases hfinal : final.get? ref with
  | none => rfl
  | some other =>
      have hgeneration := generationAt_run hheap hrun hkeep ref.address
      rw [generationAt_of_get? hget, generationAt_of_get? hfinal] at hgeneration
      exact absurd hgeneration.symm (generation_add_ne _ hsome hfew)

/-- A reference that a run returns has the generation that its cell had at the
start, raised by some reclamations; by at least one if the cell held an object
at the start. -/
theorem generation_of_mem_run (hheap : heap.Coherent)
    (hrun : heap.run calls = .ok refs final)
    (hkeep : ∀ call ∈ calls, call ≠ .releaseAll)
    (href : ref ∈ refs) :
    ∃ count ≤ heap.reclamations ref.address calls,
      ref.generation = heap.generationAt ref.address + BitVec.ofNat 24 count ∧
      ∀ {other object}, heap.get? other = some object →
        other.address = ref.address → 0 < count := by
  induction calls generalizing heap refs with
  | nil =>
      cases hrun
      cases href
  | cons call calls ih =>
      obtain ⟨ref?, after, rest, hcall, hrest, rfl⟩ := run_cons_eq_ok hrun
      have hfirst := hkeep call List.mem_cons_self
      have hcollected :=
        HeapCall.generationAt_collected hheap call ref.address
      rw [reclamations_cons hcall]
      rcases List.mem_append.mp href with hnew | hlater
      · -- The reference is new: its cell is not held after the collection.
        obtain rfl := Option.mem_toList.mp hnew
        obtain ⟨_, -, -, hfree, hgeneration⟩ :=
          HeapCall.perform_eq_some hheap hcall
        refine ⟨_, Nat.le_add_right _ _, hgeneration.symm.trans hcollected, ?_⟩
        intro other object hget haddress
        have hheld := haddress ▸ isHeld_of_get? hget
        simp [HeapCall.reclaims, hheld, hfree]
      · obtain ⟨count, hle, hgeneration, hpos⟩ := ih
          (HeapCall.perform_coherent hheap hcall) hrest
          (fun other hother => hkeep other (List.mem_cons_of_mem _ hother)) hlater
        refine ⟨_, Nat.add_le_add_left hle _, ?_, ?_⟩
        · rw [hgeneration, HeapCall.generationAt_perform hheap hcall hfirst,
            hcollected, BitVec.ofNat_add, BitVec.add_assoc]
        · intro other object hget haddress
          cases hreclaims : call.reclaims heap ref.address with
          | true => exact Nat.lt_add_right _ Nat.zero_lt_one
          | false =>
              have hkept := HeapCall.get?_collected hheap hget
                (haddress ▸ hreclaims)
              exact Nat.lt_add_left _
                (hpos (HeapCall.get?_perform hheap hcall hfirst hkept) haddress)

/-- The references that a run returns are distinct. -/
theorem nodup_run (hheap : heap.Coherent)
    (hrun : heap.run calls = .ok refs final)
    (hkeep : ∀ call ∈ calls, call ≠ .releaseAll)
    (hfew : ∀ address, heap.reclamations address calls < 2 ^ 24) :
    refs.Nodup := by
  induction calls generalizing heap refs with
  | nil =>
      cases hrun
      exact List.nodup_nil
  | cons call calls ih =>
      obtain ⟨ref?, after, rest, hcall, hrest, rfl⟩ := run_cons_eq_ok hrun
      have hafter := HeapCall.perform_coherent hheap hcall
      have hlater : ∀ other ∈ calls, other ≠ .releaseAll :=
        fun other hother => hkeep other (List.mem_cons_of_mem _ hother)
      have hfewer : ∀ address, after.reclamations address calls < 2 ^ 24 := by
        intro address
        have hall := hfew address
        rw [reclamations_cons hcall] at hall
        omega
      have hothers := ih hafter hrest hlater hfewer
      cases ref? with
      | none => exact hothers
      | some ref =>
          refine List.nodup_cons.mpr ⟨fun hagain => ?_, hothers⟩
          obtain ⟨object, -, hget, -⟩ := HeapCall.perform_eq_some hheap hcall
          obtain ⟨count, hle, hgeneration, hpos⟩ :=
            generation_of_mem_run hafter hrest hlater hagain
          rw [generationAt_of_get? hget] at hgeneration
          exact generation_add_ne _ (hpos hget rfl)
            (Nat.lt_of_le_of_lt hle (hfewer ref.address)) hgeneration.symm

end Runs

/-! ## The main theorem -/

/-- Only valid settings make a heap. -/
theorem validate_of_create
    (hcreate : create settings = .ok start) : settings.validate = .ok () := by
  rw [create] at hcreate
  cases hcheck : settings.validate with
  | ok _ => rfl
  | error reason =>
      rw [hcheck] at hcreate
      cases hcreate

/-- A heap that was just made is coherent. -/
theorem coherent_of_create
    (hcreate : create settings = .ok start) : start.Coherent := by
  obtain ⟨heap, heq, hheap, -⟩ := exists_create (validate_of_create hcreate)
  cases heq.symm.trans hcreate
  exact hheap

/-- Nothing resolves on a new heap. -/
theorem get?_create
    (hcreate : create settings = .ok start) (ref : Ref) :
    start.get? ref = none := by
  obtain ⟨heap, heq, -, -, hempty, -⟩ := exists_create (validate_of_create hcreate)
  cases heq.symm.trans hcreate
  cases hget : start.get? ref with
  | none => rfl
  | some object => cases (hempty ref.address).symm.trans (get?_eq_some_iff.mp hget)

/-- **References never alias.**  Take a run on a new heap that gives no
superblocks back and reclaims no cell `2 ^ 24` times.  The references that it
returns are distinct.  Each of them resolves to the object that was stored, as
amended through that reference, in every state up to the collection that
reclaims its cell, and to nothing in every state after it. -/
theorem run_never_aliases {settings : HeapSettings} {start final : Heap}
    {calls : List HeapCall} {refs : List Ref}
    (hcreate : create settings = .ok start)
    (hrun : start.run calls = .ok refs final)
    (hkeep : ∀ call ∈ calls, call ≠ .releaseAll)
    (hfew : ∀ address, start.reclamations address calls < 2 ^ 24) :
    refs.Nodup ∧
    ∀ before call middle rest, calls = before ++ call :: (middle ++ rest) →
      ∀ object, call.object? = some object →
      ∃ earlier heap ref stored between later others,
        start.run before = .ok earlier heap ∧
        call.perform heap = .ok (some ref) stored ∧
        stored.run middle = .ok between later ∧
        later.run rest = .ok others final ∧
        refs = earlier ++ ref :: (between ++ others) ∧
        later.get? ref =
          if stored.reclamations ref.address middle = 0 then
            some (middle.foldl (HeapCall.amend ref) object)
          else none := by
  have hstart := coherent_of_create hcreate
  refine ⟨nodup_run hstart hrun hkeep hfew, ?_⟩
  intro before call middle rest hsplit object hobject
  subst hsplit
  obtain ⟨earlier, heap, tail, hbefore, htail, rfl, hfirst⟩ := run_append_eq_ok hrun
  obtain ⟨ref?, stored, _, hcall, hafter, rfl⟩ := run_cons_eq_ok htail
  obtain ⟨between, later, others, hmiddle, hrest, rfl, hsecond⟩ :=
    run_append_eq_ok hafter
  have hheap := run_coherent hstart hbefore
  have hstored := HeapCall.perform_coherent hheap hcall
  rcases HeapCall.perform_cases hheap hcall with
    ⟨_, _, _, ref, -, rfl, -⟩ | ⟨hnone, -⟩
  · obtain ⟨_, hsame, hget, -⟩ := HeapCall.perform_eq_some hheap hcall
    cases hsame.symm.trans hobject
    have hmid : ∀ other ∈ middle, other ≠ .releaseAll := by
      intro other hother
      refine hkeep other (List.mem_append_right _ (List.mem_cons_of_mem _ ?_))
      exact List.mem_append_left _ hother
    have hbound : stored.reclamations ref.address middle < 2 ^ 24 := by
      have hall := hfew ref.address
      rw [hfirst, reclamations_cons hcall, hsecond] at hall
      omega
    refine ⟨earlier, heap, ref, stored, between, later, others, hbefore, hcall,
      hmiddle, hrest, rfl, ?_⟩
    split
    · next hnever =>
        exact get?_run_of_unreclaimed hstored hmiddle hmid hget hnever
    · next hsome =>
        exact get?_run_of_reclaimed hstored hmiddle hmid hget
          (Nat.pos_of_ne_zero hsome) hbound
  · rw [hobject] at hnone
    cases hnone

/-- The object that the last call stores is found through the last reference. -/
theorem run_never_aliases_pairCalls :
    ∃ start refs final, create pairSettings = .ok start ∧
      start.run pairCalls = .ok refs final ∧
      (∀ call ∈ pairCalls, call ≠ .releaseAll) ∧
      (∀ address, start.reclamations address pairCalls < 2 ^ 24) ∧
      refs.Nodup ∧ ∃ earlier ref, refs = earlier ++ [ref] ∧
        final.get? ref = some ⟨.list [firstRef 1], []⟩ := by
  obtain ⟨start, hcreate, -⟩ :=
    exists_create (rfl : pairSettings.validate = .ok ())
  obtain ⟨refs, final, hrun⟩ := exists_run_pairCalls hcreate
  have hfew : ∀ address, start.reclamations address pairCalls < 2 ^ 24 :=
    fun address => Nat.lt_of_le_of_lt (start.reclamations_le address pairCalls)
      (by decide)
  obtain ⟨hnodup, hresolve⟩ := run_never_aliases hcreate hrun
    ne_releaseAll_of_mem_pairCalls hfew
  obtain ⟨earlier, heap, ref, stored, _, _, _, -, -, hmiddle, hrest, hrefs, hget⟩ :=
    hresolve (pairCalls.take 4) (.allocateIn 0 ⟨.list [firstRef 1], []⟩ []) [] []
      rfl _ rfl
  cases hmiddle
  cases hrest
  exact ⟨start, refs, _, hcreate, hrun, ne_releaseAll_of_mem_pairCalls, hfew,
    hnodup, earlier, ref, hrefs, hget⟩

end Heap

end LazyDispatch
