import LazyDispatch.Proofs.CreationOrder
import LazyDispatch.Proofs.KindLaw
import LazyDispatch.Proofs.RefSessions

/-!
# Evaluation keeps the order of creation

This is a reference law.  Whatever evaluation hands around was issued by the
heap, as long as no generation has come round.  So a new object leads back to
what was there before.  A frame is the only object that comes to lead back to
something else after its creation, when the arguments of the call are bound in
it; these were there when the frame was made.  An evaluated promise that becomes
pending again leads to its old environment.  All other changes of objects only
drop what leads back.

The law rules out no faults.  It says that every state of a session is in order.
-/

namespace LazyDispatch

/-! ## What objects hold -/

/-- Whatever is true of the edges of an object is true of what it is trusted to
hold. -/
theorem Object.meets_of_edges {p : Ref → Prop} {dots : Symbol} {object : Object}
    (hedges : ∀ ref ∈ object.edges, p ref) :
    object.Meets (fun _ => p) True (fun _ => True) dots := by
  cases object with
  | list items => exact hedges
  | closure fn => exact ⟨hedges _ (List.mem_singleton.mpr rfl), 0, trivial⟩
  | environment env =>
      refine ⟨fun parent hparent => hedges _
        (List.mem_append_left _ (Option.mem_toList.mpr hparent)),
        fun entry hentry =>
          ⟨fun ref href => hedges _ (List.mem_append_right _ ?_),
            fun _ => trivial⟩⟩
      exact List.mem_filterMap.mpr ⟨entry, hentry, href⟩
  | promise deferred =>
      cases deferred with
      | pending expr env => exact trivial
      | underEvaluation expr env => exact ⟨trivial, hedges _ (List.mem_singleton.mpr rfl)⟩
      | forced expr value => exact hedges _ (List.mem_singleton.mpr rfl)
  | dots args => exact fun arg harg ref href => hedges _ (List.mem_filterMap.mpr ⟨arg, harg, href⟩)
  | _ => trivial

/-- What is true of all that an object holds is true of its edges. -/
theorem HeapObject.Meets.edges {p : Ref → Prop} {loose : Prop}
    {expr : Expr → Prop} {dots : Symbol} {object : HeapObject}
    (hobject : object.Meets (fun _ => p) loose expr dots) :
    ∀ ref ∈ object.edges, p ref := by
  obtain ⟨payload, attributes⟩ := object
  obtain ⟨hpayload, hedge, hattributes⟩ := hobject
  intro ref href
  rcases List.mem_append.mp href with hattribute | hheld
  · obtain ⟨entry, hentry, rfl⟩ := List.mem_map.mp hattribute
    exact hattributes entry hentry
  · cases payload with
    | list items => exact hpayload ref hheld
    | closure fn =>
        cases List.mem_singleton.mp hheld
        exact hpayload.1
    | environment env =>
        rcases List.mem_append.mp hheld with hparent | hbound
        · exact hpayload.1 ref (Option.mem_toList.mp hparent)
        · obtain ⟨entry, hentry, hvalue⟩ := List.mem_filterMap.mp hbound
          exact (hpayload.2 entry hentry).value ref hvalue
    | promise deferred =>
        cases List.mem_singleton.mp hheld
        exact hedge deferred rfl
    | dots args =>
        obtain ⟨arg, harg, hvalue⟩ := List.mem_filterMap.mp hheld
        exact hpayload arg harg ref hvalue
    | _ => cases hheld

/-! ## Heaps in order -/

namespace Heap

variable {origin heap after : Heap} {ref : Ref} {object : HeapObject} {roots : List Ref}

/-- A reference was issued, unless a generation has come round since a certain
heap. -/
def IssuedSince (origin heap : Heap) (ref : Ref) : Prop := origin.NeverWraps heap → heap.Issued ref

theorem IssuedSince.update (hissued : origin.IssuedSince heap ref)
    (target : Ref) (change : HeapObject → HeapObject) :
    origin.IssuedSince (heap.update target change) ref :=
  fun hwraps => (issued_update heap target change ref).mpr
    (hissued ((neverWraps_update origin heap target change).mp hwraps))

/-- A heap in order whose objects hold what was issued. -/
structure WellOrdered (origin heap : Heap) : Prop where
  order : ∃ born, origin.Ordered born heap
  held : ∀ {ref object}, heap.get? ref = some object → ∀ edge ∈ object.edges,
    origin.IssuedSince heap edge

namespace WellOrdered

variable (hheap : origin.WellOrdered heap)

include hheap

theorem coherent : heap.Coherent := by
  obtain ⟨born, hordered⟩ := hheap.order
  exact hordered.coherent

theorem issued (hcontinues : origin.Continues heap after)
    (hissued : origin.IssuedSince heap ref) :
    origin.IssuedSince after ref := by
  obtain ⟨born, hordered⟩ := hheap.order
  exact fun hwraps => hordered.issued hcontinues hwraps hissued

/-- A change after which the objects hold what was issued before. -/
theorem of_continues (hcontinues : origin.Continues heap after)
    (hheld : ∀ {ref object}, after.get? ref = some object →
      ∀ edge ∈ object.edges, origin.IssuedSince heap edge) :
    origin.WellOrdered after := by
  obtain ⟨born, hordered⟩ := hheap.order
  obtain ⟨more, hlater⟩ := hordered.continues hcontinues
  exact ⟨⟨_, hlater⟩, fun hget edge hedge => hheap.issued hcontinues (hheld hget edge hedge)⟩

/-- A new object holds what was issued before. -/
theorem allocate (hedges : ∀ edge ∈ object.edges, origin.IssuedSince heap edge)
    (hok : heap.allocate object roots = .ok ref after) :
    origin.Continues heap after ∧ origin.WellOrdered after := by
  have hcontinues : origin.Continues heap after := continues_allocate hok fun hwraps link hlink =>
    hedges link (List.mem_append_right _ (object.payload.links_subset_edges hlink)) hwraps
  refine ⟨hcontinues, hheap.of_continues hcontinues fun hget => ?_⟩
  rcases get?_of_allocate hheap.coherent hok hget with ⟨-, rfl⟩ | hold
  · exact hedges
  · exact hheap.held hold

/-- A new object has a reference that was not issued before. -/
theorem ne_of_allocate (hok : heap.allocate object roots = .ok ref after)
    (hwraps : origin.NeverWraps after) {other : Ref}
    (hissued : origin.IssuedSince heap other) :
    other ≠ ref := by
  obtain ⟨born, hordered⟩ := hheap.order
  have hnotMem := hordered.chronicle.notMem_of_issued
    (chronicle_of_perform (perform_allocate hok) nofun) hordered.vacant hwraps hissued
  intro heq
  exact hnotMem (List.mem_singleton.mpr heq)

/-- No generation had come round before. -/
theorem neverWraps (hcontinues : origin.Continues heap after)
    (hwraps : origin.NeverWraps after) :
    origin.NeverWraps heap := by
  obtain ⟨born, hordered⟩ := hheap.order
  obtain ⟨more, hmore, -⟩ := hcontinues
  exact hordered.neverWraps hmore hwraps

/-- An object changes at the end of a change that continues a heap in order. -/
theorem update (hafter : origin.WellOrdered after)
    {change : HeapObject → HeapObject}
    (hcontinues : origin.Continues heap (after.update ref change))
    (hget : after.get? ref = some object)
    (hedges : ∀ edge ∈ (change object).edges, origin.IssuedSince after edge) :
    origin.WellOrdered (after.update ref change) := by
  obtain ⟨born, hordered⟩ := hheap.order
  obtain ⟨more, hlater⟩ := hordered.continues hcontinues
  refine ⟨⟨_, hlater⟩, fun hfound edge hedge => ?_⟩
  obtain ⟨before, hbefore, rfl⟩ := get?_of_update hfound
  refine IssuedSince.update ?_ ref change
  split at hedge
  · next heq =>
      subst heq
      cases hget.symm.trans hbefore
      exact hedges edge hedge
  · exact hafter.held hbefore edge hedge

/-- The attributes of an object that becomes another one were issued. -/
theorem edges_become {payload : Object} (hget : heap.get? ref = some object)
    (hpayload : ∀ edge ∈ payload.edges, origin.IssuedSince heap edge) :
    ∀ edge ∈ (object.become payload).edges, origin.IssuedSince heap edge := by
  intro edge hedge
  rcases List.mem_append.mp hedge with hattribute | hheld
  · exact hheap.held hget edge (List.mem_append_left _ hattribute)
  · exact hpayload edge hheld

/-- The parent and the bindings of a frame were issued. -/
theorem edges_frame {env : Environment} {attributes : List (Symbol × Ref)} {frame : Frame}
    (hget : heap.get? ref = some ⟨.environment env, attributes⟩)
    (hframe : ∀ entry ∈ frame.entries, ∀ value ∈ entry.2.value, origin.IssuedSince heap value) :
    ∀ edge ∈ (Object.environment ⟨env.parent, frame⟩).edges, origin.IssuedSince heap edge := by
  intro edge hedge
  rcases List.mem_append.mp hedge with hparent | hbound
  · exact hheap.held hget edge (List.mem_append_right _ (List.mem_append_left _ hparent))
  · obtain ⟨entry, hentry, hvalue⟩ := List.mem_filterMap.mp hbound
    exact hframe entry hentry edge hvalue

end WellOrdered

/-- A frame that was allocated on the way gets its bindings. -/
theorem Continues.frame (hcontinues : origin.Continues heap after) {env : Environment}
    {attributes : List (Symbol × Ref)} {frame : Frame} (hnew : heap.get? ref = none)
    (hget : after.get? ref = some ⟨.environment env, attributes⟩)
    (hpromised : ∀ value ∈ frame.promised,
      value ∈ env.frame.promised ∨ origin.IssuedSince heap value) :
    origin.Continues heap (after.update ref (.become (.environment ⟨env.parent, frame⟩))) := by
  refine hcontinues.update
    fun born more hordered hmore hwraps horder {object} hobject link hlink => ?_
  cases hget.symm.trans hobject
  rcases List.mem_append.mp hlink with hparent | hbound
  · exact horder.before hget link (List.mem_append_left _ hparent)
  · rcases hpromised link hbound with hold | hissued
    · exact horder.before hget link (List.mem_append_right _ hold)
    · exact hordered.createdBefore hmore hwraps hnew hget
        (hissued (hordered.neverWraps hmore hwraps))

/-- A promise that was evaluated gets its value, or is pending again. -/
theorem Continues.settle {deferred : Expr} {env : Ref} {attributes : List (Symbol × Ref)}
    {settled : Promise} (hget : heap.get? ref = some ⟨.promise (.pending deferred env), attributes⟩)
    (hcontinues : origin.Continues
      (heap.update ref (.become (.promise (.underEvaluation deferred env)))) after)
    (hsettled : settled = .pending deferred env ∨ ∃ value, settled = .forced deferred value) :
    origin.Continues heap (after.update ref (.become (.promise settled))) := by
  have hbegun : origin.Continues heap
      (heap.update ref (.become (.promise (.underEvaluation deferred env)))) :=
    (Continues.refl origin heap).update_subset hget (List.Subset.refl _)
  refine (hbegun.trans hcontinues).update
    fun born more hordered hmore hwraps _ {object} _ link hlink => ?_
  rcases hsettled with rfl | ⟨value, rfl⟩
  · have horder := hordered.order (hordered.neverWraps hmore hwraps)
    exact (horder.before hget link hlink).append more
  · cases hlink

end Heap

/-! ## States in order -/

namespace Interpreter

variable {origin heap : Heap} {state after : Interpreter} {ref : Ref} {object : HeapObject}

/-- The reserved symbols and the fixed objects stay, and the heap continues in
order. -/
structure Continues (origin : Heap) (state after : Interpreter) : Prop where
  reserved : after.reserved = state.reserved
  fixed : after.fixed = state.fixed
  heap : origin.Continues state.heap after.heap

/-- A state in order, in which all references were issued.  No methods are
cached. -/
structure Ordered (origin : Heap) (state : Interpreter) : Prop where
  heap : origin.WellOrdered state.heap
  fixed : ∀ ref ∈ state.fixed.edges, origin.IssuedSince state.heap ref
  cache : state.cache = .empty

/-- A change of the heap alone. -/
theorem Ordered.of_heap (hstate : state.Ordered origin) (hheap : origin.WellOrdered heap)
    (hcontinues : origin.Continues state.heap heap) : Ordered origin { state with heap } :=
  ⟨hheap, fun ref href => hstate.heap.issued hcontinues (hstate.fixed ref href), hstate.cache⟩

/-- An object changes. -/
theorem Ordered.amend (hstate : state.Ordered origin)
    {change : HeapObject → HeapObject}
    (hheap : origin.WellOrdered (state.heap.update ref change)) :
    (state.amend ref change).Ordered origin :=
  ⟨hheap, fun other hother => (hstate.fixed other hother).update ref change, hstate.cache⟩

/-- An object changes, and leads back to what it led to already. -/
theorem Ordered.amend_subset (hstate : state.Ordered origin) {change : HeapObject → HeapObject}
    (hget : state.heap.get? ref = some object)
    (hlinks : (change object).payload.links ⊆ object.payload.links)
    (hedges : ∀ edge ∈ (change object).edges, origin.IssuedSince state.heap edge) :
    (state.amend ref change).Ordered origin :=
  hstate.amend (hstate.heap.update hstate.heap
    ((Heap.Continues.refl origin state.heap).update_subset hget hlinks) hget hedges)

end Interpreter

/-- Whatever is handed around was issued, and everything leads back in the order
of creation. -/
def orderLaw (origin : Heap) : RefLaw where
  inv state := state.Ordered origin
  step _ state after := state.Continues origin after
  has _ _ state ref := origin.IssuedSince state.heap ref
  fault _ _ := True
  expr _ := True
  loose := True
  balanced := True
  stalls := False
  has_now hhas := hhas
  has_root hhas _ := hhas
  has_mono _ hhas := hhas
  has_within _ hhas := hhas
  has_admits _ hhas _ _ := hhas
  has_operand _ hhas _ _ := hhas
  has_fixed hstate href := hstate.fixed _ href
  has_scope {_} state _ hstate href := hstate.fixed _ (state.fixed.scopes_subset_edges href)
  has_step hstate hstep hhas := hstate.heap.issued hstep.heap hhas
  has_same hsame hhas := by
    rw [hsame.heap]
    exact hhas
  has_amend hhas _ _ := hhas.update _ _
  has_dispatch _ _ hhas := hhas
  has_dots _ hhas := hhas
  holds hstate _ hget := Object.meets_of_edges fun other hother =>
    hstate.heap.held hget other (List.mem_append_right _ hother)
  holds_edge hstate hget :=
    hstate.heap.held hget _ (List.mem_append_right _ (List.mem_singleton.mpr rfl))
  holds_attribute hstate hget hentry :=
    hstate.heap.held hget _ (List.mem_append_left _ (List.mem_map.mpr ⟨_, hentry, rfl⟩))
  inv_same hsame hstate := by
    refine ⟨?_, ?_, hsame.cache.trans hstate.cache⟩
    · rw [hsame.heap]
      exact hstate.heap
    · rw [hsame.heap, hsame.fixed]
      exact hstate.fixed
  step_same hsame := ⟨hsame.reserved, hsame.fixed, hsame.heap ▸ .refl _ _⟩
  step_trans hfirst hsecond :=
    ⟨hsecond.reserved.trans hfirst.reserved, hsecond.fixed.trans hfirst.fixed,
      hfirst.heap.trans hsecond.heap⟩
  step_mono _ hstep := hstep
  unbalanced hfree := absurd trivial hfree
  on_allocate hstate _ hobject hok := by
    obtain ⟨hcontinues, hallocated⟩ := hstate.heap.allocate hobject.edges hok
    exact ⟨⟨rfl, rfl, hcontinues⟩, hstate.of_heap hallocated hcontinues,
      fun _ _ _ => Heap.issued_of_get? (Heap.get?_allocate_self hstate.heap.coherent hok)⟩
  on_collect hstate _ :=
    have hcontinues := Heap.continues_collect _ _ _
    ⟨⟨rfl, rfl, hcontinues⟩, hstate.of_heap (hstate.heap.of_continues hcontinues fun hget =>
      hstate.heap.held (Heap.get?_of_collect hstate.heap.coherent hget)) hcontinues⟩
  on_complete name value _ _ _ _ hstep := by
    refine ⟨hstep.reserved, hstep.fixed, hstep.heap.update ?_⟩
    intro born more _ _ _ horder object hget link hlink
    rw [HeapObject.payload_updateAttribute] at hlink
    exact horder.before hget link hlink
  on_frame frame hstate _ hok hstep hafter hget hframe hpromised := by
    have hcontinues := hstep.heap.frame (Heap.get?_fresh hstate.heap.coherent hok) hget hpromised
    exact ⟨⟨hstep.reserved, hstep.fixed, hcontinues⟩, hafter.amend (hstate.heap.update hafter.heap
      hcontinues hget (hafter.heap.edges_become hget (hafter.heap.edges_frame hget
        fun entry hentry => (hframe entry hentry).value)))⟩
  inv_frame frame hstate hget hframe hpromised :=
    hstate.amend_subset hget (List.append_subset.mpr ⟨List.subset_append_left _ _,
      List.subset_append_of_subset_right _ hpromised⟩) (hstate.heap.edges_become hget
        (hstate.heap.edges_frame hget fun entry hentry => (hframe entry hentry).value))
  step_frame frame _ hget hpromised _ :=
    ⟨rfl, rfl, (Heap.Continues.refl _ _).update_subset hget
      (List.append_subset.mpr ⟨List.subset_append_left _ _,
        List.subset_append_of_subset_right _ hpromised⟩)⟩
  inv_attribute {state ref object} name value hstate hget hvalue := by
    refine hstate.amend_subset hget ?_ fun edge hedge => ?_
    · rw [HeapObject.payload_updateAttribute]
      exact List.Subset.refl _
    · rcases List.mem_append.mp hedge with hattribute | hheld
      · obtain ⟨entry, hentry, rfl⟩ := List.mem_map.mp hattribute
        rcases HeapObject.mem_updateAttribute hentry with hold | hnew
        · exact hstate.heap.held hget _
            (List.mem_append_left _ (List.mem_map.mpr ⟨entry, hold, rfl⟩))
        · exact hvalue _ hnew
      · rw [HeapObject.payload_updateAttribute] at hheld
        exact hstate.heap.held hget edge (List.mem_append_right _ hheld)
  step_class cls hget := by
    refine ⟨rfl, rfl, (Heap.Continues.refl _ _).update_subset hget ?_⟩
    rw [HeapObject.payload_updateAttribute]
    exact List.Subset.refl _
  inv_evaluate hstate hget _ henv := by
    refine hstate.amend_subset hget (List.Subset.refl _)
      (hstate.heap.edges_become hget fun edge hedge => ?_)
    cases List.mem_singleton.mp hedge
    exact henv
  on_settle settled hstate hget hstep hafter hformer hsettled _ hedge := by
    have hcontinues := Heap.Continues.settle hget hstep.heap hsettled
    refine ⟨⟨hstep.reserved, hstep.fixed, hcontinues⟩, hafter.amend (hstate.heap.update hafter.heap
      hcontinues hformer (hafter.heap.edges_become hformer fun edge hheld => ?_))⟩
    cases List.mem_singleton.mp hheld
    exact hedge

theorem cache_of_ordered (origin : Heap) (state : Interpreter)
    (hinv : (orderLaw origin).inv state) :
    state.cache = .empty :=
  hinv.cache

/-! ## Sessions -/

/-- A new heap is in order. -/
theorem Heap.wellOrdered_create {settings : HeapSettings} {origin : Heap}
    (hcreate : create settings = .ok origin) : origin.WellOrdered origin := by
  have hnone : ∀ {ref : Ref} {object : HeapObject}, origin.get? ref ≠ some object := by
    intro ref object hget
    cases (get?_create hcreate ref).symm.trans hget
  exact ⟨⟨[], vacant_of_create hcreate, .refl origin, fun _ => ⟨fun hget => (hnone hget).elim⟩⟩,
    fun hget => (hnone hget).elim⟩

/-- A fixed object was issued, and what was issued before stays so. -/
theorem Heap.WellOrdered.allocateFixed {origin heap after : Heap} (hheap : origin.WellOrdered heap)
    {payload : Object} {roots : List Ref} {ref : Ref}
    (hok : heap.allocate { payload } roots = .ok ref after)
    (hedges : ∀ edge ∈ payload.edges, origin.IssuedSince heap edge) :
    origin.WellOrdered after ∧ origin.IssuedSince after ref ∧
      ∀ other, origin.IssuedSince heap other → origin.IssuedSince after other := by
  have hheld : ∀ edge ∈ HeapObject.edges { payload }, origin.IssuedSince heap edge := hedges
  obtain ⟨hcontinues, hafter⟩ := hheap.allocate hheld hok
  exact ⟨hafter, fun _ => issued_of_get? (get?_allocate_self hheap.coherent hok),
    fun _ hissued => hheap.issued hcontinues hissued⟩

namespace Interpreter

variable {config : Config} {symbols : SymbolTable} {origin : Heap} {state after : Interpreter}

theorem wellOrdered_allocateAllFixed {reserved : Reserved} {made : Heap}
    {fixed : Fixed} (horigin : origin.WellOrdered origin)
    (hok : allocateAllFixed reserved origin = .ok fixed made) :
    origin.WellOrdered made ∧ ∀ ref ∈ fixed.edges, origin.IssuedSince made ref := by
  refine allocateAllFixed_induction (motive := fun heap made =>
    origin.WellOrdered heap ∧ ∀ ref ∈ made.map (·.1), origin.IssuedSince heap ref)
    hok ⟨horigin, nofun⟩ ?_
  intro heap after before payload ref hbefore hfits hallocate
  obtain ⟨hafter, hissued, hkeep⟩ := hbefore.1.allocateFixed hallocate fun edge hedge =>
    hbefore.2 edge (hfits.edges_subset hedge)
  refine ⟨hafter, fun other hother => ?_⟩
  rw [List.map_append] at hother
  rcases List.mem_append.mp hother with hold | hnew
  · exact hkeep other (hbefore.2 other hold)
  · cases List.mem_singleton.mp hnew
    exact hissued

/-- The base environment is filled in a state in order. -/
theorem exists_ordered_withFixed (hcreate : Heap.create config.heap = .ok origin)
    (hstart : start config symbols = .ok state) :
    ∃ fixed made, Ordered origin (withFixed config (Reserved.intern.run symbols).2
        (Reserved.intern.run symbols).1 fixed made) ∧
      installBase (withFixed config (Reserved.intern.run symbols).2
        (Reserved.intern.run symbols).1 fixed made) = .ok () state := by
  obtain ⟨heap, fixed, made, hheap, hmade, hbase⟩ := start_eq_ok hstart
  cases hcreate.symm.trans hheap
  obtain ⟨hordered, hfixed⟩ := wellOrdered_allocateAllFixed (Heap.wellOrdered_create hcreate) hmade
  exact ⟨fixed, made, ⟨hordered, hfixed, rfl⟩, hbase⟩

/-- An interpreter starts in order. -/
theorem sound_orderLaw_start (hcreate : Heap.create config.heap = .ok origin)
    (hstart : start config symbols = .ok state) :
    (orderLaw origin).Sound state := by
  obtain ⟨fixed, made, hordered, hbase⟩ := exists_ordered_withFixed hcreate hstart
  have hsound : (orderLaw origin).Sound (withFixed config (Reserved.intern.run symbols).2
      (Reserved.intern.run symbols).1 fixed made) := ⟨hordered, nofun, nofun, trivial⟩
  exact ((RefLaw.coincide_installBase
    (fun _ _ => ⟨trivial, fun _ _ _ => trivial⟩) hsound).value hbase).1

/-- **Every state of a session is in order.** -/
theorem sound_orderLaw_of_visits (hcreate : Heap.create config.heap = .ok origin)
    (hstart : start config symbols = .ok state) (hvisits : state.Visits (fun _ _ _ => True) after) :
    (orderLaw origin).Sound after :=
  RefLaw.sound_of_visits (cache_of_ordered origin) (fun hhas => hhas)
    (sound_orderLaw_start hcreate hstart) hvisits

end Interpreter

end LazyDispatch
