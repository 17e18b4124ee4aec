import LazyDispatch.Eval.Vectors
import LazyDispatch.Proofs.PausedCalls
import LazyDispatch.Proofs.VectorCoercion

/-!
# Values are put together with one coercion

The builtin `c` reads all values before it allocates a vector.  For a list it
allocates the items that come from atomic vectors one by one, and protects them
until the list exists.  A step that only allocates and protects objects gains
some (`Interpreter.Gains`), and what the roots lead to stays as it was.  Such
steps follow each other until the last one is done or memory runs out
(`Eval.Accrues`).

The result is of the widest kind among the values, and its elements are those of
the values in their order, each coerced once.
-/

namespace LazyDispatch

/-! ## Steps that gain objects -/

/-- At most so many objects were allocated, and some of them protected. -/
structure Interpreter.Gains (scope : Scope) (count : Nat)
    (state after : Interpreter) : Prop where
  keeps : state.Keeps scope after
  others : after = { state with heap := after.heap, roots := after.roots }
  heap : state.heap.TakesUp state.rootRefs count after.heap

namespace Interpreter.Gains

variable {scope : Scope} {count more : Nat} {state middle after : Interpreter} {ref : Ref}

theorem rootRefs_subset (hgains : state.Gains scope count after) :
    state.rootRefs ⊆ after.rootRefs := by
  have hedges := hgains.keeps.edges_subset
  rw [hgains.others]
  intro root hroot
  simp only [rootRefs, List.mem_append] at hroot ⊢
  rcases hroot with ((hfixed | hprotected) | hcalls) | hcached
  · exact Or.inl (Or.inl (Or.inl hfixed))
  · exact Or.inl (Or.inl (Or.inr (hedges hprotected)))
  · exact Or.inl (Or.inr hcalls)
  · exact Or.inr hcached

theorem refl (hheap : state.heap.Coherent) (scope : Scope) :
    state.Gains scope 0 state :=
  ⟨.of_eq rfl rfl, rfl, .refl hheap _ _⟩

theorem trans (hfirst : state.Gains scope count middle)
    (hsecond : middle.Gains scope more after) :
    state.Gains scope (count + more) after := by
  refine ⟨hfirst.keeps.trans hsecond.keeps, ?_,
    hfirst.heap.trans hfirst.rootRefs_subset hsecond.heap⟩
  rw [hsecond.others, hfirst.others]

theorem mono (hgains : state.Gains scope count after) (hle : count ≤ more) :
    state.Gains scope more after := by
  refine ⟨hgains.keeps, hgains.others, hgains.heap.coherent, hgains.heap.retains, ?_⟩
  intro rest hroom
  exact hgains.heap.room rest (hroom.mono (Nat.add_le_add_left hle rest))

theorem get? (hgains : state.Gains scope count after)
    (hroot : ref ∈ state.rootRefs) {object : HeapObject}
    (hget : state.heap.get? ref = some object) :
    after.heap.get? ref = some object :=
  (hgains.heap.retains ref hroot).get? hget

theorem sound (hgains : state.Gains scope count after) (hstate : state.Sound) :
    after.Sound := by
  obtain ⟨attributes, hnull⟩ := hstate.null
  have hroot : state.fixed.null ∈ state.rootRefs := by
    simp [rootRefs, Fixed.edges]
  have hfixed : after.fixed = state.fixed := by rw [hgains.others]
  have hreserved : after.reserved = state.reserved := by rw [hgains.others]
  exact ⟨hgains.heap.coherent, ⟨attributes, hfixed ▸ hgains.get? hroot hnull⟩,
    hreserved ▸ hstate.symbols⟩

end Interpreter.Gains

/-- A step gains objects and comes to a result, or memory runs out. -/
def Eval.Accrues {α : Type} (action : Eval α) (scope : Scope)
    (state : Interpreter) (count : Nat) (post : Interpreter → α → Prop) :
    Prop :=
  (∃ value after, action state = .ok value after ∧
    state.Gains scope count after ∧ post after value) ∨
    action.RunsOut state count

namespace Eval.Accrues

variable {α β : Type} {action : Eval α} {scope : Scope} {state : Interpreter} {count more : Nat}
  {post : Interpreter → α → Prop}

theorem pure (hheap : state.heap.Coherent) {value : α}
    (hpost : post state value) :
    (Pure.pure value : Eval α).Accrues scope state 0 post :=
  Or.inl ⟨value, state, rfl, .refl hheap scope, hpost⟩

theorem of_eq {other : Eval α} (hsame : action state = other state)
    (hother : other.Accrues scope state count post) :
    action.Accrues scope state count post := by
  unfold Accrues RunsOut at hother ⊢
  rw [hsame]
  exact hother

theorem mono (haction : action.Accrues scope state count post)
    (hle : count ≤ more) :
    action.Accrues scope state more post := by
  rcases haction with ⟨value, after, hok, hgains, hpost⟩ | hout
  · exact Or.inl ⟨value, after, hok, hgains.mono hle, hpost⟩
  · exact Or.inr (hout.mono hle)

theorem imp {other : Interpreter → α → Prop} (haction : action.Accrues scope state count post)
    (himp : ∀ value after, state.Gains scope count after → post after value → other after value) :
    action.Accrues scope state count other := by
  rcases haction with ⟨value, after, hok, hgains, hpost⟩ | hout
  · exact Or.inl ⟨value, after, hok, hgains, himp value after hgains hpost⟩
  · exact Or.inr hout

theorem bind {next : α → Eval β} {other : Interpreter → β → Prop}
    (haction : action.Accrues scope state count post)
    (hnext : ∀ value middle, state.Gains scope count middle →
      post middle value → (next value).Accrues scope middle more other) :
    (action >>= next).Accrues scope state (count + more) other := by
  rcases haction with ⟨value, middle, hok, hgains, hpost⟩ | hout
  · rcases hnext value middle hgains hpost with ⟨result, after, hlast, hmore, hother⟩ | hout
    · exact Or.inl ⟨result, after, (bind_of_ok hok).trans hlast, hgains.trans hmore, hother⟩
    · refine Or.inr (hout.of_eq ?_ fun _ _ hfault => (bind_of_ok hok).trans hfault)
      intro hroom
      rw [Nat.add_comm] at hroom
      exact hgains.heap.room more hroom
  · exact Or.inr ((hout.bind next).mono (Nat.le_add_right _ _))

/-- A last step gains nothing. -/
theorem last {next : α → Eval β} {other : Interpreter → β → Prop}
    (haction : action.Accrues scope state count post)
    (hnext : ∀ value middle, state.Gains scope count middle →
      post middle value → (next value).Accrues scope middle 0 other) :
    (action >>= next).Accrues scope state count other :=
  haction.bind hnext

/-- A step for each item.  What holds of an item and its result is not undone by
the steps that follow. -/
theorem mapM {f : α → Eval β} (cost : α → Nat) (pre : Interpreter → α → Prop)
    (post : Interpreter → α → β → Prop)
    (hpre : ∀ {state count after item}, state.Gains scope count after →
      pre state item → pre after item)
    (hpost : ∀ {state count after item value}, state.Gains scope count after →
      post state item value → post after item value)
    (hstep : ∀ {state item}, state.heap.Coherent → pre state item →
      (f item).Accrues scope state (cost item) (post · item)) {items : List α}
    (hheap : state.heap.Coherent) (hitems : ∀ item ∈ items, pre state item) :
    (items.mapM f).Accrues scope state (items.map cost).sum
      fun after values => List.Forall₂ (post after) items values := by
  induction items generalizing state with
  | nil => exact .pure hheap .nil
  | cons item items ih =>
      obtain ⟨hitem, hrest⟩ := List.forall_mem_cons.mp hitems
      rw [List.mapM_cons, List.map_cons, List.sum_cons]
      apply (hstep hheap hitem).bind
      intro value middle hgains hvalue
      apply (ih hgains.heap.coherent fun other hother => hpre hgains (hrest other hother)).last
      intro values after hlater hvalues
      exact .pure hlater.heap.coherent (.cons (hpost hlater hvalue) hvalues)

/-- Where there is room, a step comes to its result. -/
theorem exists_of_hasRoom (haction : action.Accrues scope state count post)
    (hroom : state.heap.HasRoom count) :
    ∃ value after, action state = .ok value after ∧ post after value := by
  rcases haction with ⟨value, after, hok, -, hpost⟩ | hout
  · exact ⟨value, after, hok, hpost⟩
  · exact absurd hroom hout.1

/-- A region drops the roots that were made inside. -/
theorem withRoots (made : Heap → α → Prop)
    (haction : action.Accrues .protecting state count fun after value => made after.heap value) :
    (withRoots action).Accrues .settled state count fun after value => made after.heap value := by
  rcases haction with ⟨value, middle, hok, hgains, hmade⟩ | hout
  · refine Or.inl ⟨value, _, withRoots_of_ok hok hgains.keeps.roots, ?_, hmade⟩
    refine ⟨⟨hgains.keeps.calls, rfl, hgains.keeps.preserved⟩, ?_, hgains.heap⟩
    rw [Interpreter.withEntries, hgains.others]
  · apply Or.inr (hout.of_eq id ?_)
    intro cause after hfault
    apply withRoots_of_stop hfault
    intro err heq
    cases heq

end Eval.Accrues

namespace Eval

variable {scope : Scope} {state : Interpreter} {ref : Ref}

theorem accrues_allocate (hheap : state.heap.Coherent) (object : HeapObject) :
    (allocate object).Accrues scope state 1 fun after ref => after.heap.get? ref = some object := by
  rcases allocate_cases hheap object with ⟨ref, heap, hallocate, hok⟩ | hout
  · exact Or.inl ⟨ref, _, hok, ⟨.of_eq rfl rfl, rfl, .allocate hheap hallocate⟩,
      Heap.get?_allocate_self hheap hallocate⟩
  · exact Or.inr hout

theorem accrues_protect (hheap : state.heap.Coherent) (ref : Ref) :
    (protect ref).Accrues .protecting state 0 fun after _ =>
      after.heap = state.heap ∧ ref ∈ after.rootRefs := by
  refine Or.inl ⟨_, _, rfl, ⟨⟨rfl, ?_, rfl⟩, rfl, .refl hheap _ _⟩, rfl, ?_⟩
  · show _ <+: (state.roots.entries.push _).toList
    rw [Array.toList_push]
    exact List.prefix_append _ _
  · simp [Interpreter.rootRefs, RootStack.edges]

theorem allocPayload_of_ne_null {object : Object} (hnull : object ≠ .null) :
    allocPayload object = allocate ⟨object, []⟩ := by
  cases object with
  | null => exact absurd rfl hnull
  | _ => rfl

/-- The null object is there already. -/
theorem accrues_allocPayload (hstate : state.Sound) (object : Object) :
    (allocPayload object).Accrues scope state 1 fun after ref =>
      ∃ attributes, after.heap.get? ref = some ⟨object, attributes⟩ := by
  by_cases hnull : object = .null
  · rw [hnull]
    exact Accrues.mono
      (Or.inl ⟨_, state, rfl, .refl hstate.heap scope, hstate.null⟩)
      (Nat.zero_le 1)
  · rw [allocPayload_of_ne_null hnull]
    exact (accrues_allocate hstate.heap _).imp fun _ _ _ hget => ⟨[], hget⟩

end Eval

/-! ## What values contribute -/

namespace Heap

/-- The payload that a reference stands for. -/
def payloadOf (heap : Heap) (ref : Ref) : Object :=
  ((heap.get? ref).map (·.payload)).getD .null

/-- The kind of an object. -/
def kindOf (heap : Heap) (ref : Ref) : Mode :=
  (heap.payloadOf ref).mode

/-- The elements of an object. -/
def elementsOf (heap : Heap) (ref : Ref) : List Element :=
  (heap.payloadOf ref).elements ref

/-- The widest kind among values. -/
def widest (heap : Heap) (values : List Ref) : Mode :=
  Object.widestMode (values.map heap.payloadOf)

/-- The elements of values in their order, coerced to the widest kind among
them. -/
def combined (heap : Heap) (values : List Ref) : List Element :=
  (values.flatMap heap.elementsOf).map (Element.coerce (heap.widest values))

/-- An item of a list stands for an element: it is the object itself, or a
vector of length one. -/
inductive Represents (heap : Heap) : Element → Ref → Prop
  | itself (ref : Ref) : Represents heap (.object ref) ref
  | scalar {element : Element} {object : Object} {ref : Ref}
      (hscalar : element.scalar? = some object)
      (hget : heap.get? ref = some ⟨object, []⟩) : Represents heap element ref

/-- The object at a reference is a vector of a kind or a list, and consists of
elements. -/
inductive Consists (heap : Heap) (ref : Ref) : Mode → List Element → Prop
  | vector {payload : Object} {attributes : List (Symbol × Ref)}
      (hget : heap.get? ref = some ⟨payload, attributes⟩) (hmode : payload.mode ≠ .list) :
      Consists heap ref payload.mode (payload.elements ref)
  | list {items : List Ref} {elements : List Element}
      (hget : heap.get? ref = some ⟨.list items, []⟩)
      (hitems : List.Forall₂ heap.Represents elements items) :
      Consists heap ref .list elements

variable {heap : Heap} {ref : Ref} {object : HeapObject} {mode : Mode} {elements : List Element}

theorem payloadOf_of_get? (hget : heap.get? ref = some object) :
    heap.payloadOf ref = object.payload := by
  rw [payloadOf, hget]
  rfl

theorem isWidest_widest (heap : Heap) (values : List Ref) :
    Mode.IsWidest (values.map heap.kindOf) (heap.widest values) := by
  have hwidest := Object.isWidest_widestMode (values.map heap.payloadOf)
  rw [List.map_map] at hwidest
  exact hwidest

theorem rank_kindOf_le {values : List Ref} (hmem : ref ∈ values) :
    (heap.kindOf ref).rank ≤ (heap.widest values).rank :=
  (heap.isWidest_widest values).bound _ (List.mem_map_of_mem hmem)

/-- **Up to doubles, a vector that values were put together to makes up for
them.** -/
theorem combined_cons_of_combined {later : Heap} {inner : Ref}
    {xs ys : List Ref} (hkind : later.kindOf inner = heap.widest xs)
    (helements : later.elementsOf inner = heap.combined xs)
    (hsame : ∀ value ∈ ys, later.payloadOf value = heap.payloadOf value)
    (hdouble : (heap.widest (xs ++ ys)).rank ≤ Mode.double.rank) :
    later.widest (inner :: ys) = heap.widest (xs ++ ys) ∧
      later.combined (inner :: ys) = heap.combined (xs ++ ys) := by
  have hwidest : later.widest (inner :: ys) = heap.widest (xs ++ ys) := by
    rw [widest, widest, List.map_cons, List.map_congr_left hsame, List.map_append]
    exact Object.widestMode_cons_of_mode hkind _
  have hwider : (heap.widest xs).rank ≤ (heap.widest (xs ++ ys)).rank := by
    apply (heap.isWidest_widest xs).rank_le
    exact List.forall_mem_map.mpr fun value hvalue => rank_kindOf_le (List.mem_append_left _ hvalue)
  have hothers : ys.flatMap later.elementsOf = ys.flatMap heap.elementsOf := by
    apply List.flatMap_congr
    intro value hvalue
    rw [elementsOf, elementsOf, hsame value hvalue]
  refine ⟨hwidest, ?_⟩
  rw [combined, hwidest, List.flatMap_cons, helements, hothers, combined,
    combined, List.flatMap_append, List.map_append, List.map_append,
    List.map_map]
  exact congrArg (· ++ _) (List.map_congr_left fun element _ =>
    Element.coerce_coerce hwider hdouble element)

theorem Consists.of_ne_list (hconsists : heap.Consists ref mode elements) (hmode : mode ≠ .list) :
    heap.isLive ref = true ∧ heap.kindOf ref = mode ∧ heap.elementsOf ref = elements := by
  cases hconsists with
  | vector hget _ =>
      rw [kindOf, elementsOf, payloadOf_of_get? hget]
      exact ⟨isLive_of_get? hget, rfl, rfl⟩
  | list _ _ => exact absurd rfl hmode

theorem Consists.length (hconsists : heap.Consists ref mode elements) :
    (heap.payloadOf ref).length = elements.length := by
  cases hconsists with
  | vector hget hmode => rw [payloadOf_of_get? hget, Object.length_elements hmode]
  | list hget hitems =>
      rw [payloadOf_of_get? hget]
      exact hitems.length_eq.symm

end Heap

namespace Interpreter

/-- The roots hold an object that is there. -/
def Provides (state : Interpreter) (ref : Ref) : Prop :=
  state.heap.isLive ref = true ∧ ref ∈ state.rootRefs

/-- An item stands for an element and goes on to do so: a vector of length one
is held by the roots. -/
def Secures (state : Interpreter) (element : Element) (item : Ref) : Prop :=
  state.heap.Represents element item ∧ (element = .object item ∨ item ∈ state.rootRefs)

theorem Gains.provides {state after : Interpreter} {scope : Scope} {count : Nat} {ref : Ref}
    (hgains : state.Gains scope count after) (hprovides : state.Provides ref) :
    after.heap.isLive ref = true ∧ after.heap.payloadOf ref = state.heap.payloadOf ref := by
  obtain ⟨hlive, hroot⟩ := hprovides
  obtain ⟨object, hget⟩ := Option.isSome_iff_exists.mp hlive
  have hlater := hgains.get? hroot hget
  rw [Heap.payloadOf_of_get? hlater, Heap.payloadOf_of_get? hget]
  exact ⟨Heap.isLive_of_get? hlater, rfl⟩

theorem Secures.of_gains {state after : Interpreter} {scope : Scope}
    {count : Nat} {element : Element} {item : Ref}
    (hsecures : state.Secures element item)
    (hgains : state.Gains scope count after) :
    after.Secures element item := by
  obtain ⟨hrepresents, hheld⟩ := hsecures
  cases hrepresents with
  | itself ref => exact ⟨.itself _, Or.inl rfl⟩
  | scalar hscalar hget =>
      rcases hheld with rfl | hroot
      · cases hscalar
      · exact ⟨.scalar hscalar (hgains.get? hroot hget), Or.inr (hgains.rootRefs_subset hroot)⟩

end Interpreter

namespace Eval

variable {state : Interpreter} {ref : Ref} {values : List Ref}

/-- An atomic vector is split: there is a protected vector of length one for
each element. -/
theorem accrues_scalars (hheap : state.heap.Coherent) {object : Object}
    (hmode : object.mode ≠ .list) (ref : Ref) :
    (object.scalars.mapM fun scalar => do
        let item ← allocPayload scalar
        let _ ← protect item
        return item : Eval (List Ref)).Accrues .protecting state (object.elements ref).length
      fun after items => List.Forall₂ after.Secures (object.elements ref) items := by
  have hscalars := Object.map_some_scalars hmode ref
  have hcost : (object.elements ref).length = (object.scalars.map fun _ => 1).sum := by
    have hlength := congrArg List.length hscalars
    rw [List.length_map, List.length_map] at hlength
    rw [List.map_const', List.sum_replicate_nat, Nat.mul_one, hlength]
  rw [hcost]
  apply Accrues.imp (Accrues.mapM (fun _ => 1) (fun _ scalar => scalar ≠ .null)
    (fun after scalar item => item ∈ after.rootRefs ∧ after.heap.get? item = some ⟨scalar, []⟩)
    ?_ ?_ ?_ hheap fun _ => Object.ne_null_of_mem_scalars)
  · intro items after _ hitems
    -- Both sides of the equation of scalars are related to the items.
    have hpairs : List.Forall₂ (fun scalar? item => ∃ scalar, scalar? = some scalar ∧
        item ∈ after.rootRefs ∧ after.heap.get? item = some ⟨scalar, []⟩)
        (object.scalars.map some) items :=
      List.forall₂_map_left_iff.mpr (hitems.imp fun scalar _ hitem => ⟨scalar, rfl, hitem⟩)
    rw [hscalars, List.forall₂_map_left_iff] at hpairs
    apply hpairs.imp
    intro element item hpair
    obtain ⟨scalar, hscalar, hroot, hget⟩ := hpair
    exact ⟨.scalar hscalar hget, Or.inr hroot⟩
  · exact fun _ hne => hne
  · exact fun hgains hitem => ⟨hgains.rootRefs_subset hitem.1, hgains.get? hitem.1 hitem.2⟩
  · intro state scalar hheap hne
    rw [allocPayload_of_ne_null hne]
    apply (accrues_allocate hheap _).last
    intro item middle hgains hget
    apply (accrues_protect hgains.heap.coherent item).last
    intro _ after hlater hprotected
    exact .pure hlater.heap.coherent ⟨hprotected.2, hprotected.1 ▸ hget⟩

/-- What a value contributes to a list stands for its elements. -/
theorem accrues_listItems (hheap : state.heap.Coherent) {object : HeapObject}
    (hget : state.heap.get? ref = some object) :
    (listItems ref).Accrues .protecting state (object.payload.elements ref).length
      fun after items => List.Forall₂ after.Secures (object.payload.elements ref) items := by
  apply Accrues.of_eq (bind_of_ok (lift_of_ok (payload_of_get? hget)))
  split
  · next items hlist =>
      rw [hlist]
      apply Accrues.mono (.pure hheap ?_) (Nat.zero_le _)
      exact List.forall₂_map_left_iff.mpr
        (List.forall₂_same.mpr fun item _ => ⟨.itself item, Or.inl rfl⟩)
  · next hnull =>
      rw [hnull]
      exact .pure hheap .nil
  · next hlist hnull =>
      by_cases hmode : object.payload.mode = .list
      · rw [if_pos hmode, Object.elements_of_mode hmode hlist]
        apply Accrues.mono (.pure hheap ?_) (Nat.zero_le _)
        exact .cons ⟨.itself ref, Or.inl rfl⟩ .nil
      · rw [if_neg hmode]
        exact accrues_scalars hheap hmode ref

/-- What values contribute to a list stands for their elements in order.  The
values are there when their turn comes, since the roots hold them. -/
theorem accrues_items (hheap : state.heap.Coherent)
    (hvalues : ∀ value ∈ values, state.Provides value) :
    (values.mapM listItems).Accrues .protecting state (values.flatMap state.heap.elementsOf).length
      fun after items =>
        List.Forall₂ after.Secures (values.flatMap state.heap.elementsOf) items.flatten := by
  rw [List.length_flatMap]
  apply Accrues.imp (Accrues.mapM _
    (fun later value => value ∈ later.rootRefs ∧
      ∃ object, state.heap.get? value = some object ∧ later.heap.get? value = some object)
    (fun later value items => List.Forall₂ later.Secures (state.heap.elementsOf value) items)
    ?_ ?_ ?_ hheap ?_)
  · intro items after _ hitems
    rw [List.flatMap_def]
    exact List.rel_flatten (List.forall₂_map_left_iff.mpr hitems)
  · intro later count after value hgains hvalue
    obtain ⟨hroot, object, hfirst, hget⟩ := hvalue
    exact ⟨hgains.rootRefs_subset hroot, object, hfirst, hgains.get? hroot hget⟩
  · intro later count after value items hgains hitems
    exact hitems.imp fun _ _ hsecures => hsecures.of_gains hgains
  · intro later value hcoherent hvalue
    obtain ⟨-, object, hfirst, hget⟩ := hvalue
    rw [Heap.elementsOf, Heap.payloadOf_of_get? hfirst]
    exact accrues_listItems hcoherent hget
  · intro value hvalue
    obtain ⟨hlive, hroot⟩ := hvalues value hvalue
    obtain ⟨object, hget⟩ := Option.isSome_iff_exists.mp hlive
    exact ⟨hroot, object, hget, hget⟩

theorem mapM_payload (hlive : ∀ value ∈ values, state.heap.isLive value = true)
    :
    (values.mapM fun ref => payload ref : Eval (List Object)) state =
      .ok (values.map state.heap.payloadOf) state := by
  induction values with
  | nil => rfl
  | cons value values ih =>
      obtain ⟨hvalue, hrest⟩ := List.forall_mem_cons.mp hlive
      obtain ⟨object, hget⟩ := Option.isSome_iff_exists.mp hvalue
      rw [List.mapM_cons, List.map_cons, Heap.payloadOf_of_get? hget]
      exact (bind_of_ok (lift_of_ok (payload_of_get? hget))).trans (bind_of_ok (ih hrest))

/-- Values that are not put together as a list. -/
theorem accrues_combine_vector (hstate : state.Sound) (invocation : Invocation)
    (hlive : ∀ value ∈ Args.values invocation.args, state.heap.isLive value = true)
    (hmode : state.heap.widest (Args.values invocation.args) ≠ .list) :
    (combine invocation).Accrues .settled state 1 fun after result =>
      after.heap.Consists result (state.heap.widest (Args.values invocation.args))
        (state.heap.combined (Args.values invocation.args)) := by
  obtain ⟨object, hconcat, hkind, helements⟩ := Object.exists_concat hmode
    fun value hvalue => Heap.rank_kindOf_le hvalue
  apply Accrues.of_eq (bind_of_ok (mapM_payload hlive))
  rw [show Object.concat? _ (Object.widestMode _) = some object from hconcat]
  apply (accrues_allocPayload hstate object).imp
  intro result after _ hmade
  obtain ⟨attributes, hget⟩ := hmade
  have hconsists := Heap.Consists.vector hget (hkind ▸ hmode)
  rw [hkind, helements] at hconsists
  exact hconsists

/-- Values that are put together as a list. -/
theorem accrues_combine_list (hstate : state.Sound) (invocation : Invocation)
    (hvalues : ∀ value ∈ Args.values invocation.args, state.Provides value)
    (hmode : state.heap.widest (Args.values invocation.args) = .list) :
    (combine invocation).Accrues .settled state
      (((Args.values invocation.args).flatMap state.heap.elementsOf).length + 1) fun after result =>
        after.heap.Consists result .list
          ((Args.values invocation.args).flatMap state.heap.elementsOf) := by
  apply Accrues.of_eq (bind_of_ok (mapM_payload fun value hvalue => (hvalues value hvalue).1))
  rw [show Object.concat? _ (Object.widestMode _) = none from congrArg (Object.concat? _) hmode]
  apply Accrues.withRoots fun heap result =>
    heap.Consists result .list ((Args.values invocation.args).flatMap state.heap.elementsOf)
  apply (accrues_items hstate.heap hvalues).bind
  intro items middle hgains hitems
  apply (accrues_allocate hgains.heap.coherent ⟨.list items.flatten, []⟩).imp
  intro result after hlater hget
  -- The items are still protected when the list is allocated.
  exact .list hget (hitems.imp fun _ _ hsecures => (hsecures.of_gains hlater).1)

/-- **Values are put together in order with one coercion.** -/
theorem accrues_combine (hstate : state.Sound) (invocation : Invocation)
    (hvalues : ∀ value ∈ Args.values invocation.args, state.Provides value) :
    (combine invocation).Accrues .settled state
      (((Args.values invocation.args).flatMap state.heap.elementsOf).length + 1) fun after result =>
        after.heap.Consists result (state.heap.widest (Args.values invocation.args))
          (state.heap.combined (Args.values invocation.args)) := by
  by_cases hmode : state.heap.widest (Args.values invocation.args) = .list
  · rw [Heap.combined, hmode,
      List.map_congr_left fun element _ => Element.coerce_list element,
      List.map_id']
    exact accrues_combine_list hstate invocation hvalues hmode
  · exact (accrues_combine_vector hstate invocation (fun value hvalue => (hvalues value hvalue).1)
      hmode).mono (Nat.le_add_left _ _)

/-- Values are put together, and the result with further ones. -/
def combineNested (invocation : Invocation) (xs : List Arg) (tag : Option Symbol) (ys : List Arg) :
    Eval Ref := do
  let inner ← combine { invocation with args := xs }
  combine { invocation with args := ⟨tag, some inner⟩ :: ys }

/-- Up to doubles, putting values together in two steps comes to the same. -/
theorem accrues_combineNested (hstate : state.Sound) (invocation : Invocation) (xs : List Arg)
    (tag : Option Symbol) (ys : List Arg)
    (hvalues : ∀ value ∈ Args.values (xs ++ ys), state.Provides value)
    (hdouble : (state.heap.widest (Args.values (xs ++ ys))).rank ≤ Mode.double.rank) :
    (combineNested invocation xs tag ys).Accrues .settled state 2 fun after result =>
      after.heap.Consists result (state.heap.widest (Args.values (xs ++ ys)))
        (state.heap.combined (Args.values (xs ++ ys))) := by
  rw [show Args.values (xs ++ ys) = Args.values xs ++ Args.values ys from List.filterMap_append]
    at hvalues hdouble ⊢
  obtain ⟨hxs, hys⟩ := List.forall_mem_append.mp hvalues
  have hvector : state.heap.widest (Args.values xs) ≠ .list := by
    apply Mode.ne_list_of_rank_le
    apply (state.heap.isWidest_widest (Args.values xs)).rank_le
    intro kind hkind
    obtain ⟨value, hvalue, rfl⟩ := List.mem_map.mp hkind
    exact Nat.le_trans (Heap.rank_kindOf_le (List.mem_append_left _ hvalue)) hdouble
  show Accrues _ _ _ (1 + 1) _
  apply (accrues_combine_vector hstate { invocation with args := xs }
    (fun value hvalue => (hxs value hvalue).1) hvector).bind
  intro inner middle hgains hmade
  obtain ⟨hlive, hkind, helements⟩ := hmade.of_ne_list hvector
  -- The further values are as they were.
  have hlater := fun value hvalue => hgains.provides (hys value hvalue)
  obtain ⟨hwidest, hcombined⟩ := Heap.combined_cons_of_combined hkind helements
    (fun value hvalue => (hlater value hvalue).2) hdouble
  rw [← hwidest, ← hcombined]
  apply accrues_combine_vector (hgains.sound hstate)
    { invocation with args := ⟨tag, some inner⟩ :: ys }
  · exact List.forall_mem_cons.mpr ⟨hlive, fun value hvalue => (hlater value hvalue).1⟩
  · exact Mode.ne_list_of_rank_le (hwidest.symm ▸ hdouble)

/-- **Values are put together in order with one coercion.**  The result is of
the widest kind among the values.  It consists of their elements in order, each
coerced to that kind, and is as long as all of them together.  If no value is
wider than doubles, putting some of them together first comes to the same kind
and the same elements. -/
theorem combination_is_one_coercion (hstate : state.Sound) (invocation : Invocation) :
    (∀ args : List Arg, (∀ value ∈ Args.values args, state.Provides value) →
      ∃ mode, Mode.IsWidest ((Args.values args).map state.heap.kindOf) mode ∧
        (combine { invocation with args }).Accrues .settled state
          (((Args.values args).map fun value => (state.heap.elementsOf value).length).sum + 1)
          fun after result =>
            after.heap.Consists result mode
              (((Args.values args).flatMap state.heap.elementsOf).map (Element.coerce mode)) ∧
            (after.heap.payloadOf result).length =
              ((Args.values args).map fun value => (state.heap.elementsOf value).length).sum) ∧
    ∀ (xs : List Arg) (tag : Option Symbol) (ys : List Arg),
      (∀ value ∈ Args.values (xs ++ ys), state.Provides value ∧
        (state.heap.kindOf value).rank ≤ Mode.double.rank) →
      ∃ mode elements, mode ≠ .list ∧
        ((combineNested invocation xs tag ys).Accrues .settled state 2 fun after result =>
          after.heap.Consists result mode elements) ∧
        (combine { invocation with args := xs ++ ys }).Accrues .settled state 1 fun after result =>
          after.heap.Consists result mode elements := by
  constructor
  · intro args hvalues
    refine ⟨_, state.heap.isWidest_widest _, ?_⟩
    rw [← List.length_flatMap]
    apply (accrues_combine hstate { invocation with args } hvalues).imp
    intro result after _ hconsists
    refine ⟨hconsists, ?_⟩
    rw [hconsists.length, Heap.combined, List.length_map]
  · intro xs tag ys hvalues
    have hprovides := fun value hvalue => (hvalues value hvalue).1
    have hdouble : (state.heap.widest (Args.values (xs ++ ys))).rank ≤ Mode.double.rank := by
      apply (state.heap.isWidest_widest _).rank_le
      exact List.forall_mem_map.mpr fun value hvalue => (hvalues value hvalue).2
    have hvector := Mode.ne_list_of_rank_le hdouble
    exact ⟨_, _, hvector, accrues_combineNested hstate invocation xs tag ys hprovides hdouble,
      accrues_combine_vector hstate { invocation with args := xs ++ ys }
        (fun value hvalue => (hprovides value hvalue).1) hvector⟩

end Eval

/-! ## Vectors that are put together -/

section Witness

open Eval

/-- Makes arguments of several kinds, with an empty one among them. -/
def makeVectors : Eval (List Arg × List Arg × Arg) := do
  let flags ← protectedArg none (← allocPayload (.logical [true, false]))
  let count ← protectedArg none (← allocPayload (.integer [2]))
  let half ← protectedArg none (← allocPayload (.double [0.5]))
  let pair ← protectedArg none (← allocPayload (.list (Args.values [flags, count])))
  return ([flags, ⟨none, none⟩, count], [half], pair)

theorem protecting_protectedPayload {α : Type} (object : Object)
    {next : Arg → Eval α}
    (hnext : ∀ arg, (persistence.effect .protecting).Allows (next arg)) :
    (persistence.effect .protecting).Allows
      (allocPayload object >>= fun ref => protectedArg none ref >>= next) :=
  (HeapLaw.settled_allocPayload object).within.bind fun ref =>
    (HeapLaw.protecting_protectedArg none ref).bind hnext

theorem protecting_makeVectors :
    (persistence.effect .protecting).Allows makeVectors :=
  protecting_protectedPayload _ fun _ => protecting_protectedPayload _ fun _ =>
    protecting_protectedPayload _ fun _ => protecting_protectedPayload _
      fun _ => Effect.allows_pure _

/-- Whether the arguments are provided, only the last one is wider than doubles,
and there is room. -/
def vectorsReady (made : List Arg × List Arg × Arg) (state : Interpreter) :
    Bool :=
  let narrow := Args.values (made.1 ++ made.2.1)
  let all := Args.values (made.1 ++ made.2.1 ++ [made.2.2])
  all.all (fun value => state.heap.isLive value && value ∈ state.rootRefs) &&
    narrow.all (fun value => (state.heap.kindOf value).rank ≤ Mode.double.rank) &&
    all.any (fun value => state.heap.kindOf value = .list) &&
    (all.map fun value => (state.heap.elementsOf value).length).sum = 6 && state.heap.fitsMore 7

set_option maxRecDepth 1000000 in
theorem exists_makeVectors : ∃ start xs ys last state,
    Interpreter.start smallConfig .empty = .ok start ∧
    makeVectors start = .ok (xs, ys, last) state ∧
    state.Sound ∧ (∀ value ∈ Args.values (xs ++ ys ++ [last]), state.Provides value) ∧
    (∀ value ∈ Args.values (xs ++ ys), (state.heap.kindOf value).rank ≤ Mode.double.rank) ∧
    (∃ value ∈ Args.values (xs ++ ys ++ [last]), state.heap.kindOf value = .list) ∧
    ((Args.values (xs ++ ys ++ [last])).map fun value =>
      (state.heap.elementsOf value).length).sum = 6 ∧
    state.heap.HasRoom 7 := by
  have hcheck : freshPasses makeVectors vectorsReady = true := by decide +kernel
  obtain ⟨start, ⟨xs, ys, last⟩, state, hstart, hmade, htest⟩ := exists_of_freshPasses hcheck
  simp only [vectorsReady, Bool.and_eq_true, List.all_eq_true, List.any_eq_true,
    decide_eq_true_eq] at htest
  obtain ⟨⟨⟨⟨hprovides, hnarrow⟩, hlist⟩, hsum⟩, hfits⟩ := htest
  have hprecedes := Interpreter.precedes_of_allows protecting_makeVectors (.value hmade)
  exact ⟨start, xs, ys, last, state, hstart, hmade,
    hprecedes.sound (Interpreter.sound_start hstart), hprovides, hnarrow, hlist, hsum,
    Heap.hasRoom_of_fitsMore hfits⟩

/-- With the list, the arguments come to a list of six items.  Without it, they
come to the same vector in one step and in two. -/
theorem combination_is_one_coercion_makeVectors : ∃ start xs ys last state,
    Interpreter.start smallConfig .empty = .ok start ∧
    makeVectors start = .ok (xs, ys, last) state ∧
    state.Sound ∧ ∀ invocation : Invocation,
      (∃ result after elements,
        combine { invocation with args := xs ++ ys ++ [last] } state = .ok result after ∧
        after.heap.Consists result .list elements ∧ (after.heap.payloadOf result).length = 6) ∧
      ∃ nested after flat other mode elements,
        combineNested invocation xs none ys state = .ok nested after ∧
        combine { invocation with args := xs ++ ys } state = .ok flat other ∧ mode ≠ .list ∧
        after.heap.Consists nested mode elements ∧ other.heap.Consists flat mode elements := by
  obtain ⟨start, xs, ys, last, state, hstart, hmade, hsound, hprovides, hnarrow,
    hlist, hsum, hroom⟩ :=
    exists_makeVectors
  refine ⟨start, xs, ys, last, state, hstart, hmade, hsound, ?_⟩
  intro invocation
  obtain ⟨hcombine, hlaw⟩ := combination_is_one_coercion hsound invocation
  constructor
  · obtain ⟨mode, hwidest, haccrues⟩ := hcombine _ hprovides
    rw [hsum] at haccrues
    obtain ⟨result, after, hok, hconsists, hlength⟩ := haccrues.exists_of_hasRoom hroom
    obtain ⟨value, hvalue, hkind⟩ := hlist
    have hmode : mode = .list := by
      have hbound := hwidest.bound _ (List.mem_map_of_mem hvalue)
      rw [hkind] at hbound
      cases mode <;> simp [Mode.rank] at hbound ⊢
    exact ⟨result, after, _, hok, hmode ▸ hconsists, hlength⟩
  · have hvalues : ∀ value ∈ Args.values (xs ++ ys), state.Provides value ∧
        (state.heap.kindOf value).rank ≤ Mode.double.rank := by
      intro value hvalue
      refine ⟨hprovides value ?_, hnarrow value hvalue⟩
      rw [Args.values, List.filterMap_append]
      exact List.mem_append_left _ hvalue
    obtain ⟨mode, elements, hvector, hnested, hflat⟩ := hlaw xs none ys hvalues
    obtain ⟨nested, after, hinner, hconsists⟩ := hnested.exists_of_hasRoom (hroom.mono (by decide))
    obtain ⟨flat, other, houter, hsame⟩ := hflat.exists_of_hasRoom (hroom.mono (by decide))
    exact ⟨nested, after, flat, other, mode, elements, hinner, houter, hvector, hconsists, hsame⟩

end Witness

end LazyDispatch
