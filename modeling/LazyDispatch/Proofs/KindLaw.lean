import LazyDispatch.Proofs.Generations
import LazyDispatch.Proofs.Persistence
import LazyDispatch.Proofs.RefEval
import LazyDispatch.Proofs.Resolution

/-!
# Kinds last

A promise stays a promise, and gathered arguments stay gathered arguments, for
as long as they are not reclaimed.  As long as no generation has come round a
reference never resolves to another object, so what kind of object it stands for
is settled once and for all (`Heap.HasKind`).

This makes a reference law: every live object holds references of the right
kinds, and bindings are in shape.  The faults that it rules out are those of
bindings and promises that are out of shape.

The law comes in two forms.  The strict form tells environments from other
values, and also rules out that something is looked up in what is no
environment.  It does not hold of all evaluations: a method may find any value
where it expects the environments of its dispatch.
-/

namespace LazyDispatch

/-! ## What resolves after a call did so before -/

namespace Heap

variable {heap after : Heap} {ref other : Ref} {object found : HeapObject} {roots : List Ref}

theorem get?_of_collect (hheap : heap.Coherent)
    (hget : (heap.collect roots).2.get? ref = some found) :
    heap.get? ref = some found :=
  get?_of_collected hheap (.collect roots) hget

/-- After an allocation there is the new object and nothing else that is new. -/
theorem get?_of_allocate (hheap : heap.Coherent)
    (hok : heap.allocate object roots = .ok ref after)
    (hget : after.get? other = some found) :
    other = ref ∧ found = object ∨ heap.get? other = some found := by
  rcases get?_of_perform hheap (perform_allocate hok) hget with ⟨href, hobject⟩ | ⟨old, hold, rfl⟩
  · cases href
    cases hobject
    exact Or.inl ⟨rfl, rfl⟩
  · exact Or.inr hold

/-- A new reference did not resolve before. -/
theorem get?_fresh (hheap : heap.Coherent)
    (hok : heap.allocate object roots = .ok ref after) :
    heap.get? ref = none := by
  obtain ⟨_, -, -, hfree, hgeneration⟩ := HeapCall.perform_eq_some hheap (perform_allocate hok)
  cases hget : heap.get? ref with
  | none => rfl
  | some found =>
      -- The cell was reclaimed just before, so it has the next generation.
      have hreclaims : (HeapCall.allocate object roots).reclaims heap ref.address = true := by
        rw [HeapCall.reclaims, hfree, isHeld_of_get? hget]
        rfl
      have hnext := HeapCall.generationAt_collected hheap (.allocate object roots) ref.address
      rw [hgeneration, hreclaims, generationAt_of_get? hget] at hnext
      exact absurd hnext.symm (generation_add_ne _ Nat.one_pos (by decide))

end Heap

/-! ## Heaps that keep kinds -/

namespace Heap

variable {change : HeapObject → HeapObject}

variable {origin heap middle after : Heap} {ref other : Ref} {object found : HeapObject}
  {roots : List Ref} {kind : Kind}

/-- A heap changes into another one, and the objects that are not reclaimed stay
of their kinds. -/
def KeepsKinds (heap after : Heap) : Prop :=
  ∃ calls, heap.Leads [] calls after ∧ ∀ {ref object}, heap.get? ref = some object →
    heap.reclamations ref.address calls = 0 →
    object.SameKind (calls.foldl (HeapCall.amend ref) object)

theorem KeepsKinds.refl (heap : Heap) : heap.KeepsKinds heap :=
  ⟨[], leads_nil heap [], fun _ _ => .refl _⟩

theorem KeepsKinds.coherent (hkeeps : heap.KeepsKinds after)
    (hheap : heap.Coherent) :
    after.Coherent := by
  obtain ⟨calls, hleads, -⟩ := hkeeps
  exact hleads.coherent hheap

/-- Two changes, one after the other, if what is not reclaimed in the first is
there in between. -/
theorem KeepsKinds.trans_of {calls : List HeapCall} (hleads : heap.Leads [] calls middle)
    (hbetween : ∀ {ref object}, heap.get? ref = some object →
      heap.reclamations ref.address calls = 0 → ∃ found, middle.get? ref = some found ∧
        found = calls.foldl (HeapCall.amend ref) object ∧ object.SameKind found)
    (hsecond : middle.KeepsKinds after) : heap.KeepsKinds after := by
  obtain ⟨later, hlater, hkinds⟩ := hsecond
  refine ⟨calls ++ later, hleads.append hlater, fun hget hnever => ?_⟩
  rw [hleads.reclamations_append hlater, Nat.add_eq_zero_iff] at hnever
  obtain ⟨found, hfound, hsame, hkind⟩ := hbetween hget hnever.1
  have hafter := hkinds hfound hnever.2
  rw [List.foldl_append, ← hsame]
  exact hkind.trans hafter

theorem KeepsKinds.trans (hheap : heap.Coherent)
    (hfirst : heap.KeepsKinds middle) (hsecond : middle.KeepsKinds after) :
    heap.KeepsKinds after := by
  obtain ⟨calls, hleads, hkinds⟩ := hfirst
  exact .trans_of hleads (fun hget hnever =>
    ⟨_, hleads.get? hheap hget hnever, rfl, hkinds hget hnever⟩) hsecond

/-- A change of one object that keeps its kind, before anything else. -/
theorem KeepsKinds.update_trans (hget : heap.get? ref = some object)
    (hkind : object.SameKind (change object))
    (hafter : (heap.update ref change).KeepsKinds after) :
    heap.KeepsKinds after := by
  have hleads : heap.Leads [] [.update ref change] (heap.update ref change) :=
    leads_single rfl trivial
  refine .trans_of hleads (fun {other found} hfound _ => ?_) hafter
  refine ⟨_, get?_update hfound ref change, rfl, ?_⟩
  split
  · next heq =>
      subst heq
      cases hget.symm.trans hfound
      exact hkind
  · exact .refl _

theorem keepsKinds_update (hget : heap.get? ref = some object)
    (hkind : object.SameKind (change object)) :
    heap.KeepsKinds (heap.update ref change) :=
  .update_trans hget hkind (.refl _)

/-- A call that stores an object or only collects changes no object. -/
theorem keepsKinds_of_perform {call : HeapCall} {ref? : Option Ref}
    (hok : call.perform heap = .ok ref? after) (hkeeps : call.Keeps [])
    (hamend : ∀ ref object, call.amend ref object = object) :
    heap.KeepsKinds after := by
  refine ⟨[call], leads_single hok hkeeps, fun {ref object} _ _ => ?_⟩
  rw [List.foldl_cons, hamend]
  exact .refl _

theorem keepsKinds_allocate (hok : heap.allocate object roots = .ok ref after) :
    heap.KeepsKinds after :=
  keepsKinds_of_perform (perform_allocate hok) (List.nil_subset _) fun _ _ => rfl

theorem keepsKinds_collect (heap : Heap) (roots : List Ref) :
    heap.KeepsKinds (heap.collect roots).2 := by
  have hok : (HeapCall.collect roots).perform heap =
      .ok none (heap.collect roots).2 := rfl
  exact keepsKinds_of_perform hok (List.nil_subset _) fun _ _ => rfl

/-- A change at the end of an object that was not there at the start, or that is
of the same kind then. -/
theorem KeepsKinds.update (hkeeps : heap.KeepsKinds after)
    (hkind : ∀ object found, heap.get? ref = some object → object.SameKind (change found)) :
    heap.KeepsKinds (after.update ref change) := by
  obtain ⟨calls, hleads, hkinds⟩ := hkeeps
  have hchanged : after.Leads [] [.update ref change] (after.update ref change) :=
    leads_single rfl trivial
  refine ⟨calls ++ [.update ref change], hleads.append hchanged,
    fun {other found} hget hnever => ?_⟩
  rw [hleads.reclamations_append hchanged, Nat.add_eq_zero_iff] at hnever
  rw [List.foldl_append]
  show found.SameKind (if ref = other then _ else _)
  split
  · next heq =>
      subst heq
      exact hkind found _ hget
  · exact hkinds hget hnever.1

/-- No generation came round in either part of a change. -/
theorem KeepsKinds.neverWraps (hheap : heap.Coherent)
    (hfirst : heap.KeepsKinds middle) (hsecond : middle.KeepsKinds after)
    (hwraps : heap.NeverWraps after) :
    heap.NeverWraps middle ∧ middle.NeverWraps after := by
  obtain ⟨before, hbefore, -⟩ := hfirst
  obtain ⟨later, hlater, -⟩ := hsecond
  have hall := hbefore.append hlater
  obtain ⟨_, hrun⟩ := hall.run
  obtain ⟨_, hearlier⟩ := hbefore.run
  obtain ⟨_, hrest⟩ := hlater.run
  have hfew := (neverWraps_iff hheap hrun hall.ne_releaseAll).mp hwraps
  refine ⟨(neverWraps_iff hheap hearlier hbefore.ne_releaseAll).mpr fun address => ?_,
    (neverWraps_iff (hbefore.coherent hheap) hrest hlater.ne_releaseAll).mpr fun address => ?_⟩
  all_goals
    have hcount := hfew address
    rw [hbefore.reclamations_append hlater] at hcount
    omega

/-- What a reference resolves to stays of its kind, unless a generation came
round. -/
theorem KeepsKinds.sameKind (hkeeps : heap.KeepsKinds after)
    (hheap : heap.Coherent) (hwraps : heap.NeverWraps after)
    (hget : heap.get? ref = some object) (hafter : after.get? ref = some found)
    : object.SameKind found := by
  obtain ⟨calls, hleads, hkinds⟩ := hkeeps
  obtain ⟨refs, hrun⟩ := hleads.run
  have hfew := (neverWraps_iff hheap hrun hleads.ne_releaseAll).mp hwraps ref.address
  have hcount := generationAt_run hheap hrun hleads.ne_releaseAll ref.address
  rw [generationAt_of_get? hafter, generationAt_of_get? hget] at hcount
  have hnever : heap.reclamations ref.address calls = 0 := by
    rcases Nat.eq_zero_or_pos (heap.reclamations ref.address calls) with hzero | hpos
    · exact hzero
    · exact absurd hcount.symm (generation_add_ne _ hpos hfew)
  cases (hleads.get? hheap hget hnever).symm.trans hafter
  exact hkinds hget hnever

/-! ## References of a kind -/

/-- Whatever a reference resolves to from now on is of a kind, as long as no
generation has come round since a certain heap. -/
def HasKind (origin : Heap) (kind : Kind) (heap : Heap) (ref : Ref) : Prop :=
  ∀ later object, heap.KeepsKinds later → origin.NeverWraps later → later.get? ref = some object →
    kind.Admits object.payload

theorem HasKind.keeps (hkind : origin.HasKind kind heap ref)
    (hheap : heap.Coherent) (hkeeps : heap.KeepsKinds after) :
    origin.HasKind kind after ref :=
  fun later object hlater => hkind later object (hkeeps.trans hheap hlater)

theorem HasKind.update (hkind : origin.HasKind kind heap ref)
    (hget : heap.get? other = some object)
    (hsame : object.SameKind (change object)) :
    origin.HasKind kind (heap.update other change) ref :=
  fun later found hlater => hkind later found (.update_trans hget hsame hlater)

theorem HasKind.admits (hkind : origin.HasKind kind heap ref)
    (hwraps : origin.NeverWraps heap) (hget : heap.get? ref = some object) :
    kind.Admits object.payload :=
  hkind heap object (.refl heap) hwraps hget

theorem HasKind.within (hkind : origin.HasKind kind heap ref) {wider : Kind}
    (hwithin : kind.Within wider) : origin.HasKind wider heap ref :=
  fun later object hlater hwraps hget => hwithin _ (hkind later object hlater hwraps hget)

end Heap

/-- What is told of a kind, where environments may not be told from other
values. -/
def Kind.told (strict : Bool) : Kind → Kind
  | environment => bif strict then environment else value
  | kind => kind

namespace Kind

theorem within_told (strict : Bool) (kind : Kind) :
    kind.Within (kind.told strict) := by
  cases kind with
  | environment =>
      cases strict with
      | true => exact fun _ hadmits => hadmits
      | false => exact environment_within_value
  | _ => exact fun _ hadmits => hadmits

theorem told_within_told (strict : Bool) {kind other : Kind}
    (hwithin : kind.Within other) :
    (kind.told strict).Within (other.told strict) := by
  have hwide : kind.Within (other.told strict) :=
    fun object hadmits => within_told strict other object (hwithin object hadmits)
  cases kind with
  | environment =>
      cases strict with
      | true => exact hwide
      | false =>
          -- All values are taken for environments, so what is wider has to hold
          -- them.
          cases other with
          | any => exact within_any _
          | value => exact fun _ hadmits => hadmits
          | operand => exact value_within_operand
          | content => exact value_within_content
          | environment => exact fun _ hadmits => hadmits
          | promise =>
              have hpromise := hwithin (.environment (.inside none)) rfl
              cases hpromise
  | _ => exact hwide

end Kind

namespace Heap

variable {origin heap after : Heap} {strict : Bool} {ref : Ref} {object : HeapObject}
  {roots : List Ref} {kind : Kind}

/-- What is told of a reference. -/
abbrev Tells (origin : Heap) (strict : Bool) (kind : Kind) (heap : Heap)
    (ref : Ref) : Prop :=
  origin.HasKind (kind.told strict) heap ref

/-- What a reference law with these terms asks of an object. -/
abbrev MeetsTold (origin : Heap) (strict : Bool) (dots : Symbol) (heap : Heap)
    (object : HeapObject) : Prop :=
  object.Meets (origin.Tells strict · heap) False (fun _ => True) dots

/-- A heap in which every object holds references of the right kinds. -/
structure Shaped (origin : Heap) (strict : Bool) (dots : Symbol) (heap : Heap) :
    Prop where
  start : origin.Coherent
  keeps : origin.KeepsKinds heap
  objects : ∀ {ref object}, heap.get? ref = some object → origin.MeetsTold strict dots heap object

namespace Shaped

variable {dots : Symbol} (hshaped : origin.Shaped strict dots heap)

include hshaped

theorem coherent : heap.Coherent := hshaped.keeps.coherent hshaped.start

/-- What kind of object a reference stands for is settled by what it resolves
to. -/
theorem hasKind (hget : heap.get? ref = some object)
    (hadmits : origin.NeverWraps heap → kind.Admits object.payload) :
    origin.HasKind kind heap ref := by
  intro later found hlater hwraps hfound
  obtain ⟨hbefore, hafter⟩ := hshaped.keeps.neverWraps hshaped.start hlater hwraps
  exact Kind.admits_of_sameKind (hlater.sameKind hshaped.coherent hafter hget hfound)
    (hadmits hbefore)

/-- A change that keeps kinds, with new objects that hold references of the
right kinds. -/
theorem of_keeps (hkeeps : heap.KeepsKinds after)
    (hobjects : ∀ {ref object}, after.get? ref = some object →
      origin.MeetsTold strict dots heap object) :
    origin.Shaped strict dots after := by
  refine ⟨hshaped.start, hshaped.keeps.trans hshaped.start hkeeps, ?_⟩
  intro ref object hget
  exact (hobjects hget).mono fun _ _ hkind => hkind.keeps hshaped.coherent hkeeps

theorem allocate (hobject : origin.MeetsTold strict dots heap object)
    (hok : heap.allocate object roots = .ok ref after) :
    origin.Shaped strict dots after := by
  refine hshaped.of_keeps (keepsKinds_allocate hok) fun hget => ?_
  rcases get?_of_allocate hshaped.coherent hok hget with ⟨-, rfl⟩ | hold
  · exact hobject
  · exact hshaped.objects hold

theorem collect (roots : List Ref) :
    origin.Shaped strict dots (heap.collect roots).2 :=
  hshaped.of_keeps (keepsKinds_collect heap roots) fun hget =>
    hshaped.objects (get?_of_collect hshaped.coherent hget)

theorem update {change : HeapObject → HeapObject}
    (hget : heap.get? ref = some object)
    (hsame : object.SameKind (change object))
    (hobject : origin.MeetsTold strict dots heap (change object)) :
    origin.Shaped strict dots (heap.update ref change) := by
  refine hshaped.of_keeps (keepsKinds_update hget hsame) fun hother => ?_
  obtain ⟨before, hbefore, rfl⟩ := get?_of_update hother
  split
  · next heq =>
      subst heq
      cases hget.symm.trans hbefore
      exact hobject
  · exact hshaped.objects hbefore

end Shaped

end Heap

/-! ## The law -/

/-- The faults of bindings and promises that are out of shape. -/
def Fault.OfShape : Fault → Prop
  | .notAPromise _ | .promiseBindingEmpty | .boundBindingEmpty => True
  | _ => False

/-- The faults of looking something up in an object that is no environment. -/
def Fault.OfScope (heap : Heap) : Fault → Prop
  | .notAnEnvironment _ => True
  | .enclosingNotAnEnvironment ref => ∃ object, heap.get? ref = some object
  | _ => False

/-- The faults that are ruled out. -/
def Fault.Told (strict : Bool) (heap : Heap) (cause : Fault) : Prop :=
  cause.OfShape ∨ strict = true ∧ cause.OfScope heap

theorem Fault.OfHeap.not_told {cause : Fault} (hheap : cause.OfHeap)
    (strict : Bool) (heap : Heap) :
    ¬cause.Told strict heap := by
  intro htold
  rcases htold with hshape | ⟨-, hscope⟩
  · cases cause with
    | notAPromise name => cases hheap
    | promiseBindingEmpty => cases hheap
    | boundBindingEmpty => cases hheap
    | _ => exact hshape
  · cases cause with
    | notAnEnvironment name => cases hheap
    | enclosingNotAnEnvironment ref => cases hheap
    | _ => exact hscope

namespace Interpreter

variable {origin : Heap} {strict : Bool} {state after : Interpreter} {ref : Ref}
  {object : HeapObject}

/-- The reserved symbols and the fixed objects stay, and a coherent heap keeps
kinds. -/
structure KeepsKinds (state after : Interpreter) : Prop where
  reserved : after.reserved = state.reserved
  fixed : after.fixed = state.fixed
  heap : state.heap.Coherent → state.heap.KeepsKinds after.heap

/-- A state in which every object holds references of the right kinds.  No
methods are cached, and `...` is none of the variables of dispatch. -/
structure Shaped (origin : Heap) (strict : Bool) (state : Interpreter) :
    Prop where
  heap : origin.Shaped strict state.reserved.dots state.heap
  fixed : ∀ ref ∈ state.fixed.edges, origin.HasKind .value state.heap ref
  scopes : ∀ ref ∈ state.fixed.scopes, origin.HasKind .environment state.heap ref
  cache : state.cache = .empty
  dots : state.reserved.dots ∉ [state.reserved.dotGroup, state.reserved.dotGenericCallEnv,
    state.reserved.dotGenericDefEnv]

/-- A change of the heap alone. -/
theorem Shaped.of_heap (hstate : state.Shaped origin strict) {heap : Heap}
    (hheap : origin.Shaped strict state.reserved.dots heap)
    (hkeeps : state.heap.KeepsKinds heap) :
    Shaped origin strict { state with heap } := by
  refine ⟨hheap, ?_, ?_, hstate.cache, hstate.dots⟩
  · intro ref href
    exact (hstate.fixed ref href).keeps hstate.heap.coherent hkeeps
  · intro ref href
    exact (hstate.scopes ref href).keeps hstate.heap.coherent hkeeps

/-- A change of one object that keeps its kind. -/
theorem Shaped.amend (hstate : state.Shaped origin strict) {change : HeapObject → HeapObject}
    (hget : state.heap.get? ref = some object) (hsame : object.SameKind (change object))
    (hobject : origin.MeetsTold strict state.reserved.dots state.heap (change object)) :
    (state.amend ref change).Shaped origin strict :=
  hstate.of_heap (hstate.heap.update hget hsame hobject) (Heap.keepsKinds_update hget hsame)

/-- A frame gets other bindings. -/
theorem Shaped.frame (hstate : state.Shaped origin strict) {env : Environment}
    {attributes : List (Symbol × Ref)} {frame : Frame}
    (hget : state.heap.get? ref = some ⟨.environment env, attributes⟩)
    (hframe : frame.Meets (origin.Tells strict · state.heap) False state.reserved.dots) :
    (state.amend ref (.become (.environment ⟨env.parent, frame⟩))).Shaped origin strict := by
  have hobject := hstate.heap.objects hget
  exact hstate.amend hget ⟨rfl, rfl, rfl⟩ ⟨⟨hobject.payload.1, hframe⟩, nofun, hobject.attributes⟩

/-- A promise becomes another one. -/
theorem Shaped.promise (hstate : state.Shaped origin strict)
    {former deferred : Promise} {attributes : List (Symbol × Ref)}
    (hget : state.heap.get? ref = some ⟨.promise former, attributes⟩)
    (hmeets : Object.Meets (origin.Tells strict · state.heap) False
      (fun _ => True) state.reserved.dots (.promise deferred))
    (hedge : origin.Tells strict deferred.edgeKind state.heap deferred.edge) :
    (state.amend ref (.become (.promise deferred))).Shaped origin strict := by
  refine hstate.amend hget ⟨rfl, rfl, rfl⟩ ⟨hmeets, fun other hother => ?_,
    (hstate.heap.objects hget).attributes⟩
  cases hother
  exact hedge

/-- An object that was allocated on the way may change. -/
theorem KeepsKinds.complete (hkeeps : state.KeepsKinds after) {roots : List Ref}
    {heap : Heap} (hok : state.heap.allocate object roots = .ok ref heap)
    {change : HeapObject → HeapObject} :
    state.KeepsKinds (after.amend ref change) := by
  refine ⟨hkeeps.reserved, hkeeps.fixed,
    fun hheap => (hkeeps.heap hheap).update fun found _ hget => ?_⟩
  cases (Heap.get?_fresh hheap hok).symm.trans hget

end Interpreter

/-- Every object holds references of the right kinds, bindings are in shape, and
kinds last. -/
def shapeLaw (origin : Heap) (strict : Bool) : RefLaw where
  inv state := state.Shaped origin strict
  step _ state after := state.KeepsKinds after
  has _ kind state ref := origin.Tells strict kind state.heap ref
  fault cause state := cause.Told strict state.heap → ¬origin.NeverWraps state.heap
  expr _ := True
  loose := False
  balanced := True
  stalls := strict = true
  has_now hhas := hhas
  has_root hhas _ := hhas
  has_mono _ hhas := hhas
  has_within hwithin hhas := Heap.HasKind.within hhas (Kind.told_within_told strict hwithin)
  has_admits hstate _ hget hadmits :=
    hstate.heap.hasKind hget fun _ => Kind.within_told strict _ _ hadmits
  has_operand hstate hhas hget hother :=
    hstate.heap.hasKind hget fun hwraps => ⟨hother, Heap.HasKind.admits hhas hwraps hget⟩
  has_fixed hstate href := (hstate.fixed _ href).within (Kind.within_told strict _)
  has_scope hstate href := (hstate.scopes _ href).within (Kind.within_told strict _)
  has_step hstate hstep hhas := hhas.keeps hstate.heap.coherent (hstep.heap hstate.heap.coherent)
  has_same hsame hhas := by
    rw [hsame.heap]
    exact hhas
  has_amend hhas hget hsame := Heap.HasKind.update hhas hget hsame
  has_dots hstep hhas := by
    rw [hstep.reserved, Kind.ofSymbol_dots]
    exact hhas
  has_dispatch hstate hsymbol hhas := by
    unfold Kind.ofSymbol at hhas
    split at hhas
    · next hsame =>
        rw [hsame] at hsymbol
        exact absurd hsymbol hstate.dots
    · exact hhas
  holds hstate _ hget := (hstate.heap.objects hget).payload
  holds_edge hstate hget := (hstate.heap.objects hget).edge _ rfl
  holds_attribute hstate hget hentry := (hstate.heap.objects hget).attributes _ hentry
  fault_missing _ hget := by
    refine ⟨fun htold => ?_, fun htold => ?_⟩
    · rcases htold with hshape | ⟨-, hscope⟩
      · exact hshape.elim
      · exact hscope.elim
    · rcases htold with hshape | ⟨-, object, hfound⟩
      · exact hshape.elim
      · cases hget.symm.trans hfound
  fault_environment hhas hget hother := by
    refine ⟨fun htold hwraps => ?_, fun htold hwraps => ?_⟩
    all_goals
      rcases htold with hshape | ⟨hstrict, -⟩
      · exact hshape.elim
      · subst hstrict
        have henvironment := Heap.HasKind.admits hhas hwraps hget
        exact Bool.noConfusion (hother.symm.trans henvironment)
  fault_promise hhas hget hother _ hwraps := by
    have hpromise := Heap.HasKind.admits hhas hwraps hget
    exact Bool.noConfusion (hother.symm.trans hpromise)
  fault_allocate herror htold :=
    absurd htold ((Heap.ofHeap_of_allocate herror).not_told _ _)
  fault_loose hloose := hloose.elim
  fault_symbol _ htold := by
    rcases htold with hshape | ⟨-, hscope⟩
    · exact hshape.elim
    · exact hscope.elim
  expr_children _ _ := trivial
  expr_symbol _ _ := trivial
  expr_withHead _ _ _ := trivial
  expr_atSite _ _ := trivial
  inv_same hsame hstate := by
    refine ⟨?_, ?_, ?_, hsame.cache.trans hstate.cache, ?_⟩
    · rw [hsame.reserved, hsame.heap]
      exact hstate.heap
    · rw [hsame.fixed, hsame.heap]
      exact hstate.fixed
    · rw [hsame.fixed, hsame.heap]
      exact hstate.scopes
    · rw [hsame.reserved]
      exact hstate.dots
  step_same hsame := ⟨hsame.reserved, hsame.fixed, fun _ => hsame.heap ▸ .refl _⟩
  step_trans hfirst hsecond :=
    ⟨hsecond.reserved.trans hfirst.reserved, hsecond.fixed.trans hfirst.fixed, fun hheap =>
      (hfirst.heap hheap).trans hheap (hsecond.heap ((hfirst.heap hheap).coherent hheap))⟩
  step_mono _ hstep := hstep
  unbalanced hfree := absurd trivial hfree
  on_allocate hstate _ hobject hok := by
    have hkeeps := Heap.keepsKinds_allocate hok
    have hshaped := hstate.heap.allocate hobject hok
    refine ⟨⟨rfl, rfl, fun _ => hkeeps⟩, hstate.of_heap hshaped hkeeps, fun kind hknown => ?_⟩
    refine hshaped.hasKind (Heap.get?_allocate_self hstate.heap.coherent hok) fun hwraps => ?_
    rcases hknown with hadmits | ⟨source, attributes, hsource, hget⟩
    · exact Kind.within_told strict _ _ hadmits
    · have hbefore := (hstate.heap.keeps.neverWraps hstate.heap.start hkeeps hwraps).1
      have hadmits := Heap.HasKind.admits hsource hbefore hget
      exact hadmits
  on_collect hstate _ :=
    have hkeeps := Heap.keepsKinds_collect _ _
    ⟨⟨rfl, rfl, fun _ => hkeeps⟩, hstate.of_heap (hstate.heap.collect _) hkeeps⟩
  on_complete _ _ _ _ hok _ hstep := hstep.complete hok
  on_frame frame _ _ hok hstep hafter hget hframe _ :=
    ⟨hstep.complete hok, hafter.frame hget hframe⟩
  inv_frame frame hstate hget hframe _ := hstate.frame hget hframe
  step_frame _ _ hget _ _ := ⟨rfl, rfl, fun _ => Heap.keepsKinds_update hget ⟨rfl, rfl, rfl⟩⟩
  inv_attribute name value hstate hget hvalue := by
    have hobject := hstate.heap.objects hget
    refine hstate.amend hget (HeapObject.sameKind_updateAttribute _ name value)
      ⟨?_, ?_, fun entry hentry => ?_⟩
    · rw [HeapObject.payload_updateAttribute]
      exact hobject.payload
    · rw [HeapObject.payload_updateAttribute]
      exact hobject.edge
    · rcases HeapObject.mem_updateAttribute hentry with hold | hnew
      · exact hobject.attributes entry hold
      · exact hvalue _ hnew
  step_class cls hget :=
    ⟨rfl, rfl, fun _ => Heap.keepsKinds_update hget (HeapObject.sameKind_updateAttribute _ _ cls)⟩
  inv_evaluate hstate hget hexpr henv := hstate.promise hget ⟨hexpr, henv⟩ henv
  on_settle settled _ hget hstep hafter hformer _ hmeets hedge := by
    refine ⟨⟨hstep.reserved, hstep.fixed, fun hheap => ?_⟩, hafter.promise hformer hmeets hedge⟩
    have hkeeps := Heap.KeepsKinds.update_trans hget ⟨rfl, rfl, rfl⟩ (hstep.heap (hheap.update _ _))
    refine hkeeps.update fun object _ hfound => ?_
    cases hget.symm.trans hfound
    exact ⟨rfl, rfl, rfl⟩

/-- The law that does not tell environments from other values. -/
abbrev kindLaw (origin : Heap) : RefLaw := shapeLaw origin false

theorem lax_kindLaw (origin : Heap) : (kindLaw origin).Lax := fun hhas => hhas

end LazyDispatch
