import LazyDispatch.Proofs.Balance
import LazyDispatch.Proofs.Generations

/-!
# Values do not change

Evaluation changes objects in place in few ways: it binds variables in
environments and sets their class, it completes objects that it has just
allocated, and it evaluates promises.  Seen from outside the evaluation only the
environments and the promises differ: every other object that was there before
and was not reclaimed is what it was, and an environment keeps its parent and
its other attributes, a promise its expression and its attributes.

The argument follows the calls that an evaluation makes on the heap.  They lead
from the heap before to the heap after (`Heap.Leads`), always with the protected
references among the roots, and what they make of an object that they do not
reclaim is one of the permitted changes (`Heap.Evolves`).  This is a heap law,
so all functions of the evaluator keep to it.
-/

namespace LazyDispatch

/-! ## Permitted changes -/

/-- What may become of an object, given the symbol of the class attribute. -/
inductive HeapObject.Persists (cls : Symbol) (object : HeapObject) : HeapObject → Prop
  | same : Persists cls object object
  /-- An environment gets other bindings and another class. -/
  | environment {parent : Option Ref} {frame other : Frame}
      {former attributes : List (Symbol × Ref)}
      (hobject : object = ⟨.environment ⟨parent, frame⟩, former⟩)
      (hattributes : attributes.filter (·.1 ≠ cls) = former.filter (·.1 ≠ cls)) :
      Persists cls object ⟨.environment ⟨parent, other⟩, attributes⟩
  /-- A pending promise gets its value. -/
  | forced {expr : Expr} {env value : Ref} {attributes : List (Symbol × Ref)}
      (hobject : object = ⟨.promise (.pending expr env), attributes⟩) :
      Persists cls object ⟨.promise (.forced expr value), attributes⟩

namespace HeapObject

variable {cls : Symbol}

theorem Persists.trans {first second third : HeapObject}
    (hfirst : first.Persists cls second) (hsecond : second.Persists cls third) :
    first.Persists cls third := by
  cases hfirst with
  | same => exact hsecond
  | environment hobject hattributes =>
      cases hsecond with
      | same => exact .environment hobject hattributes
      | environment hother hothers =>
          cases hother
          exact .environment hobject (hothers.trans hattributes)
      | forced hother => cases hother
  | forced hobject =>
      cases hsecond with
      | same => exact .forced hobject
      | environment hother => cases hother
      | forced hother => cases hother

theorem filter_putEntry (value : Ref) (attributes : List (Symbol × Ref)) :
    (putEntry cls value attributes).filter (·.1 ≠ cls) = attributes.filter (·.1 ≠ cls) := by
  induction attributes with
  | nil => simp [putEntry]
  | cons entry rest ih =>
      obtain ⟨name, old⟩ := entry
      by_cases hname : cls = name
      · subst hname
        simp [putEntry]
      · rw [putEntry, if_neg hname, List.filter_cons, List.filter_cons, ih]

theorem filter_eraseP (attributes : List (Symbol × Ref)) :
    (attributes.eraseP (·.1 = cls)).filter (·.1 ≠ cls) = attributes.filter (·.1 ≠ cls) := by
  induction attributes with
  | nil => rfl
  | cons entry rest ih =>
      by_cases hname : entry.1 = cls
      · simp [hname]
      · rw [List.eraseP_cons_of_neg (by simpa using hname), List.filter_cons, List.filter_cons, ih]

/-- A change of the class changes no other attribute. -/
theorem filter_updateAttribute (object : HeapObject) (value : Option Ref) :
    (object.updateAttribute cls value).attributes.filter (·.1 ≠ cls) =
      object.attributes.filter (·.1 ≠ cls) := by
  cases value with
  | none => exact filter_eraseP object.attributes
  | some value => exact filter_putEntry value object.attributes

end HeapObject

/-! ## Calls that keep references -/

/-- A call that collects only with certain references among the roots, and gives
no superblocks back. -/
def HeapCall.Keeps (kept : List Ref) : HeapCall → Prop
  | .allocate _ roots | .allocateIn _ _ roots | .collect roots => kept ⊆ roots
  | .update _ _ => True
  | .releaseAll => False

/-- Calls lead from one heap to another, while certain references are kept. -/
structure Heap.Leads (heap : Heap) (kept : List Ref) (calls : List HeapCall)
    (after : Heap) :
    Prop where
  run : ∃ refs, heap.run calls = .ok refs after
  keeps : ∀ call ∈ calls, call.Keeps kept

namespace Heap

variable {call : HeapCall} {stored : HeapObject} {fresh : Ref}

variable {roots : List Ref}

variable {heap middle after : Heap} {kept more : List Ref} {calls before later : List HeapCall}
  {ref : Ref} {object : HeapObject}

theorem Leads.ne_releaseAll (hleads : heap.Leads kept calls after) :
    ∀ call ∈ calls, call ≠ .releaseAll := by
  intro call hcall hrelease
  have hkeeps := hleads.keeps call hcall
  rw [hrelease] at hkeeps
  exact hkeeps

theorem Leads.coherent (hleads : heap.Leads kept calls after)
    (hheap : heap.Coherent) :
    after.Coherent := by
  obtain ⟨refs, hrun⟩ := hleads.run
  exact run_coherent hheap hrun

theorem leads_nil (heap : Heap) (kept : List Ref) : heap.Leads kept [] heap :=
  ⟨⟨[], rfl⟩, nofun⟩

theorem leads_single {ref? : Option Ref}
    (hok : call.perform heap = .ok ref? after) (hkeeps : call.Keeps kept) :
    heap.Leads kept [call] after := by
  refine ⟨⟨ref?.toList ++ [], ?_⟩, fun other hother => ?_⟩
  · rw [run, hok]
    rfl
  · cases List.mem_singleton.mp hother
    exact hkeeps

theorem Leads.mono (hleads : heap.Leads more calls after) (hkept : kept ⊆ more)
    :
    heap.Leads kept calls after := by
  refine ⟨hleads.run, fun call hcall => ?_⟩
  have hkeeps := hleads.keeps call hcall
  cases call with
  | allocate object roots => exact List.Subset.trans hkept hkeeps
  | allocateIn sizeClass object roots => exact List.Subset.trans hkept hkeeps
  | collect roots => exact List.Subset.trans hkept hkeeps
  | update ref change => trivial
  | releaseAll => exact hkeeps

/-- Two parts of a run, one after the other. -/
theorem run_append {earlier rest : List Ref}
    (hbefore : heap.run before = .ok earlier middle)
    (hlater : middle.run later = .ok rest after) :
    heap.run (before ++ later) = .ok (earlier ++ rest) after := by
  induction before generalizing heap earlier with
  | nil =>
      cases hbefore
      exact hlater
  | cons call before ih =>
      obtain ⟨ref?, next, others, hcall, hothers, rfl⟩ := run_cons_eq_ok hbefore
      rw [List.cons_append, run, hcall]
      simp only [ih hothers, Outcome.map, List.append_assoc]

theorem Leads.append (hbefore : heap.Leads kept before middle)
    (hlater : middle.Leads kept later after) :
    heap.Leads kept (before ++ later) after := by
  obtain ⟨earlier, hearlier⟩ := hbefore.run
  obtain ⟨rest, hrest⟩ := hlater.run
  refine ⟨⟨earlier ++ rest, run_append hearlier hrest⟩, fun call hcall => ?_⟩
  rcases List.mem_append.mp hcall with hcall | hcall
  · exact hbefore.keeps call hcall
  · exact hlater.keeps call hcall

/-- The reclamations of two parts of a run add up. -/
theorem Leads.reclamations_append (hbefore : heap.Leads kept before middle)
    (hlater : middle.Leads kept later after) (address : Address) :
    heap.reclamations address (before ++ later) =
      heap.reclamations address before + middle.reclamations address later := by
  obtain ⟨earlier, hearlier⟩ := hbefore.run
  obtain ⟨rest, hrest⟩ := hlater.run
  obtain ⟨_, other, _, hother, -, -, hcount⟩ := run_append_eq_ok (run_append hearlier hrest)
  cases hearlier.symm.trans hother
  exact hcount address

/-- A call does not reclaim what it keeps. -/
theorem reclaims_eq_false (hheap : heap.Coherent)
    (hkeeps : call.Keeps kept) (hmem : ref ∈ kept)
    (hget : heap.get? ref = some object) :
    call.reclaims heap ref.address = false := by
  have hsame : (call.collected heap).content? ref.address = heap.content? ref.address := by
    cases call with
    | allocate other roots =>
        exact content?_prepared_of_reachable hheap
          (.root (List.mem_append_left _ (hkeeps hmem)) hget)
    | allocateIn sizeClass other roots =>
        exact content?_prepared_of_reachable hheap
          (.root (List.mem_append_left _ (hkeeps hmem)) hget)
    | collect roots => exact content?_collect_of_reachable hheap (.root (hkeeps hmem) hget)
    | update other change => rfl
    | releaseAll => rfl
  simp [HeapCall.reclaims, isHeld, hsame]

/-- Calls do not reclaim what they keep. -/
theorem Leads.reclamations_eq_zero (hleads : heap.Leads kept calls after)
    (hheap : heap.Coherent) (hmem : ref ∈ kept)
    (hget : heap.get? ref = some object) :
    heap.reclamations ref.address calls = 0 := by
  obtain ⟨⟨refs, hrun⟩, hkeeps⟩ := hleads
  induction calls generalizing heap refs object with
  | nil => rfl
  | cons call calls ih =>
      obtain ⟨ref?, next, rest, hcall, hrest, -⟩ := run_cons_eq_ok hrun
      have hfirst := hkeeps call List.mem_cons_self
      have hkept := reclaims_eq_false hheap hfirst hmem hget
      have hne : call ≠ .releaseAll := by
        intro hrelease
        rw [hrelease] at hfirst
        exact hfirst
      have hnext := HeapCall.get?_perform hheap hcall hne
        (HeapCall.get?_collected hheap hget hkept)
      have hothers := ih (HeapCall.perform_coherent hheap hcall) hnext
        (fun other hother => hkeeps other (List.mem_cons_of_mem _ hother)) rest hrest
      rw [reclamations_cons hcall, hkept, hothers]
      rfl

/-- A heap changes into another one by permitted changes of the objects that are
not reclaimed. -/
def Evolves (heap : Heap) (kept : List Ref) (cls : Symbol) (after : Heap) :
    Prop :=
  ∃ calls, heap.Leads kept calls after ∧ ∀ {ref object}, heap.get? ref = some object →
    heap.reclamations ref.address calls = 0 →
    object.Persists cls (calls.foldl (HeapCall.amend ref) object)

variable {cls : Symbol}

theorem Leads.get? (hleads : heap.Leads kept calls after)
    (hheap : heap.Coherent) (hget : heap.get? ref = some object)
    (hnever : heap.reclamations ref.address calls = 0) :
    after.get? ref = some (calls.foldl (HeapCall.amend ref) object) := by
  obtain ⟨refs, hrun⟩ := hleads.run
  exact get?_run_of_unreclaimed hheap hrun hleads.ne_releaseAll hget hnever

theorem Evolves.refl (heap : Heap) (kept : List Ref) (cls : Symbol) :
    heap.Evolves kept cls heap :=
  ⟨[], leads_nil heap kept, fun _ _ => .same⟩

theorem Evolves.mono (hevolves : heap.Evolves more cls after)
    (hkept : kept ⊆ more) :
    heap.Evolves kept cls after := by
  obtain ⟨calls, hleads, hpersists⟩ := hevolves
  exact ⟨calls, hleads.mono hkept, hpersists⟩

theorem Evolves.coherent (hevolves : heap.Evolves kept cls after)
    (hheap : heap.Coherent) :
    after.Coherent := by
  obtain ⟨calls, hleads, -⟩ := hevolves
  exact hleads.coherent hheap

theorem Evolves.trans (hheap : heap.Coherent) (hfirst : heap.Evolves kept cls middle)
    (hsecond : middle.Evolves kept cls after) : heap.Evolves kept cls after := by
  obtain ⟨before, hbefore, hpersists⟩ := hfirst
  obtain ⟨later, hlater, hpersist⟩ := hsecond
  refine ⟨before ++ later, hbefore.append hlater, fun hget hnever => ?_⟩
  rw [hbefore.reclamations_append hlater, Nat.add_eq_zero_iff] at hnever
  rw [List.foldl_append]
  have hmiddle := hbefore.get? hheap hget hnever.1
  exact (hpersists hget hnever.1).trans (hpersist hmiddle hnever.2)

/-- A call that stores an object or only collects changes no object. -/
theorem evolves_of_perform {ref? : Option Ref}
    (hok : call.perform heap = .ok ref? after) (hkeeps : call.Keeps kept)
    (hamend : ∀ ref object, call.amend ref object = object) :
    heap.Evolves kept cls after := by
  refine ⟨[call], leads_single hok hkeeps, fun {ref object} _ _ => ?_⟩
  rw [List.foldl_cons, hamend]
  exact .same

/-- A permitted change of one object. -/
theorem evolves_update {change : HeapObject → HeapObject}
    (hget : heap.get? ref = some object)
    (hpersists : object.Persists cls (change object)) :
    heap.Evolves kept cls (heap.update ref change) := by
  have hleads : heap.Leads kept [.update ref change] (heap.update ref change) :=
    leads_single rfl trivial
  refine ⟨_, hleads, fun {other found} hfound _ => ?_⟩
  show found.Persists cls (if ref = other then change found else found)
  split
  · next heq =>
      subst heq
      cases hget.symm.trans hfound
      exact hpersists
  · exact .same

theorem perform_allocate (hok : heap.allocate object roots = .ok ref after) :
    (HeapCall.allocate object roots).perform heap = .ok (some ref) after := by
  show Outcome.map some (heap.allocate object roots) = _
  rw [hok]
  rfl

/-- A change of an object that was allocated on the way. -/
theorem evolves_complete
    (hheap : heap.Coherent) (hkept : kept ⊆ roots)
    (hok : heap.allocate stored roots = .ok fresh middle) (hevolves : middle.Evolves kept cls after)
    (change : HeapObject → HeapObject) : heap.Evolves kept cls (after.update fresh change) := by
  have hperform := perform_allocate hok
  obtain ⟨calls, hleads, hpersists⟩ := hevolves
  have hstored : heap.Leads kept [.allocate stored roots] middle := leads_single hperform hkept
  have hchanged : after.Leads kept [.update fresh change] (after.update fresh change) :=
    leads_single rfl trivial
  refine ⟨[.allocate stored roots] ++ (calls ++ [.update fresh change]),
    hstored.append (hleads.append hchanged), fun {ref object} hget hnever => ?_⟩
  rw [hstored.reclamations_append (hleads.append hchanged), hleads.reclamations_append hchanged,
    Nat.add_eq_zero_iff, Nat.add_eq_zero_iff] at hnever
  obtain ⟨hfirst, hrest, -⟩ := hnever
  have hmiddle : middle.get? ref = some object := hstored.get? hheap hget hfirst
  -- The cell of the new object was free, or else it was reclaimed just before.
  have hne : fresh ≠ ref := by
    intro heq
    subst heq
    obtain ⟨_, -, -, hfree, -⟩ := HeapCall.perform_eq_some hheap hperform
    rw [reclamations_cons hperform, HeapCall.reclaims, hfree, isHeld_of_get? hget] at hfirst
    exact absurd hfirst (Nat.succ_ne_zero _)
  rw [List.foldl_append, List.foldl_append]
  show object.Persists cls (if fresh = ref then _ else _)
  rw [if_neg hne]
  exact hpersists hmiddle hrest

/-- The evaluation of a pending promise. -/
theorem evolves_evaluate {expr : Expr} {env : Ref}
    {attributes : List (Symbol × Ref)} (hheap : heap.Coherent)
    (hget : heap.get? ref = some ⟨.promise (.pending expr env), attributes⟩)
    (hevolves : (heap.update ref
      (.become (.promise (.underEvaluation expr env)))).Evolves kept cls after)
    {deferred : Promise} (hdeferred : deferred = .pending expr env ∨
    ∃ value, deferred = .forced expr value) :
    heap.Evolves kept cls (after.update ref (.become (.promise deferred))) := by
  obtain ⟨calls, hleads, hpersists⟩ := hevolves
  have hbegun : heap.Leads kept [.update ref (.become (.promise (.underEvaluation expr env)))] _ :=
    leads_single rfl trivial
  have hended : after.Leads kept [.update ref (.become (.promise deferred))] _ :=
    leads_single rfl trivial
  refine ⟨[_] ++ (calls ++ [_]), hbegun.append (hleads.append hended),
    fun {other found} hfound hnever => ?_⟩
  rw [hbegun.reclamations_append (hleads.append hended), hleads.reclamations_append hended,
    Nat.add_eq_zero_iff, Nat.add_eq_zero_iff] at hnever
  obtain ⟨hfirst, hrest, -⟩ := hnever
  have hmiddle := hpersists (hbegun.get? hheap hfound hfirst) hrest
  rw [List.foldl_append, List.foldl_append]
  by_cases hother : ref = other
  · subst hother
    cases hget.symm.trans hfound
    -- A promise under evaluation stays what it is.
    have hsame : calls.foldl (HeapCall.amend ref) (.become (.promise (.underEvaluation expr env))
        ⟨.promise (.pending expr env), attributes⟩) =
        ⟨.promise (.underEvaluation expr env), attributes⟩ := by
      simp only [List.foldl_cons, List.foldl_nil, HeapCall.amend, if_pos] at hmiddle
      generalize List.foldl _ _ calls = found at hmiddle
      cases hmiddle with
      | same => rfl
      | environment hobject => cases hobject
      | forced hobject => cases hobject
    simp only [List.foldl_cons, List.foldl_nil, HeapCall.amend, if_pos, hsame]
    rcases hdeferred with rfl | ⟨value, rfl⟩
    · exact .same
    · exact .forced rfl
  · simp only [List.foldl_cons, List.foldl_nil, HeapCall.amend, if_neg hother] at hmiddle ⊢
    exact hmiddle

/-- An allocation does not change an object among the roots. -/
theorem get?_allocate_of_mem
    (hheap : heap.Coherent) (hok : heap.allocate stored roots = .ok fresh after)
    (hmem : ref ∈ roots) (hget : heap.get? ref = some object) :
    after.get? ref = some object := by
  have hkeeps : (HeapCall.allocate stored roots).Keeps [ref] := by
    intro other hother
    cases List.mem_singleton.mp hother
    exact hmem
  have hleads := leads_single (perform_allocate hok) hkeeps
  have hnever := hleads.reclamations_eq_zero hheap (List.mem_singleton.mpr rfl) hget
  exact hleads.get? hheap hget hnever

/-- A new object is there. -/
theorem get?_allocate_self
    (hheap : heap.Coherent) (hok : heap.allocate stored roots = .ok fresh after)
    :
    after.get? fresh = some stored := by
  obtain ⟨object, hobject, hget, -⟩ := HeapCall.perform_eq_some hheap (perform_allocate hok)
  cases hobject
  exact hget

end Heap

/-! ## The law of persistence -/

/-- The reserved symbols and the fixed objects stay, names are only added, and a
coherent heap evolves without the loss of a fixed object or of what is kept. -/
structure Interpreter.Persists (kept : List Ref) (state after : Interpreter) :
    Prop where
  reserved : after.reserved = state.reserved
  fixed : after.fixed = state.fixed
  names : state.naming.symbols.Grows after.naming.symbols
  heap : state.heap.Coherent →
    state.heap.Evolves (state.fixed.edges ++ kept) state.reserved.cls after.heap

theorem Interpreter.Persists.mono {kept more : List Ref}
    {state after : Interpreter} (hkept : kept ⊆ more)
    (hpersists : state.Persists more after) : state.Persists kept after := by
  refine ⟨hpersists.reserved, hpersists.fixed, hpersists.names, fun hheap => ?_⟩
  apply (hpersists.heap hheap).mono
  exact List.append_subset.mpr
    ⟨List.subset_append_left _ _, List.subset_append_of_subset_right _ hkept⟩

/-- The fixed objects are roots too. -/
theorem fixed_append_subset_rootRefs {state : Interpreter} {kept : List Ref}
    (hkept : kept ⊆ state.rootRefs) :
    state.fixed.edges ++ kept ⊆ state.rootRefs := by
  apply List.append_subset.mpr
  refine ⟨?_, hkept⟩
  unfold Interpreter.rootRefs
  rw [List.append_assoc, List.append_assoc]
  exact List.subset_append_left _ _

def persistence : HeapLaw where
  step := Interpreter.Persists
  same := by
    intro kept state after hsame
    refine ⟨hsame.reserved, hsame.fixed, hsame.names, fun _ => ?_⟩
    rw [hsame.heap]
    exact .refl _ _ _
  trans := by
    intro kept first second third hfirst hsecond
    refine ⟨hsecond.reserved.trans hfirst.reserved, hsecond.fixed.trans hfirst.fixed,
      hfirst.names.trans hsecond.names, fun hheap => ?_⟩
    have hbefore := hfirst.heap hheap
    have hafter := hsecond.heap (hbefore.coherent hheap)
    rw [hfirst.reserved, hfirst.fixed] at hafter
    exact hbefore.trans hheap hafter
  mono := .mono
  allocate := by
    intro kept object state ref heap hkept hok
    exact ⟨rfl, rfl, List.prefix_rfl, fun _ => Heap.evolves_of_perform (Heap.perform_allocate hok)
      (fixed_append_subset_rootRefs hkept) fun _ _ => rfl⟩
  collect := by
    intro kept state hkept
    have hok : (HeapCall.collect state.rootRefs).perform state.heap =
        .ok none (state.heap.collect state.rootRefs).2 := rfl
    exact ⟨rfl, rfl, List.prefix_rfl, fun _ =>
      Heap.evolves_of_perform hok (fixed_append_subset_rootRefs hkept) fun _ _ => rfl⟩
  bind := by
    intro kept state ref env attributes frame hget
    exact ⟨rfl, rfl, List.prefix_rfl, fun _ => Heap.evolves_update hget (.environment rfl rfl)⟩
  classify := by
    intro kept state ref env attributes cls hget
    refine ⟨rfl, rfl, List.prefix_rfl, fun _ => Heap.evolves_update hget ?_⟩
    have hpayload : HeapObject.updateAttribute ⟨.environment env, attributes⟩
        state.reserved.cls cls = ⟨.environment env,
        (HeapObject.updateAttribute
          ⟨.environment env, attributes⟩ state.reserved.cls
          cls).attributes⟩ := by
      cases cls <;> rfl
    rw [hpayload]
    exact .environment rfl (HeapObject.filter_updateAttribute _ cls)
  complete := by
    intro kept object state ref heap after change hkept hok hstep
    refine ⟨hstep.reserved, hstep.fixed, hstep.names, fun hheap => ?_⟩
    have hcoherent := HeapCall.perform_coherent hheap (Heap.perform_allocate hok)
    exact Heap.evolves_complete hheap (fixed_append_subset_rootRefs hkept) hok
      (hstep.heap hcoherent) change
  evaluate := by
    intro kept state ref expr env attributes after deferred hget hstep hdeferred
    refine ⟨hstep.reserved, hstep.fixed, hstep.names, fun hheap => ?_⟩
    have hevolves := (hstep.mono (List.subset_cons_self ref kept)).heap (hheap.update ref _)
    exact Heap.evolves_evaluate hheap hget hevolves hdeferred

/-! ## What a step leaves of the values -/

/-- An object is the same value as before: an environment has the same parent
and, except for its class, the same attributes; a promise has the same
expression and attributes; everything else is the same. -/
def HeapObject.SameValue (cls : Symbol) (before after : HeapObject) : Prop :=
  match before.payload with
  | .environment env =>
    (∃ frame, after.payload = .environment ⟨env.parent, frame⟩) ∧
      after.attributes.filter (·.1 ≠ cls) = before.attributes.filter (·.1 ≠ cls)
  | .promise deferred =>
    (∃ other, after.payload = .promise other ∧ other.expr = deferred.expr) ∧
      after.attributes = before.attributes
  | _ => after = before

theorem HeapObject.Persists.sameValue {cls : Symbol} {before after : HeapObject}
    (hpersists : before.Persists cls after) : before.SameValue cls after := by
  cases hpersists with
  | same =>
      obtain ⟨payload, attributes⟩ := before
      cases payload with
      | environment env => exact ⟨⟨env.frame, rfl⟩, rfl⟩
      | promise deferred => exact ⟨⟨deferred, rfl, rfl⟩, rfl⟩
      | _ => rfl
  | environment hobject hattributes =>
      subst hobject
      exact ⟨⟨_, rfl⟩, hattributes⟩
  | forced hobject =>
      subst hobject
      exact ⟨⟨_, rfl, rfl⟩, rfl⟩

section Steps

variable {α : Type} {action : Eval α} {scope : Scope} {state after : Interpreter}

/-- A step under the law lets a coherent heap evolve. -/
theorem evolves_of_allows (haction : (persistence.effect scope).Allows action)
    (hheap : state.heap.Coherent) (hfinish : action.Finishes state after) :
    state.heap.Evolves (state.fixed.edges ++ state.roots.edges) state.reserved.cls after.heap :=
  ((haction state).finish hfinish).2.heap hheap

/-- An object whose cell still has its generation has persisted, unless
generations came round. -/
theorem Heap.Evolves.exists_persists {heap after : Heap} {kept : List Ref}
    {cls : Symbol} (hevolves : heap.Evolves kept cls after)
    (hheap : heap.Coherent) (hwraps : heap.NeverWraps after) {ref : Ref}
    {object : HeapObject} (hget : heap.get? ref = some object)
    (hgeneration : after.generationAt ref.address = ref.generation) :
    ∃ later, after.get? ref = some later ∧ object.Persists cls later := by
  obtain ⟨calls, hleads, hpersists⟩ := hevolves
  obtain ⟨refs, hrun⟩ := hleads.run
  have hfew := (neverWraps_iff hheap hrun hleads.ne_releaseAll).mp hwraps ref.address
  have hcount := generationAt_run hheap hrun hleads.ne_releaseAll ref.address
  rw [hgeneration, generationAt_of_get? hget] at hcount
  have hnever : heap.reclamations ref.address calls = 0 := by
    rcases Nat.eq_zero_or_pos (heap.reclamations ref.address calls) with hzero | hpos
    · exact hzero
    · exact absurd hcount.symm (generation_add_ne _ hpos hfew)
  exact ⟨_, hleads.get? hheap hget hnever, hpersists hget hnever⟩

/-- An object that was protected throughout has persisted. -/
theorem Heap.Evolves.exists_persists_of_mem {heap after : Heap}
    {kept : List Ref} {cls : Symbol} (hevolves : heap.Evolves kept cls after)
    (hheap : heap.Coherent) {ref : Ref} {object : HeapObject}
    (hmem : ref ∈ kept) (hget : heap.get? ref = some object) :
    ∃ later, after.get? ref = some later ∧ object.Persists cls later := by
  obtain ⟨calls, hleads, hpersists⟩ := hevolves
  have hnever := hleads.reclamations_eq_zero hheap hmem hget
  exact ⟨_, hleads.get? hheap hget hnever, hpersists hget hnever⟩

end Steps

/-- Whenever a step finishes on a coherent heap without a generation coming
round, the heap is coherent again, and each object whose cell was not reclaimed
is the same value as before. -/
def Eval.KeepsValues {α : Type} (action : Eval α) : Prop :=
  ∀ {state after}, state.heap.Coherent → action.Finishes state after →
    after.heap.Coherent ∧ (state.heap.NeverWraps after.heap →
      ∀ {ref object}, state.heap.get? ref = some object →
        after.heap.generationAt ref.address = ref.generation →
        ∃ later, after.heap.get? ref = some later ∧ object.SameValue state.reserved.cls later)

theorem keepsValues_of_allows {α : Type} {action : Eval α} {scope : Scope}
    (haction : (persistence.effect scope).Allows action) :
    action.KeepsValues := by
  intro state after hheap hfinish
  have hevolves := evolves_of_allows haction hheap hfinish
  refine ⟨hevolves.coherent hheap, fun hwraps ref object hget hgeneration => ?_⟩
  obtain ⟨later, hlater, hpersists⟩ := hevolves.exists_persists hheap hwraps hget hgeneration
  exact ⟨later, hlater, hpersists.sameValue⟩

/-! ## Started interpreters -/

open Eval Interpreter in
theorem settled_installBase : persistence.Settled installBase := by
  have hbuiltin (builtin : Builtin) : persistence.Settled (installBuiltin builtin) :=
    (HeapLaw.settled_allocPayload _).bind fun _ => (HeapLaw.settled_intern _).bind fun _ =>
      Effect.allows_get.bind fun _ => HeapLaw.settled_defineVar _ _ _
  exact (Effect.Allows.forM hbuiltin).bind fun _ =>
    Effect.allows_get.bind fun _ => HeapLaw.settled_defineVar _ _ _

namespace Interpreter

variable {heap : Heap}

/-- The fixed objects of an interpreter with some frame of its base environment. -/
def fixedObjects (fixed : Fixed) (reserved : Reserved) (base : Frame) :
    List (Ref × HeapObject) :=
  [(fixed.null, { payload := .null }),
    (fixed.base, { payload := .environment ⟨none, base⟩ }),
    (fixed.global, { payload := .environment (.inside (some fixed.base)) }),
    (fixed.methods, { payload := .environment (.inside none) }),
    (fixed.deferred, { payload := .symbol reserved.deferredDefault })]

theorem map_fst_fixedObjects (fixed : Fixed) (reserved : Reserved) (base : Frame) :
    (fixedObjects fixed reserved base).map (·.1) = fixed.edges := rfl

/-- What a fixed object may be, given those before it: it leads nowhere, or it
is an empty environment that lies inside one of them. -/
inductive FitsAfter (before : List (Ref × HeapObject)) : Object → Prop
  | null : FitsAfter before .null
  | symbol (symbol : Symbol) : FitsAfter before (.symbol symbol)
  | outermost : FitsAfter before (.environment (.inside none))
  | inside {parent : Ref} {env : Environment}
      (hparent : (parent, ⟨.environment env, []⟩) ∈ before) :
      FitsAfter before (.environment (.inside (some parent)))

theorem FitsAfter.edges_subset {before : List (Ref × HeapObject)}
    {payload : Object} (hfits : FitsAfter before payload) :
    payload.edges ⊆ before.map (·.1) := by
  cases hfits with
  | null => exact List.nil_subset _
  | symbol => exact List.nil_subset _
  | outermost => exact List.nil_subset _
  | inside hparent => exact List.cons_subset.mpr ⟨List.mem_map_of_mem hparent, List.nil_subset _⟩

/-- A fixed object is allocated and the rest follows. -/
theorem allocateFixed_bind_eq_ok {payload : Object} {roots : List Ref}
    {α : Type} {next : Ref × List Ref → EStateM Fault Heap α}
    {after : Heap} {value : α}
    (hok : (allocateFixed payload roots >>= next) heap = .ok value after) :
    ∃ ref middle, heap.allocate { payload } roots = .ok ref middle ∧
      next (ref, roots ++ [ref]) middle = .ok value after := by
  replace hok : EStateM.bind (allocateFixed payload roots) next heap = .ok value after := hok
  rw [EStateM.bind, allocateFixed] at hok
  cases hallocate : heap.allocate { payload } roots with
  | ok ref middle =>
      rw [hallocate] at hok
      exact ⟨ref, middle, rfl, hok⟩
  | error fault middle =>
      rw [hallocate] at hok
      cases hok

/-- **The fixed objects are allocated one after the other,** each with those
before it as roots.  What holds of the heap and the objects so far, and still
holds with the next one, holds of all. -/
theorem allocateAllFixed_induction {reserved : Reserved} {made : Heap} {fixed : Fixed}
    {motive : Heap → List (Ref × HeapObject) → Prop}
    (hok : allocateAllFixed reserved heap = .ok fixed made) (hnone : motive heap [])
    (hnext : ∀ {heap after before payload ref}, motive heap before → FitsAfter before payload →
      heap.allocate ⟨payload, []⟩ (before.map (·.1)) = .ok ref after →
      motive after (before ++ [(ref, ⟨payload, []⟩)])) :
    motive made (fixedObjects fixed reserved .empty) := by
  obtain ⟨null, first, hnull, hok⟩ := allocateFixed_bind_eq_ok hok
  obtain ⟨base, second, hbase, hok⟩ := allocateFixed_bind_eq_ok hok
  obtain ⟨global, third, hglobal, hok⟩ := allocateFixed_bind_eq_ok hok
  obtain ⟨methods, fourth, hmethods, hok⟩ := allocateFixed_bind_eq_ok hok
  obtain ⟨deferred, fifth, hdeferred, hok⟩ := allocateFixed_bind_eq_ok hok
  cases hok
  have hfirst := hnext hnone .null hnull
  have hsecond := hnext hfirst .outermost hbase
  have hthird := hnext hsecond
    (.inside (List.mem_append_right _ (List.mem_singleton_self _))) hglobal
  have hfourth := hnext hthird .outermost hmethods
  exact hnext hfourth (.symbol _) hdeferred

/-- The fixed objects are allocated on a coherent heap, which stays so, and the
null object is not lost on the way. -/
theorem allocateAllFixed_eq_ok {reserved : Reserved} {after : Heap}
    {fixed : Fixed} (hheap : heap.Coherent)
    (hok : allocateAllFixed reserved heap = .ok fixed after) :
    after.Coherent ∧ after.get? fixed.null = some ⟨.null, []⟩ := by
  have hall : after.Coherent ∧ ∀ entry ∈ fixedObjects fixed reserved .empty,
      after.get? entry.1 = some entry.2 := by
    refine allocateAllFixed_induction (motive := fun heap made =>
      heap.Coherent ∧ ∀ entry ∈ made, heap.get? entry.1 = some entry.2) hok ⟨hheap, nofun⟩ ?_
    intro heap after before payload ref hbefore _ hallocate
    refine ⟨HeapCall.perform_coherent hbefore.1 (Heap.perform_allocate hallocate),
      fun entry hentry => ?_⟩
    rcases List.mem_append.mp hentry with hold | hnew
    · exact Heap.get?_allocate_of_mem hbefore.1 hallocate (List.mem_map_of_mem hold)
        (hbefore.2 entry hold)
    · cases List.mem_singleton.mp hnew
      exact Heap.get?_allocate_self hbefore.1 hallocate
  exact ⟨hall.1, hall.2 (fixed.null, ⟨.null, []⟩) List.mem_cons_self⟩

/-- An interpreter starts with an empty heap, allocates its fixed objects, and
binds the names of the base environment. -/
theorem start_eq_ok {config : Config} {symbols : SymbolTable} {state : Interpreter}
    (hstart : start config symbols = .ok state) :
    ∃ heap fixed made, Heap.create config.heap = .ok heap ∧
      allocateAllFixed (Reserved.intern.run symbols).1 heap = .ok fixed made ∧
      installBase (withFixed config (Reserved.intern.run symbols).2 (Reserved.intern.run symbols).1
        fixed made) = .ok () state := by
  rw [start] at hstart
  split at hstart
  · cases hstart
  · split at hstart
    · cases hstart
    · next heap hcreate =>
        generalize Reserved.intern.run symbols = interned at hstart ⊢
        obtain ⟨reserved, symbols⟩ := interned
        dsimp only at hstart
        split at hstart
        · cases hstart
        · next fixed made hmade =>
            split at hstart
            · cases hstart
            · next unit after hbase =>
                cases hstart
                exact ⟨heap, fixed, made, hcreate, hmade, hbase⟩

/-- An interpreter starts with a coherent heap. -/
theorem coherent_start {config : Config} {symbols : SymbolTable}
    {state : Interpreter} (hstart : start config symbols = .ok state) :
    state.heap.Coherent := by
  obtain ⟨heap, fixed, made, hcreate, hmade, hbase⟩ := start_eq_ok hstart
  have hheap := (allocateAllFixed_eq_ok (Heap.coherent_of_create hcreate) hmade).1
  exact (evolves_of_allows settled_installBase hheap (.value hbase)).coherent hheap

end Interpreter

/-- Evaluation without hooks keeps to the law. -/
theorem persistence_perform (budget : Nat) (task : Task) :
    persistence.Settled (Eval.perform {} budget task) :=
  HeapLaw.settled_perform (fun _ _ => Hooks.allowed_empty _ _) budget task

open Eval in
/-- **Evaluation keeps values.**  Every interpreter starts with a coherent heap,
and without hooks, whatever is evaluated keeps the heap coherent and changes no
object that was there before, except that environments get other bindings and
another class, and promises another state.  The same holds for every builtin, so
for `class<-`, `unclass`, `list`, `c` and `NextMethod`, and for each way in
which dispatch allocates its variables. -/
theorem evaluation_keeps_values (budget : Nat) :
    (∀ config symbols state, Interpreter.start config symbols = .ok state →
      state.heap.Coherent) ∧
    (∀ expr env, (perform {} budget (.eval expr env)).KeepsValues) ∧
    (∀ invocation, (runBuiltin {} (perform {} budget) invocation).KeepsValues) ∧
    (∀ classes index keepWhole, (dispatchClasses classes index keepWhole).KeepsValues) ∧
    (∀ generic found classes callEnv defEnv,
      (selectFound generic found classes callEnv defEnv).KeepsValues) ∧
    (∀ operator group classes dispatched found env,
      (selectOperator operator group classes dispatched found env).KeepsValues) ∧
    (∀ generic symbol method,
      (selectNext (perform {} budget) generic symbol method).KeepsValues) ∧
    (∀ call env, (callNextMethod (perform {} budget) call env).KeepsValues) := by
  have hrun := persistence_perform budget
  have hhooks : Hooks.Allowed (persistence.effect .settled) {} (perform {} budget) :=
    Hooks.allowed_empty _ _
  exact ⟨fun _ _ _ => Interpreter.coherent_start,
    fun expr env => keepsValues_of_allows (hrun (.eval expr env)),
    fun invocation => keepsValues_of_allows (HeapLaw.settled_runBuiltin hrun hhooks invocation),
    fun _ _ _ => keepsValues_of_allows (HeapLaw.protecting_dispatchClasses _ _ _),
    fun _ _ _ _ _ => keepsValues_of_allows (HeapLaw.protecting_selectFound _ _ _ _ _),
    fun _ _ _ _ _ _ => keepsValues_of_allows (HeapLaw.protecting_selectOperator _ _ _ _ _ _),
    fun _ _ _ => keepsValues_of_allows (HeapLaw.protecting_selectNext hrun _ _ _),
    fun _ _ => keepsValues_of_allows (HeapLaw.settled_callNextMethod hrun _ _)⟩

section Witness

open Eval

/-- Gives `x` a class and collects garbage. -/
def classifyTerm : Term :=
  .block [.call (.symbol "class<-") [(none, .symbol "x"), (none, .literal (.string "a"))],
    .call (.symbol "gc") []]

/-- Binds a list to `x`. -/
def bindList : Eval Ref := do
  let null := (← get).fixed.null
  let ref ← allocPayload (.list [null, null])
  Interpreter.defineGlobal "x" ref
  return ref

theorem settled_bindList : persistence.Settled bindList := by
  refine Effect.allows_get.bind fun _ => ?_
  refine (HeapLaw.settled_allocPayload _).bind fun _ => ?_
  refine Effect.Allows.bind ?_ fun _ => Effect.allows_pure _
  refine (HeapLaw.settled_intern _).bind fun _ => ?_
  exact Effect.allows_get.bind fun _ => HeapLaw.settled_defineVar _ _ _

/-- Whether an expression leaves the cell of a list alone. -/
def listKept (expr : Expr) (ref : Ref) (before : Interpreter) : Bool :=
  match before.heap.get? ref with
  | some ⟨.list _, _⟩ => (perform {} 40 (.eval expr before.fixed.global)).passes (fun _ after =>
      decide (before.heap.NeverWraps after.heap) &&
        after.heap.generationAt ref.address == ref.generation) before
  | _ => false

set_option maxRecDepth 1000000 in
theorem exists_classifyTerm : ∃ state expr resolved ref before items attributes value after,
    Interpreter.start smallConfig .empty = .ok state ∧
    resolve classifyTerm state = .ok expr resolved ∧ bindList resolved = .ok ref before ∧
    before.heap.get? ref = some ⟨.list items, attributes⟩ ∧
    perform {} 40 (.eval expr before.fixed.global) before = .ok value after ∧
    before.heap.NeverWraps after.heap ∧ after.heap.generationAt ref.address = ref.generation := by
  have hcheck : startPasses classifyTerm (fun expr => bindList.passes (listKept expr)) = true := by
    decide +kernel
  obtain ⟨state, expr, resolved, hstart, hresolve, hbound⟩ := exists_of_startPasses hcheck
  obtain ⟨ref, before, hbind, hlist⟩ := exists_of_passes hbound
  unfold listKept at hlist
  split at hlist
  · next items attributes hget =>
      obtain ⟨value, after, hrun, hafter⟩ := exists_of_passes hlist
      rw [Bool.and_eq_true, decide_eq_true_iff, beq_iff_eq] at hafter
      exact ⟨state, expr, resolved, ref, before, items, attributes, value, after, hstart, hresolve,
        hbind, hget, hrun, hafter.1, hafter.2⟩
  · cases hlist

/-- The list that was given a class is the list that it was. -/
theorem evaluation_keeps_values_classifyTerm :
    ∃ state expr resolved ref before items attributes value after,
      Interpreter.start smallConfig .empty = .ok state ∧
      resolve classifyTerm state = .ok expr resolved ∧ bindList resolved = .ok ref before ∧
      before.heap.get? ref = some ⟨.list items, attributes⟩ ∧
      perform {} 40 (.eval expr before.fixed.global) before = .ok value after ∧
      before.heap.NeverWraps after.heap ∧ after.heap.generationAt ref.address = ref.generation ∧
      after.heap.get? ref = some ⟨.list items, attributes⟩ := by
  obtain ⟨state, expr, resolved, ref, before, items, attributes, value, after, hstart, hresolve,
    hbind, hget, hrun, hwraps, hgeneration⟩ := exists_classifyTerm
  have hvalues := evaluation_keeps_values 40
  have hresolved : resolved.heap.Coherent := by
    rw [heap_of_resolve hresolve]
    exact hvalues.1 smallConfig .empty state hstart
  have hbefore := (evolves_of_allows settled_bindList hresolved (.value hbind)).coherent hresolved
  obtain ⟨later, hlater, hsame⟩ :=
    (hvalues.2.1 expr before.fixed.global hbefore (.value hrun)).2 hwraps hget hgeneration
  cases (show later = ⟨.list items, attributes⟩ from hsame)
  exact ⟨state, expr, resolved, ref, before, items, attributes, value, after, hstart, hresolve,
    hbind, hget, hrun, hwraps, hgeneration, hlater⟩

end Witness

end LazyDispatch
