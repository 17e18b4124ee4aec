import LazyDispatch.Proofs.Effects

/-!
# What primitive steps do

Equations for the steps that evaluation is made of: what they answer and the
state that they leave, given what the heap holds and how deep the stacks are.
-/

namespace LazyDispatch

/-- The state after a change of an object in place. -/
def Interpreter.amend (state : Interpreter) (ref : Ref)
    (change : HeapObject → HeapObject) :
    Interpreter :=
  { state with heap := state.heap.update ref change }

/-- The state with other entries on its root stack. -/
def Interpreter.withEntries (state : Interpreter) (entries : Array RootEntry) :
    Interpreter :=
  { state with roots := { state.roots with entries } }

/-- An object with another payload and the same attributes. -/
def HeapObject.become (payload : Object) (object : HeapObject) : HeapObject :=
  { object with payload }

namespace Eval

variable {env : Environment} {deferred : Promise}

variable {object : HeapObject} {attributes : List (Symbol × Ref)} {heap : Heap}

variable {α : Type} {state middle after : Interpreter} {ref : Ref}

/-! ## Reading objects -/

/-- An object is fetched where its reference resolves. -/
theorem fetch_eq_ok_iff :
    fetch ref state = .ok object ↔ state.heap.get? ref = some object := by
  unfold fetch
  cases state.heap.get? ref <;> simp

/-- So is its payload. -/
theorem payload_of_get? (hget : state.heap.get? ref = some object) :
    payload ref state = .ok object.payload := by
  show (fetch ref state).bind _ = _
  rw [fetch_eq_ok_iff.mpr hget]
  rfl

/-- What has a payload is there. -/
theorem exists_get?_of_payload {found : Object}
    (hok : payload ref state = .ok found) :
    ∃ attributes, state.heap.get? ref = some ⟨found, attributes⟩ := by
  cases hget : state.heap.get? ref with
  | none =>
      have hstale : payload ref state = .error (.fault (.staleReference ref)) := by
        show (fetch ref state).bind _ = _
        unfold fetch
        rw [hget]
        rfl
      cases hstale.symm.trans hok
  | some object =>
      cases (payload_of_get? hget).symm.trans hok
      exact ⟨object.attributes, rfl⟩

/-- An environment is read where one is stored. -/
theorem environmentAt_of_get?
    (hget : state.heap.get? ref = some ⟨.environment env, attributes⟩) :
    environmentAt ref state = .ok env := by
  show (payload ref state).bind _ = _
  rw [payload_of_get? hget]
  rfl

/-- Where an environment is read, one is stored. -/
theorem exists_get?_of_environmentAt (hok : environmentAt ref state = .ok env) :
    ∃ attributes, state.heap.get? ref = some ⟨.environment env, attributes⟩ := by
  have hbind : environmentAt ref state = (payload ref state).bind _ := rfl
  cases hpayload : payload ref state with
  | error stop =>
      rw [hbind, hpayload] at hok
      cases hok
  | ok found =>
      rw [hbind, hpayload] at hok
      cases found <;> cases hok
      exact exists_get?_of_payload hpayload

/-- A promise is read where one is stored. -/
theorem promiseAt_of_get?
    (hget : state.heap.get? ref = some ⟨.promise deferred, attributes⟩) :
    promiseAt ref state = .ok deferred := by
  show (payload ref state).bind _ = _
  rw [payload_of_get? hget]
  rfl

/-- An operation of the heap that succeeds replaces the heap. -/
theorem onHeap_of_ok {operation : Heap → Heap.Outcome α} {value : α}
    (hok : operation state.heap = .ok value heap) :
    onHeap operation state = .ok value { state with heap } := by
  unfold onHeap
  dsimp only
  rw [hok]

/-- One that fails does too: it may have collected before. -/
theorem onHeap_of_error {operation : Heap → Heap.Outcome α} {cause : Fault}
    (herror : operation state.heap = .error cause heap) :
    onHeap operation state = .error (.fault cause) { state with heap } := by
  unfold onHeap
  dsimp only
  rw [herror]

/-- An allocation starts from all roots of the state. -/
theorem allocate_of_ok
    (hok : state.heap.allocate object state.rootRefs = .ok ref heap) :
    allocate object state = .ok ref { state with heap } :=
  (bind_of_ok rfl).trans (onHeap_of_ok hok)

/-- This is how an allocation fails. -/
theorem allocate_of_error {cause : Fault}
    (herror : state.heap.allocate object state.rootRefs = .error cause heap) :
    allocate object state = .error (.fault cause) { state with heap } :=
  (bind_of_ok rfl).trans (onHeap_of_error herror)

/-- A query with a value, run as a step. -/
theorem lift_of_ok {query : Query α} {value : α} (hok : query state = .ok value)
    :
    (liftM query : Eval α) state = .ok value state := by
  rw [Query.toEval_apply, hok]

/-- A query that stops leaves the state. -/
theorem lift_of_error {query : Query α} {stop : Stop}
    (herror : query state = .error stop) :
    (liftM query : Eval α) state = .error stop state := by
  rw [Query.toEval_apply, herror]

/-- A stored object is changed in place. -/
theorem update_of_get? (hget : state.heap.get? ref = some object)
    (change : HeapObject → HeapObject) :
    update ref change state = .ok () (state.amend ref change) :=
  (bind_of_ok (lift_of_ok (fetch_eq_ok_iff.mpr hget))).trans (onHeap_of_ok rfl)

/-- The frame of a stored environment is changed in place. -/
theorem updateFrame_of_get?
    (hget : state.heap.get? ref = some ⟨.environment env, attributes⟩) (change : Frame → Frame) :
    updateFrame ref change state =
      .ok () (state.amend ref (.become (.environment ⟨env.parent, change env.frame⟩))) :=
  (bind_of_ok (lift_of_ok (environmentAt_of_get? hget))).trans (update_of_get? hget _)

/-- A stored promise is changed in place. -/
theorem setPromise_of_get?
    (hget : state.heap.get? ref = some ⟨.promise deferred, attributes⟩) (other : Promise) :
    setPromise ref other state = .ok () (state.amend ref (.become (.promise other))) :=
  (bind_of_ok (lift_of_ok (promiseAt_of_get? hget))).trans (update_of_get? hget _)

/-- Resolving a term leaves the heap alone. -/
theorem heap_of_resolve {term : Term} {expr : Expr}
    (hok : resolve term state = .ok expr after) :
    after.heap = state.heap := by
  cases hok
  rfl

/-! ## Regions of roots -/

/-- A longer stack is cut back to the stack that it extends. -/
theorem shrink_of_extends {entries more : Array RootEntry}
    (hextends : entries.toList <+: more.toList) :
    more.shrink entries.size = entries := by
  apply Array.toList_inj.mp
  rw [Array.toList_shrink]
  exact (List.prefix_iff_eq_take.mp hextends).symm

/-- Dropping the roots above a depth that the stack has. -/
theorem releaseRoots_apply {depth : Nat} (hdepth : depth ≤ state.roots.depth) :
    releaseRoots depth state = .ok () (state.withEntries (state.roots.entries.shrink depth)) := by
  have htruncate : state.roots.truncate depth =
      .ok () { state.roots with entries := state.roots.entries.shrink depth } :=
    if_pos hdepth
  unfold releaseRoots onRoots
  dsimp only
  rw [htruncate]
  rfl

/-- Dropping what came on top of an earlier stack. -/
theorem releaseRoots_of_extends
    (hextends : state.roots.entries.toList <+: middle.roots.entries.toList) :
    releaseRoots state.roots.depth middle = .ok () (middle.withEntries state.roots.entries) := by
  have hdepth : state.roots.depth ≤ middle.roots.depth := hextends.length_le
  rw [releaseRoots_apply hdepth, RootStack.depth, shrink_of_extends hextends]

variable {action : Eval α}

/-- A region of roots depends on the run of its action only. -/
theorem withRoots_congr {other : Eval α} (hsame : action state = other state) :
    withRoots action state = withRoots other state := by
  have hattempt : attempt action state = attempt other state := by
    unfold attempt
    rw [hsame]
  exact (bind_of_ok rfl).trans ((bind_of_eq hattempt).trans (bind_of_ok rfl).symm)

/-- A region that ends with a value drops its roots. -/
theorem withRoots_of_ok {value : α} (hok : action state = .ok value middle)
    (hextends : state.roots.entries.toList <+: middle.roots.entries.toList) :
    withRoots action state = .ok value (middle.withEntries state.roots.entries) :=
  (bind_of_ok rfl).trans ((bind_of_ok (attempt_of_ok hok)).trans
    (bind_of_ok (releaseRoots_of_extends hextends)))

/-- It drops them when it ends with an error. -/
theorem withRoots_of_error {err : EvalError} (herror : action state = .error (.error err) middle)
    (hextends : state.roots.entries.toList <+: middle.roots.entries.toList) :
    withRoots action state = .error (.error err) (middle.withEntries state.roots.entries) :=
  (bind_of_ok rfl).trans ((bind_of_ok (attempt_of_error herror)).trans
    (bind_of_ok (releaseRoots_of_extends hextends)))

/-- Another stop passes through with the roots in place. -/
theorem withRoots_of_stop {stop : Stop} (hstop : action state = .error stop middle)
    (hfinal : ∀ err, stop ≠ .error err) : withRoots action state = .error stop middle :=
  (bind_of_ok rfl).trans (bind_of_error (attempt_of_stop hstop hfinal))

/-- How a region ends, given how its step ends. -/
theorem Ends.withRoots {post : Interpreter → Prop} {fault : Fault → Prop}
    (haction : action.Ends state (fun middle =>
      state.roots.entries.toList <+: middle.roots.entries.toList ∧
        post (middle.withEntries state.roots.entries)) fault) :
    (withRoots action).Ends state post fault := by
  cases hrun : action state with
  | ok value middle =>
      obtain ⟨hextends, hpost⟩ := haction.finish (.value hrun)
      exact .of_ok (withRoots_of_ok hrun hextends) hpost
  | error stop middle =>
      cases stop with
      | error err =>
          obtain ⟨hextends, hpost⟩ := haction.finish (.error hrun)
          exact .of_error (withRoots_of_error hrun hextends) hpost
      | fault cause =>
          exact .of_fault (withRoots_of_stop hrun fun _ => Stop.noConfusion) (haction.fault hrun)
      | outOfFuel => exact .of_outOfFuel (withRoots_of_stop hrun fun _ => Stop.noConfusion)

/-! ## Calls -/

/-- No call starts on a full stack. -/
theorem beginContext_of_deep (hdeep : state.maxDepth ≤ state.contexts.length)
    (context : CallContext) :
    beginContext context state = .error (.error .tooDeep) state := by
  refine (bind_of_ok rfl).trans ?_
  rw [if_pos hdeep]
  rfl

/-- Otherwise a call is put on the stack. -/
theorem beginContext_of_room (hroom : ¬state.maxDepth ≤ state.contexts.length)
    (context : CallContext) :
    beginContext context state = .ok () { state with contexts := context :: state.contexts } := by
  refine (bind_of_ok rfl).trans ?_
  rw [if_neg hroom]
  rfl

/-- The end of a call drops the roots above the depth at which it began. -/
theorem endContext_apply {context : CallContext} {rest : List CallContext}
    (hcalls : state.contexts = context :: rest) (hdepth : context.rootDepth ≤ state.roots.depth) :
    endContext state = .ok () (Interpreter.withEntries { state with contexts := rest }
      (state.roots.entries.shrink context.rootDepth)) := by
  have hpop : popContext state = .ok context { state with contexts := rest } := by
    refine (bind_of_ok rfl).trans ?_
    rw [hcalls]
    rfl
  exact (bind_of_ok hpop).trans (releaseRoots_apply hdepth)

/-- On a full stack the body of a call does not run. -/
theorem withContext_of_deep (hdeep : state.maxDepth ≤ state.contexts.length)
    {context : CallContext} :
    withContext context action state = .error (.error .tooDeep) state :=
  bind_of_error (beginContext_of_deep hdeep context)

end Eval

end LazyDispatch
