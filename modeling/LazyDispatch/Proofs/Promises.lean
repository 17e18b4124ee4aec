import LazyDispatch.Proofs.Persistence

/-!
# Promises are evaluated at most once

A promise has three states, and over a whole evaluation there is only one way
between them: a pending promise gets its value.  A forced promise keeps its
value, and a promise whose evaluation is still going on, further out, is left to
that evaluation.

Forcing follows the states.  A forced promise answers its value and a promise
under evaluation refuses, both without a trace.  A pending promise is marked and
protected, its expression is evaluated once, and then it is either forced or
pending as before.  That it is still there to be settled is no accident: it was
among the roots all the time.
-/

namespace LazyDispatch

/-- The states that a promise may have later on. -/
def Promise.MayBecome : Promise → Promise → Prop
  | .forced expr value, later => later = .forced expr value
  | .underEvaluation expr env, later => later = .underEvaluation expr env
  | .pending expr env, later => later = .pending expr env ∨ ∃ value, later = .forced expr value

theorem HeapObject.Persists.mayBecome {cls : Symbol} {deferred : Promise}
    {attributes : List (Symbol × Ref)} {object : HeapObject}
    (hpersists : Persists cls ⟨.promise deferred, attributes⟩ object) :
    ∃ later, object = ⟨.promise later, attributes⟩ ∧ deferred.MayBecome later := by
  cases hpersists with
  | same =>
      refine ⟨deferred, rfl, ?_⟩
      cases deferred with
      | pending expr env => exact Or.inl rfl
      | underEvaluation expr env => rfl
      | forced expr value => rfl
  | environment hobject => cases hobject
  | forced hobject =>
      cases hobject
      exact ⟨_, rfl, Or.inr ⟨_, rfl⟩⟩

/-- Whenever a step finishes on a coherent heap without a generation coming
round, each promise whose cell was not reclaimed has one of the states that it
may have. -/
def Eval.AdvancesPromises {α : Type} (action : Eval α) : Prop :=
  ∀ {state after}, state.heap.Coherent → action.Finishes state after →
    state.heap.NeverWraps after.heap → ∀ {ref deferred attributes},
      state.heap.get? ref = some ⟨.promise deferred, attributes⟩ →
      after.heap.generationAt ref.address = ref.generation →
      ∃ later, after.heap.get? ref = some ⟨.promise later, attributes⟩ ∧ deferred.MayBecome later

theorem advancesPromises_of_allows {α : Type} {action : Eval α} {scope : Scope}
    (haction : (persistence.effect scope).Allows action) :
    action.AdvancesPromises := by
  intro state after hheap hfinish hwraps ref deferred attributes hget hgeneration
  have hevolves := evolves_of_allows haction hheap hfinish
  obtain ⟨object, hobject, hpersists⟩ := hevolves.exists_persists hheap hwraps hget hgeneration
  obtain ⟨later, rfl, hmay⟩ := hpersists.mayBecome
  exact ⟨later, hobject, hmay⟩

/-! ## Forcing -/

namespace Interpreter

/-- The state in which the expression of a promise is evaluated. -/
def forcing (state : Interpreter) (ref : Ref) (expr : Expr) (env : Ref) :
    Interpreter :=
  { state.amend ref (.become (.promise (.underEvaluation expr env))) with
    roots := (state.roots.protect ref state.contexts.length).2 }

/-- What becomes of the state after such an evaluation, which started from
`state`. -/
def settlePromise (state : Interpreter) (ref : Ref) (deferred : Promise)
    (after : Interpreter) :
    Interpreter :=
  (after.withEntries state.roots.entries).amend ref (.become (.promise deferred))

/-- How forcing a pending promise ends, given how its evaluation ends. -/
def settleForced (state : Interpreter) (ref : Ref) (expr : Expr) (env : Ref) :
    EStateM.Result Stop Interpreter Ref → EStateM.Result Stop Interpreter Ref
  | .ok value after => .ok value (state.settlePromise ref (.forced expr value) after)
  | .error (.error err) after =>
    .error (.error err) (state.settlePromise ref (.pending expr env) after)
  | .error stop after => .error stop after

end Interpreter

namespace Eval

variable {run : Runner} {state after : Interpreter} {ref env : Ref} {expr : Expr}
  {attributes : List (Symbol × Ref)}

theorem force_of_forced {value : Ref} (hget : state.heap.get? ref =
    some ⟨.promise (.forced expr value), attributes⟩) :
    force run ref state = .ok value state :=
  bind_of_ok (lift_of_ok (promiseAt_of_get? hget))

theorem force_of_underEvaluation (hget : state.heap.get? ref =
    some ⟨.promise (.underEvaluation expr env), attributes⟩) :
    force run ref state = .error (.error .recursivePromise) state :=
  bind_of_ok (lift_of_ok (promiseAt_of_get? hget))

/-- After its evaluation a promise is there, still under evaluation, and so is
its root. -/
theorem get?_of_forcing (hrun : ∀ task, persistence.Settled (run task))
    (hheap : state.heap.Coherent)
    (hget : state.heap.get? ref = some ⟨.promise (.pending expr env), attributes⟩)
    (hfinish : (run (.eval expr env)).Finishes (state.forcing ref expr env) after) :
    after.heap.get? ref = some ⟨.promise (.underEvaluation expr env), attributes⟩ ∧
      state.roots.entries.toList <+: after.roots.entries.toList := by
  have hbegun : (state.forcing ref expr env).heap.get? ref =
      some ⟨.promise (.underEvaluation expr env), attributes⟩ := by
    show (state.heap.update ref _).get? ref = _
    rw [Heap.get?_update hget, if_pos rfl]
    rfl
  have hmem : ref ∈ (state.forcing ref expr env).fixed.edges ++
      (state.forcing ref expr env).roots.edges := by
    simp [Interpreter.forcing, RootStack.protect, RootStack.edges]
  have hcoherent : (state.forcing ref expr env).heap.Coherent := hheap.update ref _
  have hevolves := evolves_of_allows (hrun (.eval expr env)) hcoherent hfinish
  obtain ⟨object, hobject, hpersists⟩ := hevolves.exists_persists_of_mem hcoherent hmem hbegun
  obtain ⟨later, rfl, rfl⟩ := hpersists.mayBecome
  have hroots : after.roots.entries = (state.forcing ref expr env).roots.entries :=
    ((hrun (.eval expr env) _).finish hfinish).1.roots
  refine ⟨hobject, ?_⟩
  rw [hroots, Interpreter.forcing, RootStack.protect, Array.toList_push]
  exact List.prefix_append _ _

theorem setPromise_settles {former : Promise}
    (hget : after.heap.get? ref = some ⟨.promise former, attributes⟩)
    (deferred : Promise) :
    setPromise ref deferred (after.withEntries state.roots.entries) =
      .ok () (state.settlePromise ref deferred after) := by
  have hthere : (after.withEntries state.roots.entries).heap.get? ref =
      some ⟨.promise former, attributes⟩ := hget
  exact setPromise_of_get? hthere deferred

theorem get?_settlePromise {former : Promise}
    (hget : after.heap.get? ref = some ⟨.promise former, attributes⟩)
    (deferred : Promise) :
    (state.settlePromise ref deferred after).heap.get? ref =
      some ⟨.promise deferred, attributes⟩ := by
  show (after.heap.update ref _).get? ref = _
  rw [Heap.get?_update hget, if_pos rfl]
  rfl

/-- Forcing a pending promise evaluates its expression once and settles the
promise. -/
theorem force_of_pending (hrun : ∀ task, persistence.Settled (run task))
    (hheap : state.heap.Coherent) (hget : state.heap.get? ref =
    some ⟨.promise (.pending expr env), attributes⟩) :
    force run ref state = state.settleForced ref expr env
      (run (.eval expr env) (state.forcing ref expr env)) := by
  refine (bind_of_ok (lift_of_ok (promiseAt_of_get? hget))).trans
    ((bind_of_ok (setPromise_of_get? hget _)).trans ?_)
  have hevaluate : (do let _ ← protect ref; run (.eval expr env) : Eval Ref)
      (state.amend ref (.become (.promise (.underEvaluation expr env)))) =
      run (.eval expr env) (state.forcing ref expr env) := bind_of_ok rfl
  cases hresult : run (.eval expr env) (state.forcing ref expr env) with
  | ok value after =>
      obtain ⟨hunder, hextends⟩ := get?_of_forcing hrun hheap hget (.value hresult)
      have hregion := withRoots_of_ok (hevaluate.trans hresult) hextends
      exact (bind_of_ok (attempt_of_ok hregion)).trans (bind_of_ok (setPromise_settles hunder _))
  | error stop after =>
      cases stop with
      | error err =>
          obtain ⟨hunder, hextends⟩ := get?_of_forcing hrun hheap hget (.error hresult)
          have hregion := withRoots_of_error (hevaluate.trans hresult) hextends
          exact (bind_of_ok (attempt_of_error hregion)).trans
            (bind_of_ok (setPromise_settles hunder _))
      | fault cause =>
          have hregion := withRoots_of_stop (hevaluate.trans hresult) fun _ => Stop.noConfusion
          exact bind_of_error (attempt_of_stop hregion fun _ => Stop.noConfusion)
      | outOfFuel =>
          have hregion := withRoots_of_stop (hevaluate.trans hresult) fun _ => Stop.noConfusion
          exact bind_of_error (attempt_of_stop hregion fun _ => Stop.noConfusion)

/-- A promise that was forced with a value has this value. -/
theorem get?_of_force_ok (hrun : ∀ task, persistence.Settled (run task))
    (hheap : state.heap.Coherent) (hget : state.heap.get? ref =
    some ⟨.promise (.pending expr env), attributes⟩) {value : Ref}
    (hok : force run ref state = .ok value after) :
    after.heap.get? ref = some ⟨.promise (.forced expr value), attributes⟩ := by
  rw [force_of_pending hrun hheap hget] at hok
  cases hresult : run (.eval expr env) (state.forcing ref expr env) with
  | ok found middle =>
      rw [hresult] at hok
      cases hok
      exact get?_settlePromise (get?_of_forcing hrun hheap hget (.value hresult)).1 _
  | error stop middle =>
      rw [hresult] at hok
      cases stop with
      | _ => cases hok

/-- A promise whose evaluation failed is pending as before. -/
theorem get?_of_force_error (hrun : ∀ task, persistence.Settled (run task))
    (hheap : state.heap.Coherent) (hget : state.heap.get? ref =
    some ⟨.promise (.pending expr env), attributes⟩) {err : EvalError}
    (herror : force run ref state = .error (.error err) after) :
    after.heap.get? ref = some ⟨.promise (.pending expr env), attributes⟩ := by
  rw [force_of_pending hrun hheap hget] at herror
  cases hresult : run (.eval expr env) (state.forcing ref expr env) with
  | ok found middle =>
      rw [hresult] at herror
      cases herror
  | error stop middle =>
      rw [hresult] at herror
      cases stop with
      | error raised =>
          cases herror
          exact get?_settlePromise (get?_of_forcing hrun hheap hget (.error hresult)).1 _
      | fault cause => cases herror
      | outOfFuel => cases herror

end Eval

open Eval in
/-- **Promises are evaluated at most once.**  Without hooks, whatever is
evaluated leaves forced promises and promises under evaluation as they are, and
pending promises pending or forced.  Forcing answers the value of a forced
promise and refuses a promise under evaluation, both without a change of state;
forcing a pending promise is one evaluation of its expression in its
environment, after which the promise has the value, or is pending as before if
that failed. -/
theorem promises_forced_at_most_once (budget : Nat) :
    (∀ expr env, (perform {} budget (.eval expr env)).AdvancesPromises) ∧
    (∀ state ref expr value attributes,
      state.heap.get? ref = some ⟨.promise (.forced expr value), attributes⟩ →
      force (perform {} budget) ref state = .ok value state) ∧
    (∀ state ref expr env attributes,
      state.heap.get? ref = some ⟨.promise (.underEvaluation expr env), attributes⟩ →
      force (perform {} budget) ref state = .error (.error .recursivePromise) state) ∧
    (∀ state ref expr env attributes, state.heap.Coherent →
      state.heap.get? ref = some ⟨.promise (.pending expr env), attributes⟩ →
      force (perform {} budget) ref state = state.settleForced ref expr env
        (perform {} budget (.eval expr env) (state.forcing ref expr env)) ∧
      (∀ value after, force (perform {} budget) ref state = .ok value after →
        after.heap.get? ref = some ⟨.promise (.forced expr value), attributes⟩) ∧
      (∀ err after, force (perform {} budget) ref state = .error (.error err) after →
        after.heap.get? ref = some ⟨.promise (.pending expr env), attributes⟩)) := by
  have hrun := persistence_perform budget
  refine ⟨fun expr env => advancesPromises_of_allows (hrun (.eval expr env)),
    fun _ _ _ _ _ => force_of_forced, fun _ _ _ _ _ => force_of_underEvaluation, ?_⟩
  intro state ref expr env attributes hheap hget
  exact ⟨force_of_pending hrun hheap hget, fun _ _ => get?_of_force_ok hrun hheap hget,
    fun _ _ => get?_of_force_error hrun hheap hget⟩

section Witness

open Eval

/-- Combines `p` with itself. -/
def twiceTerm : Term :=
  .call (.symbol "c") [(none, .symbol "p"), (none, .symbol "p")]

/-- Binds a promise of a text to `p`. -/
def bindPromise : Eval Ref := do
  let global := (← get).fixed.global
  let symbol ← intern "p"
  let ref ← allocPayload (.promise (.pending (.literal 0 (.string "a")) global))
  updateFrame global (·.insert symbol (.promise ref))
  return ref

theorem settled_bindPromise : persistence.Settled bindPromise := by
  refine Effect.allows_get.bind fun _ => ?_
  refine (HeapLaw.settled_intern _).bind fun _ => ?_
  refine (HeapLaw.settled_allocPayload _).bind fun _ => ?_
  exact (HeapLaw.settled_updateFrame _ _).bind fun _ => Effect.allows_pure _

/-- Whether an expression leaves the cell of a pending promise alone. -/
def promiseKept (expr : Expr) (ref : Ref) (before : Interpreter) : Bool :=
  match before.heap.get? ref with
  | some ⟨.promise (.pending _ _), _⟩ =>
    (perform {} 40 (.eval expr before.fixed.global)).passes (fun _ after =>
      decide (before.heap.NeverWraps after.heap) &&
        after.heap.generationAt ref.address == ref.generation) before
  | _ => false

set_option maxRecDepth 1000000 in
theorem exists_twiceTerm : ∃ state expr resolved ref before promised env attributes value after,
    Interpreter.start smallConfig .empty = .ok state ∧
    resolve twiceTerm state = .ok expr resolved ∧ bindPromise resolved = .ok ref before ∧
    before.heap.get? ref = some ⟨.promise (.pending promised env), attributes⟩ ∧
    perform {} 40 (.eval expr before.fixed.global) before = .ok value after ∧
    before.heap.NeverWraps after.heap ∧ after.heap.generationAt ref.address = ref.generation := by
  have hcheck : startPasses twiceTerm
      (fun expr => bindPromise.passes (promiseKept expr)) = true := by
    decide +kernel
  obtain ⟨state, expr, resolved, hstart, hresolve, hbound⟩ := exists_of_startPasses hcheck
  obtain ⟨ref, before, hbind, hpromise⟩ := exists_of_passes hbound
  unfold promiseKept at hpromise
  split at hpromise
  · next promised env attributes hget =>
      obtain ⟨value, after, hrun, hafter⟩ := exists_of_passes hpromise
      rw [Bool.and_eq_true, decide_eq_true_iff, beq_iff_eq] at hafter
      exact ⟨state, expr, resolved, ref, before, promised, env, attributes, value, after, hstart,
        hresolve, hbind, hget, hrun, hafter.1, hafter.2⟩
  · cases hpromise

/-- The promise that was used twice, and what forcing it at first would have
done. -/
theorem promises_forced_at_most_once_twiceTerm :
    ∃ state expr resolved ref before promised env attributes value after later,
      Interpreter.start smallConfig .empty = .ok state ∧
      resolve twiceTerm state = .ok expr resolved ∧ bindPromise resolved = .ok ref before ∧
      before.heap.get? ref = some ⟨.promise (.pending promised env), attributes⟩ ∧
      perform {} 40 (.eval expr before.fixed.global) before = .ok value after ∧
      before.heap.NeverWraps after.heap ∧ after.heap.generationAt ref.address = ref.generation ∧
      after.heap.get? ref = some ⟨.promise later, attributes⟩ ∧
      (Promise.pending promised env).MayBecome later ∧
      force (perform {} 40) ref before = before.settleForced ref promised env
        (perform {} 40 (.eval promised env) (before.forcing ref promised env)) := by
  obtain ⟨state, expr, resolved, ref, before, promised, env, attributes, value, after, hstart,
    hresolve, hbind, hget, hrun, hwraps, hgeneration⟩ := exists_twiceTerm
  have hresolved : resolved.heap.Coherent := by
    rw [heap_of_resolve hresolve]
    exact Interpreter.coherent_start hstart
  have hbefore :=
    (evolves_of_allows settled_bindPromise hresolved (.value hbind)).coherent
      hresolved
  have honce := promises_forced_at_most_once 40
  obtain ⟨later, hlater, hmay⟩ :=
    honce.1 expr before.fixed.global hbefore (.value hrun) hwraps hget hgeneration
  have hforce := honce.2.2.2 before ref promised env attributes hbefore hget
  exact ⟨state, expr, resolved, ref, before, promised, env, attributes, value, after, later, hstart,
    hresolve, hbind, hget, hrun, hwraps, hgeneration, hlater, hmay, hforce.1⟩

end Witness

end LazyDispatch
