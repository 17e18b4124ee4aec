import LazyDispatch.Interpreter.Start
import LazyDispatch.Proofs.EvalLaw

/-!
# Evaluation is balanced

Whatever an evaluation does, when it finishes, with a value or with an error
from any depth, the calls in progress, the protected references and the
preserved references are those from before.  In particular the end of a call
always finds the call that it ends, and no region of the root stack is cut back
to a depth that the stack does not have.

This is the trivial heap law: nothing is asked of the heap, and what remains is
the discipline of calls and roots that every settled step keeps.
-/

namespace LazyDispatch

/-- A step leaves the calls and the roots as it found them when it finishes, and
never breaks the discipline by which they are taken off. -/
structure Eval.Balanced {α : Type} (action : Eval α) : Prop where
  contexts : ∀ {state after}, action.Finishes state after → after.contexts = state.contexts
  entries : ∀ {state after}, action.Finishes state after →
    after.roots.entries = state.roots.entries
  preserved : ∀ {state after}, action.Finishes state after →
    after.roots.preserved = state.roots.preserved
  underflow : ∀ {state after}, action state ≠ .error (.fault .contextUnderflow) after
  truncate : ∀ {state after depth top},
    action state ≠ .error (.fault (.truncateAboveDepth depth top)) after

/-- The hooks, called with a certain runner, are balanced. -/
structure Hooks.Balanced (hooks : Hooks) (run : Runner) : Prop where
  quickCheck : ∀ check, hooks.quickCheck = some check →
    ∀ args methods builtin, (check run args methods builtin).Balanced
  methodProvider : ∀ provider, hooks.methodProvider = some provider →
    ∀ builtin env, (provider run builtin env).Balanced
  standardGeneric : ∀ hook, hooks.standardGeneric = some hook →
    ∀ name env fn, (hook run name env fn).Balanced

/-- The law that asks nothing of the heap. -/
def anyHeap : HeapLaw where
  step _ _ _ := True
  same _ := trivial
  trans _ _ := trivial
  mono _ _ := trivial
  allocate _ _ := trivial
  collect _ := trivial
  bind _ _ := trivial
  classify _ _ := trivial
  complete _ _ _ _ := trivial
  evaluate _ _ _ _ := trivial

/-- Under the law that asks nothing, the settled steps are the balanced ones. -/
theorem settled_anyHeap_iff {α : Type} {action : Eval α} :
    anyHeap.Settled action ↔ action.Balanced := by
  constructor
  · intro hsettled
    have hkeeps : ∀ {state after}, action.Finishes state after → state.Keeps .settled after :=
      fun hfinish => ((hsettled _).finish hfinish).1
    exact ⟨fun hfinish => (hkeeps hfinish).calls, fun hfinish => (hkeeps hfinish).roots,
      fun hfinish => (hkeeps hfinish).preserved, fun hfault => (hsettled _).fault hfault,
      fun hfault => (hsettled _).fault hfault⟩
  · intro hbalanced state
    refine ⟨fun hfinish => ⟨⟨hbalanced.contexts hfinish, hbalanced.entries hfinish,
      hbalanced.preserved hfinish⟩, trivial⟩, fun {cause after} hfault => ?_⟩
    cases cause with
    | contextUnderflow => exact hbalanced.underflow hfault
    | truncateAboveDepth depth top => exact hbalanced.truncate hfault
    | _ => trivial

theorem Hooks.Balanced.allowed {hooks : Hooks} {run : Runner}
    (hhooks : hooks.Balanced run) :
    hooks.Allowed (anyHeap.effect .settled) run := by
  constructor
  · intro check hcheck args methods builtin
    exact settled_anyHeap_iff.mpr
      (hhooks.quickCheck check hcheck args methods builtin)
  · intro provider hprovider builtin env
    exact settled_anyHeap_iff.mpr
      (hhooks.methodProvider provider hprovider builtin env)
  · intro hook hhook name env fn
    exact settled_anyHeap_iff.mpr
      (hhooks.standardGeneric hook hhook name env fn)

open Eval in
/-- **Evaluation is balanced.**  If the hooks are balanced whenever the
evaluation is that they call, then so is every evaluation, and so are forcing,
applying functions of all kinds, all forms of dispatch, and `standardGeneric`:
each of them, whenever it finishes, with a value or with an error, leaves the
calls in progress, the protected references and the preserved references exactly
as they were, and none of them ever ends a call that is not there or drops roots
above the top. -/
theorem evaluation_balanced (hooks : Hooks)
    (hhooks : ∀ budget, (∀ task, (perform hooks budget task).Balanced) →
      hooks.Balanced (perform hooks budget)) (budget : Nat) :
    (∀ expr env, (perform hooks budget (.eval expr env)).Balanced) ∧
    (∀ ref, (force (perform hooks budget) ref).Balanced) ∧
    (∀ call fn args caller supplied,
      (applyClosure (perform hooks budget) call fn args caller supplied).Balanced) ∧
    (∀ call fn args env supplied,
      (applyFunction hooks (perform hooks budget) call fn args env supplied).Balanced) ∧
    (∀ call builtin args env,
      (applyBuiltin hooks (perform hooks budget) call builtin args env).Balanced) ∧
    (∀ generic object call args callEnv defEnv,
      (useMethod (perform hooks budget) generic object call args callEnv defEnv).Balanced) ∧
    (∀ call generic object env,
      (callUseMethod (perform hooks budget) call generic object env).Balanced) ∧
    (∀ call env, (callNextMethod (perform hooks budget) call env).Balanced) ∧
    (∀ group call builtin args env,
      (groupDispatch (perform hooks budget) group call builtin args env).Balanced) ∧
    (∀ call builtin args env,
      (internalDispatch (perform hooks budget) call builtin args env).Balanced) ∧
    (∀ call builtin args env,
      (overrideDispatch hooks (perform hooks budget) call builtin args env).Balanced) ∧
    (∀ name env, (standardGeneric (perform hooks budget) hooks name env).Balanced) := by
  have hallowed : ∀ budget, (∀ task, anyHeap.Settled (perform hooks budget task)) →
      hooks.Allowed (anyHeap.effect .settled) (perform hooks budget) := fun budget hsettled =>
    (hhooks budget fun task => settled_anyHeap_iff.mp (hsettled task)).allowed
  have hrun : ∀ task, anyHeap.Settled (perform hooks budget task) :=
    HeapLaw.settled_perform hallowed budget
  have hhost := hallowed budget hrun
  simp only [← settled_anyHeap_iff]
  exact ⟨fun expr env => hrun (.eval expr env), HeapLaw.settled_force hrun,
    HeapLaw.settled_applyClosure hrun, HeapLaw.settled_applyFunction hrun hhost,
    HeapLaw.settled_applyBuiltin hrun hhost, HeapLaw.settled_useMethod hrun,
    HeapLaw.settled_callUseMethod hrun, HeapLaw.settled_callNextMethod hrun,
    HeapLaw.settled_groupDispatch hrun, HeapLaw.settled_internalDispatch hrun,
    HeapLaw.settled_overrideDispatch hrun hhost, HeapLaw.settled_standardGeneric hrun hhost⟩

section Witness

open Eval

/-- Hooks that leave everything to the generic, refuse to list methods, and
evaluate the name of a standard generic with its function protected. -/
def recallingHooks : Hooks where
  quickCheck := some fun _ _ _ _ => return .search
  methodProvider := some fun _ builtin _ => raise (.methodsUnavailable builtin.name)
  standardGeneric := some fun run name env fn => withRoots do
    let _ ← protect fn
    run (.eval (.literal 0 (.string name)) env)

theorem balanced_recallingHooks {run : Runner}
    (hrun : ∀ task, (run task).Balanced) :
    recallingHooks.Balanced run := by
  refine ⟨?_, ?_, ?_⟩
  · intro check hcheck args methods builtin
    cases hcheck
    exact settled_anyHeap_iff.mp (Effect.allows_pure _)
  · intro provider hprovider builtin env
    cases hprovider
    exact settled_anyHeap_iff.mp (Effect.allows_raise _)
  · intro hook hhook name env fn
    cases hhook
    exact settled_anyHeap_iff.mp (HeapLaw.settled_withRoots
      ((HeapLaw.protecting_protect fn).bind fun _ => (settled_anyHeap_iff.mpr (hrun _)).within))

/-- A heap of one size class, and few calls in progress. -/
def smallConfig : Config where
  heap := { cellSizes := [256], superblockSize := 16384 }
  maxDepth := 4

/-- Whether a term, resolved in a new interpreter of this kind, passes a test. -/
def startPasses (term : Term) (test : Expr → Interpreter → Bool) : Bool :=
  match Interpreter.start smallConfig .empty with
  | .ok state => (resolve term).passes test state
  | .error _ => false

theorem exists_of_startPasses {term : Term} {test : Expr → Interpreter → Bool}
    (hpasses : startPasses term test = true) :
    ∃ state expr resolved, Interpreter.start smallConfig .empty = .ok state ∧
      resolve term state = .ok expr resolved ∧ test expr resolved = true := by
  unfold startPasses at hpasses
  split at hpasses
  · next state hstart =>
      obtain ⟨expr, resolved, hresolve, htest⟩ := exists_of_passes hpasses
      exact ⟨state, expr, resolved, hstart, hresolve, htest⟩
  · cases hpasses

/-- Whether steps in a new interpreter of this kind lead to a state that passes
a test. -/
def freshPasses {α : Type} (action : Eval α) (test : α → Interpreter → Bool) :
    Bool :=
  match Interpreter.start smallConfig .empty with
  | .ok state => action.passes test state
  | .error _ => false

theorem exists_of_freshPasses {α : Type} {action : Eval α}
    {test : α → Interpreter → Bool} (hpasses : freshPasses action test = true) :
    ∃ start value state, Interpreter.start smallConfig .empty = .ok start ∧
      action start = .ok value state ∧ test value state = true := by
  unfold freshPasses at hpasses
  split at hpasses
  · next start hstart =>
      obtain ⟨value, state, haction, htest⟩ := exists_of_passes hpasses
      exact ⟨start, value, state, hstart, haction, htest⟩
  · cases hpasses

/-- Whether a step runs out of fuel. -/
def runsOut (action : Eval Ref) (state : Interpreter) : Bool :=
  match action state with
  | .error .outOfFuel _ => true
  | _ => false

theorem exists_of_runsOut {action : Eval Ref} {state : Interpreter}
    (hout : runsOut action state = true) :
    ∃ after, action state = .error .outOfFuel after := by
  unfold runsOut at hout
  split at hout
  · next after haction => exact ⟨after, haction⟩
  · cases hout

/-- A function that calls itself for ever. -/
def selfCall : Term :=
  .block [.assign .here "f" (.function [] (.call (.symbol "f") [])), .call (.symbol "f") []]

/-- Whether too many calls were in progress. -/
def tooDeep {α : Type} : EStateM.Result Stop Interpreter α → Bool
  | .error (.error .tooDeep) _ => true
  | _ => false

set_option maxRecDepth 1000000 in
theorem exists_selfCall_tooDeep : ∃ state expr before after,
    Interpreter.start smallConfig .empty = .ok state ∧
    resolve selfCall state = .ok expr before ∧
    perform recallingHooks 40 (.eval expr before.fixed.global) before =
      .error (.error .tooDeep) after := by
  have hcheck : startPasses selfCall (fun expr before =>
      tooDeep (perform recallingHooks 40 (.eval expr before.fixed.global) before)) = true := by
    decide +kernel
  obtain ⟨state, expr, before, hstart, hresolve, htest⟩ := exists_of_startPasses hcheck
  unfold tooDeep at htest
  split at htest
  · next after hrun => exact ⟨state, expr, before, after, hstart, hresolve, hrun⟩
  · cases htest

/-- Four calls deep, the error takes all calls off again. -/
theorem evaluation_balanced_selfCall :
    (∀ budget, (∀ task, (perform recallingHooks budget task).Balanced) →
      recallingHooks.Balanced (perform recallingHooks budget)) ∧
    ∃ state expr before after,
      Interpreter.start smallConfig .empty = .ok state ∧ resolve selfCall state = .ok expr before ∧
      perform recallingHooks 40 (.eval expr before.fixed.global) before =
        .error (.error .tooDeep) after ∧
      after.contexts = before.contexts ∧ after.roots.entries = before.roots.entries ∧
      after.roots.preserved = before.roots.preserved := by
  have hhooks : ∀ budget, (∀ task, (perform recallingHooks budget task).Balanced) →
      recallingHooks.Balanced (perform recallingHooks budget) :=
    fun _ hrun => balanced_recallingHooks hrun
  obtain ⟨state, expr, before, after, hstart, hresolve, hrun⟩ := exists_selfCall_tooDeep
  have hbalanced := (evaluation_balanced recallingHooks hhooks 40).1 expr before.fixed.global
  exact ⟨hhooks, state, expr, before, after, hstart, hresolve, hrun,
    hbalanced.contexts (.error hrun), hbalanced.entries (.error hrun),
    hbalanced.preserved (.error hrun)⟩

end Witness

end LazyDispatch
