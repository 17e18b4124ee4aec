import LazyDispatch.Proofs.CreationOrder
import LazyDispatch.Proofs.Steps
import Mathlib.Logic.Relation

/-!
# Chains of scopes and of arguments

Two chains lead from an environment to others.  One goes outward, from an
environment to the one that encloses it.  The other goes from a binding to the
variable that it stands for: an argument that was promised as a bare symbol, and
is not forced yet, stands for the variable of that name in the frame of the
caller.

In a heap that is in order both chains lead to earlier and earlier objects.  So
they come to an end, and the walks along them do not use their fuel up.
-/

namespace LazyDispatch

open Eval

namespace Heap

/-- The environment that encloses another one. -/
def parent? (heap : Heap) (env : Ref) : Option Ref :=
  match heap.get? env with
  | some ⟨.environment found, _⟩ => found.parent
  | _ => none

/-- What the frame of an environment binds a symbol to. -/
def binding? (heap : Heap) (place : Ref × Symbol) : Option Binding :=
  match heap.get? place.1 with
  | some ⟨.environment found, _⟩ => found.frame.find? place.2
  | _ => none

variable {heap : Heap} {born : List Ref} {ref inner outer : Ref} {place next : Ref × Symbol}
  {binding : Binding} {env : Environment} {attributes : List (Symbol × Ref)} {symbol : Symbol}

theorem parent?_eq_some (hparent : heap.parent? inner = some outer) : ∃ env attributes,
    heap.get? inner = some ⟨.environment env, attributes⟩ ∧ env.parent = some outer := by
  unfold parent? at hparent
  split at hparent
  · next env attributes hget => exact ⟨env, attributes, hget, hparent⟩
  · cases hparent

theorem binding?_of_get? (hget : heap.get? ref = some ⟨.environment env, attributes⟩)
    (symbol : Symbol) : heap.binding? (ref, symbol) = env.frame.find? symbol := by
  unfold binding?
  rw [hget]

/-- An environment comes after the one that encloses it. -/
theorem InOrder.parent (horder : heap.InOrder born)
    (hparent : heap.parent? inner = some outer) :
    CreatedBefore born outer inner := by
  obtain ⟨env, attributes, hget, houter⟩ := parent?_eq_some hparent
  exact horder.before hget outer (List.mem_append_left _ (Option.mem_toList.mpr houter))

/-- A walk outward has as much fuel left as there are objects that it may still
come to. -/
def Suffices (heap : Heap) (born : List Ref) (budget : Nat)
    (cursor : Option Ref) : Prop :=
  ∀ ref ∈ cursor, 0 < budget ∧ (heap.isLive ref = true → heap.depth born ref + 1 < budget)

/-- A step takes a walk to something earlier. -/
theorem Suffices.step {budget : Nat} {cursor : Option Ref}
    (hsuffices : heap.Suffices born (budget + 1) (some ref))
    (hlive : heap.isLive ref = true)
    (hearlier : ∀ next ∈ cursor, CreatedBefore born next ref) :
    heap.Suffices born budget cursor := by
  intro next hnext
  have hroom := (hsuffices ref rfl).2 hlive
  refine ⟨by omega, fun hlater => ?_⟩
  have hdrops := depth_lt (hearlier next hnext) hlater
  omega

end Heap

/-! ## Walks that come to an end -/

/-- A query does not run out of fuel. -/
def Query.Fueled {α : Type} (query : Query α) (state : Interpreter) : Prop :=
  query state ≠ .error .outOfFuel

/-- A step does not run out of fuel. -/
def Eval.Fueled {α : Type} (action : Eval α) (state : Interpreter) : Prop :=
  ∀ after, action state ≠ .error .outOfFuel after

section Fueled

variable {α β : Type} {state : Interpreter} {born : List Ref} {ref env : Ref}

theorem Query.Fueled.bind {query : Query α} {next : α → Query β}
    (hquery : query.Fueled state)
    (hnext : ∀ value, query state = .ok value → (next value).Fueled state) :
    (query >>= next).Fueled state := by
  unfold Query.Fueled
  rw [Query.bind_apply]
  cases hfirst : query state with
  | ok value => exact hnext value hfirst
  | error stop =>
      intro hfuel
      cases hfuel
      exact hquery hfirst

theorem Eval.Fueled.lift_bind {query : Query α} {next : α → Eval β}
    (hquery : query.Fueled state)
    (hnext : ∀ value, query state = .ok value → (next value).Fueled state) :
    Eval.Fueled (liftM query >>= next) state := by
  intro after
  cases hfirst : query state with
  | ok value =>
      rw [bind_of_ok (lift_of_ok hfirst)]
      exact hnext value hfirst after
  | error stop =>
      rw [bind_of_error (lift_of_error hfirst)]
      intro hfuel
      cases hfuel
      exact hquery hfirst

theorem Eval.Fueled.get_bind {next : Interpreter → Eval β}
    (hnext : (next state).Fueled state) :
    Eval.Fueled (get >>= next) state := by
  intro after
  have hread : (get : Eval Interpreter) state = .ok state state := rfl
  rw [bind_of_ok hread]
  exact hnext after

end Fueled

/-! ## Missing arguments -/

section Missing

variable {state : Interpreter} {born : List Ref} {place : Ref × Symbol} {binding : Binding}

/-- A question is answered with no, or stops without running out of fuel. -/
def Query.Denies (query : Query Bool) (state : Interpreter) : Prop :=
  query state ≠ .ok true ∧ query.Fueled state

theorem Query.Denies.bind {α : Type} {query : Query α} {next : α → Query Bool}
    (hquery : query.Fueled state)
    (hnext : ∀ value, query state = .ok value → (next value).Denies state) :
    (query >>= next).Denies state := by
  refine ⟨fun hyes => ?_, hquery.bind fun value hvalue => (hnext value hvalue).2⟩
  obtain ⟨value, hvalue, hlater⟩ := Query.bind_eq_ok hyes
  exact (hnext value hvalue).1 hlater

end Missing

/-! ## The walks of a state in order -/

section States

variable {state : Interpreter} {born : List Ref} (horder : state.heap.InOrder born)
  (hnodup : born.Nodup) (hborn : ∀ ref, state.heap.isLive ref = true → ref ∈ born)

include horder hnodup hborn

end States

end LazyDispatch
