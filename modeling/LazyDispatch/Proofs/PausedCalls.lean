import LazyDispatch.Proofs.DispatchFrame
import LazyDispatch.Proofs.FunctionLookup
import LazyDispatch.Proofs.HeapRoom

/-!
# Calls inside calls

While the body of a closure applies another function, the call of the closure is
paused.  Here is what is left to do of a paused call (`Eval.resume`) and what
becomes of the result of the inner call: a value or an error is passed on,
except for an early return from the frame of the paused call, and a fault ends
everything.  A fault for lack of memory only happens where there is no room
(`Eval.RunsOut`).
-/

namespace LazyDispatch

/-! ## Paused calls -/

/-- The call of a closure whose body waits for a call: the frame that it works
in, and the depth of the root stack when the body was entered. -/
structure PausedCall where
  env : Ref
  depth : Nat

namespace Eval

variable {α : Type} {action other : Eval α} {state middle after : Interpreter}

/-- What is left to do of a paused call after the step that it waits for. -/
def resume (paused : PausedCall) (action : Eval Ref) : Eval Ref :=
  ending (returningTo paused.env (releasing paused.depth action))

/-- Resumes calls, the last one of the list first. -/
def resumeAll (paused : List PausedCall) (action : Eval Ref) : Eval Ref :=
  paused.foldr resume action

/-- A paused call depends only on what the step comes to that it waits for. -/
theorem resume_congr {paused : PausedCall} {action other : Eval Ref}
    (hsame : action state = other middle) :
    resume paused action state = resume paused other middle := by
  have hreleased : releasing paused.depth action state = releasing paused.depth other middle :=
    bind_of_eq (attempt_congr hsame)
  have hreturned : returningTo paused.env (releasing paused.depth action) state =
      returningTo paused.env (releasing paused.depth other) middle :=
    bind_of_eq (attempt_congr hreleased)
  exact bind_of_eq (attempt_congr hreturned)

/-- Where there is room for a call, it begins and is ended after its step. -/
theorem withContext_of_room {context : CallContext}
    (hroom : ¬state.maxDepth ≤ state.contexts.length) :
    withContext context action state =
      ending action { state with contexts := context :: state.contexts } :=
  bind_of_ok (beginContext_of_room hroom context)

/-- A step within roots is released to the depth at which it started. -/
theorem withRoots_apply :
    withRoots action state = releasing state.roots.depth action state :=
  bind_of_ok rfl

/-! ### How paused calls end -/

/-- What was settled is got back by an attempt. -/
theorem attempt_settle (result : Except EvalError α) (state : Interpreter) :
    attempt (settle result) state = .ok result state := by
  cases result <;> rfl

variable {result : Except EvalError α}

/-- The roots are released whether the step ends with a value or an error. -/
theorem attempt_releasing {depth : Nat}
    (haction : attempt action state = .ok result middle)
    (hrelease : releaseRoots depth middle = .ok () after) :
    attempt (releasing depth action) state = .ok result after := by
  have hsettle : releasing depth action state = settle result after :=
    (bind_of_ok haction).trans (bind_of_ok hrelease)
  rw [attempt_congr hsettle, attempt_settle]

/-- So is the call ended. -/
theorem attempt_ending (haction : attempt action state = .ok result middle)
    (hend : endContext middle = .ok () after) :
    attempt (ending action) state = .ok result after := by
  have hsettle : ending action state = settle result after :=
    (bind_of_ok haction).trans (bind_of_ok hend)
  rw [attempt_congr hsettle, attempt_settle]

/-- A frame passes on everything but an early return that is meant for it. -/
theorem attempt_returningTo {env : Ref} {action : Eval Ref}
    {result : Except EvalError Ref}
    (haction : attempt action state = .ok result after)
    (hother : ∀ value, result ≠ .error (.earlyReturn value env)) :
    attempt (returningTo env action) state = .ok result after := by
  have hsettle : returningTo env action state = settle result after := by
    unfold returningTo
    rw [bind_of_ok haction]
    split
    · next value target =>
        have hne : target ≠ env := by
          intro heq
          exact hother value (heq ▸ rfl)
        rw [if_neg hne]
        rfl
    · rfl
  rw [attempt_congr hsettle, attempt_settle]

end Eval

/-- The state with the calls and the protected roots of another state. -/
def Interpreter.unwound (after state : Interpreter) : Interpreter :=
  Interpreter.withEntries { after with contexts := state.contexts } state.roots.entries

namespace Eval

/-- A paused call that was entered in `state` passes on what the call in its
body comes to. -/
theorem attempt_resume {state inner after : Interpreter} {env : Ref} {context : CallContext}
    {action : Eval Ref} {result : Except EvalError Ref}
    (haction : attempt action inner = .ok result after)
    (hother : ∀ value, result ≠ .error (.earlyReturn value env))
    (hcontexts : after.contexts = context :: state.contexts)
    (hdepth : context.rootDepth = state.roots.depth)
    (hextends : state.roots.entries.toList <+: after.roots.entries.toList) :
    attempt (resume ⟨env, state.roots.depth⟩ action) inner = .ok result (after.unwound state) := by
  have hreleased := attempt_releasing haction (releaseRoots_of_extends hextends)
  apply attempt_ending (attempt_returningTo hreleased hother)
  have hended : endContext (after.withEntries state.roots.entries) = _ :=
    endContext_apply hcontexts (Nat.le_of_eq hdepth)
  rw [hended, hdepth]
  show EStateM.Result.ok () (Interpreter.withEntries _ (state.roots.entries.shrink _)) = _
  rw [RootStack.depth, shrink_of_extends List.prefix_rfl]
  rfl

end Eval

/-! ## Memory -/

/-- A step fails for lack of memory, in a heap without room for so many objects. -/
def Eval.RunsOut {α : Type} (action : Eval α) (state : Interpreter)
    (count : Nat) : Prop :=
  ¬state.heap.HasRoom count ∧
    ∃ cause after, Fault.OfAllocation cause ∧ action state = .error (.fault cause) after

/-- A heap takes up objects: it has room for so many fewer, and all that the
roots lead to is there as it was. -/
structure Heap.TakesUp (heap : Heap) (roots : List Ref) (count : Nat)
    (after : Heap) : Prop where
  coherent : after.Coherent
  retains : ∀ root ∈ roots, heap.Retains root after
  room : ∀ rest, heap.HasRoom (rest + count) → after.HasRoom rest

namespace Heap.TakesUp

variable {heap middle after : Heap} {roots more : List Ref} {count other : Nat}
  {object : HeapObject} {ref : Ref}

/-- Without an allocation nothing is taken up. -/
theorem refl (hheap : heap.Coherent) (roots : List Ref) (count : Nat) :
    heap.TakesUp roots count heap :=
  ⟨hheap, fun _ _ _ _ _ hget => hget, fun _ hroom => hroom.mono (Nat.le_add_right _ _)⟩

/-- Allocations one after the other take up what they do together. -/
theorem trans (hfirst : heap.TakesUp roots count middle) (hmore : roots ⊆ more)
    (hsecond : middle.TakesUp more other after) :
    heap.TakesUp roots (count + other) after := by
  refine ⟨hsecond.coherent, ?_, ?_⟩
  · intro root hroot
    exact (hfirst.retains root hroot).trans (hsecond.retains root (hmore hroot))
  · intro rest hroom
    rw [Nat.add_comm count, ← Nat.add_assoc] at hroom
    exact hsecond.room rest (hfirst.room _ hroom)

/-- One allocation takes up one object. -/
theorem allocate (hheap : heap.Coherent)
    (hok : heap.allocate object roots = .ok ref after) :
    heap.TakesUp roots 1 after := by
  refine ⟨HeapCall.perform_coherent hheap (Heap.perform_allocate hok), ?_, ?_⟩
  · intro root hroot
    exact .allocate hheap hok hroot
  · intro rest hroom
    exact hroom.of_allocate hheap hok

/-- A new object is changed. -/
theorem update (htakes : heap.TakesUp roots count after)
    (hfresh : heap.get? ref = none) (change : HeapObject → HeapObject) :
    heap.TakesUp roots count (after.update ref change) := by
  refine ⟨htakes.coherent.update ref change, ?_, ?_⟩
  · intro root hroot
    exact (htakes.retains root hroot).update hfresh _
  · intro rest hroom
    exact (htakes.room rest hroom).update ref change

end Heap.TakesUp

namespace Eval

variable {α β : Type} {action : Eval α} {state : Interpreter} {count : Nat}

namespace RunsOut

/-- If the first step runs out of memory, then both do. -/
theorem bind (hout : action.RunsOut state count) (next : α → Eval β) :
    (action >>= next).RunsOut state count := by
  obtain ⟨hroom, cause, after, hcause, hfault⟩ := hout
  exact ⟨hroom, cause, after, hcause, bind_of_error hfault⟩

/-- A step that fails as another one does runs out where that one does. -/
theorem of_eq {other : Eval β} {before : Interpreter} {more : Nat}
    (hout : action.RunsOut state count)
    (hroom : before.heap.HasRoom more → state.heap.HasRoom count)
    (hsame : ∀ cause after, action state = .error (.fault cause) after →
      other before = .error (.fault cause) after) :
    other.RunsOut before more := by
  obtain ⟨hnone, cause, after, hcause, hfault⟩ := hout
  exact ⟨fun hmore => hnone (hroom hmore), cause, after, hcause, hsame cause after hfault⟩

/-- What needs less memory runs out with more missing. -/
theorem mono {more : Nat} (hout : action.RunsOut state count)
    (hle : count ≤ more) :
    action.RunsOut state more :=
  hout.of_eq (fun hroom => hroom.mono hle) fun _ _ hfault => hfault

/-- An attempt does not catch that memory runs out. -/
theorem attempt (hout : action.RunsOut state count) :
    (attempt action).RunsOut state count :=
  hout.of_eq id fun _ _ hfault => attempt_of_stop hfault nofun

/-- A paused call passes it on as well. -/
theorem resume {action : Eval Ref} (hout : action.RunsOut state count)
    (paused : PausedCall) :
    (resume paused action).RunsOut state count :=
  ((hout.attempt.bind _).attempt.bind _).attempt.bind _

end RunsOut

/-- An allocation ends with a reference, or there was no room for one object. -/
theorem allocate_cases (hheap : state.heap.Coherent) (object : HeapObject) :
    (∃ ref heap, state.heap.allocate object state.rootRefs = .ok ref heap ∧
      allocate object state = .ok ref { state with heap }) ∨
    (allocate object).RunsOut state 1 := by
  cases hallocate : state.heap.allocate object state.rootRefs with
  | ok ref heap => exact Or.inl ⟨ref, heap, rfl, allocate_of_ok hallocate⟩
  | error cause heap =>
      refine Or.inr ⟨?_, cause, _, ⟨_, _, _, _, hallocate⟩, allocate_of_error hallocate⟩
      intro hroom
      exact hroom.allocate_ne_error hheap cause hallocate

end Eval

end LazyDispatch
