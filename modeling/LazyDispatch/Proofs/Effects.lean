import LazyDispatch.Eval.Run

/-!
# Effects of evaluation steps

Most of what can be said about evaluation in general is a relation between the
state before a step and the state after it: the stacks are as they were, the
heap went through these changes.  An *effect* is such a relation, together with
the faults that may stop a step.  A step is allowed by an effect if it keeps to
the relation whenever it finishes, with a value or with an error, and stops with
no other fault.

Effects are reflexive and transitive, so sequences, loops and recovered errors
of allowed steps are allowed (`Allows.bind`, `Allows.mapM`, `Allows.attempt`).
Steps that only read the state are allowed by every effect that admits the
faults of reading (`Allows.lift`).
-/

namespace LazyDispatch

/-- A step finishes in a state, with a value or with an error. -/
inductive Eval.Finishes {α : Type} (action : Eval α) (state : Interpreter) : Interpreter → Prop
  | value {value : α} {after : Interpreter} (hvalue : action state = .ok value after) :
      Finishes action state after
  | error {err : EvalError} {after : Interpreter}
      (herror : action state = .error (.error err) after) :
      Finishes action state after

namespace Eval

variable {α β : Type} {action : Eval α} {next : α → Eval β} {state middle after : Interpreter}

/-- A sequence goes on where its first step ended with a value. -/
theorem bind_of_ok {value : α} (hfirst : action state = .ok value middle) :
    (action >>= next) state = next value middle := by
  show EStateM.bind action next state = _
  unfold EStateM.bind
  rw [hfirst]

/-- A sequence stops where its first step stops. -/
theorem bind_of_error {stop : Stop} (hfirst : action state = .error stop middle)
    :
    (action >>= next) state = .error stop middle := by
  show EStateM.bind action next state = _
  unfold EStateM.bind
  rw [hfirst]

/-- Sequencing only sees how the first step ends. -/
theorem bind_of_eq {other : Eval α} (hsame : action state = other middle) :
    (action >>= next) state = (other >>= next) middle := by
  show EStateM.bind _ _ _ = EStateM.bind _ _ _
  rw [EStateM.bind, EStateM.bind, hsame]

/-- What follows a step only matters for the values that the step gives. -/
theorem bind_congr_of_ok {other : α → Eval β} (hsame : ∀ value middle,
    action state = .ok value middle → next value middle = other value middle) :
    (action >>= next) state = (action >>= other) state := by
  cases hfirst : action state with
  | ok value middle => rw [bind_of_ok hfirst, bind_of_ok hfirst, hsame value middle hfirst]
  | error stop middle => rw [bind_of_error hfirst, bind_of_error hfirst]

/-- A sequence that ends with a value has gone through its first step. -/
theorem bind_eq_ok {value : β} (hok : (action >>= next) state = .ok value after) :
    ∃ first middle, action state = .ok first middle ∧ next first middle = .ok value after := by
  cases hfirst : action state with
  | ok first middle =>
      rw [bind_of_ok hfirst] at hok
      exact ⟨first, middle, rfl, hok⟩
  | error stop middle =>
      rw [bind_of_error hfirst] at hok
      cases hok

/-- A sequence that stops has stopped in its first step, or after it. -/
theorem bind_eq_error {stop : Stop} (herror : (action >>= next) state = .error stop after) :
    action state = .error stop after ∨
      ∃ first middle, action state = .ok first middle ∧ next first middle = .error stop after := by
  cases hfirst : action state with
  | ok first middle =>
      rw [bind_of_ok hfirst] at herror
      exact Or.inr ⟨first, middle, rfl, herror⟩
  | error cause middle =>
      rw [bind_of_error hfirst] at herror
      cases herror
      exact Or.inl rfl

/-- Whether a step ends with a value and a state that pass a test. -/
def passes (action : Eval α) (test : α → Interpreter → Bool)
    (state : Interpreter) : Bool :=
  match action state with
  | .ok value after => test value after
  | .error _ _ => false

/-- A run that passes a test ends with a value. -/
theorem exists_of_passes {test : α → Interpreter → Bool}
    (hpasses : action.passes test state = true) :
    ∃ value after, action state = .ok value after ∧ test value after = true := by
  unfold passes at hpasses
  split at hpasses
  · next value after hok => exact ⟨value, after, hok, hpasses⟩
  · cases hpasses

/-- An attempt that succeeds has a value. -/
theorem attempt_of_ok {value : α} (hok : action state = .ok value after) :
    attempt action state = .ok (.ok value) after := by
  unfold attempt
  rw [hok]

/-- An attempt that meets an error has that for its value. -/
theorem attempt_of_error {err : EvalError}
    (herror : action state = .error (.error err) after) :
    attempt action state = .ok (.error err) after := by
  unfold attempt
  rw [herror]

/-- Nothing recovers from a stop that is not an error. -/
theorem attempt_of_stop {stop : Stop} (hstop : action state = .error stop after)
    (hfinal : ∀ err, stop ≠ .error err) :
    attempt action state = .error stop after := by
  unfold attempt
  rw [hstop]
  cases stop with
  | error err => exact absurd rfl (hfinal err)
  | fault cause => rfl
  | outOfFuel => rfl

/-- An attempt finishes where the step finishes. -/
theorem finishes_of_attempt (hfinish : (attempt action).Finishes state after) :
    action.Finishes state after := by
  unfold attempt at hfinish
  rcases hfinish with ⟨hvalue⟩ | ⟨herror⟩
  · split at hvalue
    · next hfirst =>
        cases hvalue
        exact .value hfirst
    · next hfirst =>
        cases hvalue
        exact .error hfirst
    · cases hvalue
  · split at herror
    · cases herror
    · cases herror
    · next hnot hfirst =>
        cases herror
        exact absurd rfl (hnot _)

/-- An attempt has the faults of the step. -/
theorem fault_of_attempt {cause : Fault}
    (hfault : attempt action state = .error (.fault cause) after) :
    action state = .error (.fault cause) after := by
  unfold attempt at hfault
  split at hfault
  · cases hfault
  · cases hfault
  · next hfirst =>
      cases hfault
      exact hfirst

/-- An attempt raises no error. -/
theorem attempt_ne_error {err : EvalError} :
    attempt action state ≠ .error (.error err) after := by
  intro herror
  unfold attempt at herror
  split at herror
  · cases herror
  · cases herror
  · next hfinal _ =>
      cases herror
      exact hfinal _ rfl

end Eval

/-- How a step ends, unless its budget is used up: where it finishes, and the
fault that stops it. -/
structure Eval.Ends {α : Type} (action : Eval α) (state : Interpreter)
    (post : Interpreter → Prop) (fault : Fault → Prop) : Prop where
  finish : ∀ {after}, action.Finishes state after → post after
  fault : ∀ {cause after}, action state = .error (.fault cause) after → fault cause

namespace Eval.Ends

variable {α : Type} {action : Eval α} {state after : Interpreter} {post : Interpreter → Prop}
  {fault : Fault → Prop}

/-- A run may end with a value. -/
theorem of_ok {value : α} (hok : action state = .ok value after)
    (hpost : post after) :
    action.Ends state post fault := by
  refine ⟨fun hfinish => ?_, fun hfault => nomatch hok.symm.trans hfault⟩
  cases hfinish with
  | value hvalue =>
      cases hok.symm.trans hvalue
      exact hpost
  | error herror => cases hok.symm.trans herror

/-- A run may end with an error. -/
theorem of_error {err : EvalError}
    (herror : action state = .error (.error err) after) (hpost : post after) :
    action.Ends state post fault := by
  refine ⟨fun hfinish => ?_, fun hfault => nomatch herror.symm.trans hfault⟩
  cases hfinish with
  | value hvalue => cases herror.symm.trans hvalue
  | error hother =>
      cases herror.symm.trans hother
      exact hpost

/-- A run may end with a fault. -/
theorem of_fault {cause : Fault}
    (hfault : action state = .error (.fault cause) after) (hcause : fault cause)
    : action.Ends state post fault := by
  refine ⟨fun hfinish => ?_, fun hother => ?_⟩
  · rcases hfinish with ⟨hvalue⟩ | ⟨herror⟩
    · cases hfault.symm.trans hvalue
    · cases hfault.symm.trans herror
  · cases hfault.symm.trans hother
    exact hcause

/-- A run may be out of fuel. -/
theorem of_outOfFuel (hstop : action state = .error .outOfFuel after) :
    action.Ends state post fault := by
  refine ⟨fun hfinish => ?_, fun hfault => nomatch hstop.symm.trans hfault⟩
  rcases hfinish with ⟨hvalue⟩ | ⟨herror⟩
  · cases hstop.symm.trans hvalue
  · cases hstop.symm.trans herror

/-- A step ends as another one that does the same in this state. -/
theorem of_eq {twin : Eval α} (haction : action.Ends state post fault)
    (hsame : twin state = action state) : twin.Ends state post fault := by
  refine ⟨fun hfinish => haction.finish ?_, fun hfault => haction.fault (hsame.symm.trans hfault)⟩
  cases hfinish with
  | value hvalue => exact .value (hsame.symm.trans hvalue)
  | error herror => exact .error (hsame.symm.trans herror)

/-- A sequence ends with an error or a fault of its first step, or as the next
step ends. -/
theorem bind {β : Type} {next : α → Eval β}
    (herror : ∀ {err after}, action state = .error (.error err) after →
      post after)
    (hfault : ∀ {cause after}, action state = .error (.fault cause) after →
      fault cause) (hnext : ∀ value middle, action state = .ok value middle →
    (next value).Ends middle post fault) :
    (action >>= next).Ends state post fault := by
  refine ⟨fun hfinish => ?_, fun hstop => ?_⟩
  · rcases hfinish with ⟨hvalue⟩ | ⟨hraised⟩
    · obtain ⟨value, middle, hfirst, hrest⟩ := bind_eq_ok hvalue
      exact (hnext value middle hfirst).finish (.value hrest)
    · rcases bind_eq_error hraised with hfirst | ⟨value, middle, hfirst, hrest⟩
      · exact herror hfirst
      · exact (hnext value middle hfirst).finish (.error hrest)
  · rcases bind_eq_error hstop with hfirst | ⟨value, middle, hfirst, hrest⟩
    · exact hfault hfirst
    · exact (hnext value middle hfirst).fault hrest

end Eval.Ends

/-- What steps may do to the state, and the faults that may stop them. -/
structure Effect where
  step : Interpreter → Interpreter → Prop
  fault : Fault → Prop
  refl : ∀ state, step state state
  trans : ∀ {first second third}, step first second → step second third → step first third

namespace Effect

/-- A step keeps to an effect when it starts in a certain state. -/
abbrev AllowsAt (effect : Effect) (state : Interpreter) {α : Type}
    (action : Eval α) : Prop :=
  action.Ends state (effect.step state) effect.fault

/-- A step keeps to an effect. -/
def Allows (effect : Effect) {α : Type} (action : Eval α) : Prop :=
  ∀ state, effect.AllowsAt state action

/-- Whatever one effect admits, another one does. -/
structure Within (effect other : Effect) : Prop where
  step : ∀ {state after}, effect.step state after → other.step state after
  fault : ∀ {cause}, effect.fault cause → other.fault cause

variable {effect other : Effect} {state : Interpreter} {α β : Type}

/-- A wider effect allows as much. -/
theorem Allows.mono {action : Eval α} (haction : effect.Allows action)
    (hwithin : effect.Within other) : other.Allows action := by
  intro state
  constructor
  · intro after hfinish
    exact hwithin.step ((haction state).finish hfinish)
  · intro cause after hfault
    exact hwithin.fault ((haction state).fault hfault)

/-! ## Single steps -/

/-- Every effect allows a value. -/
theorem allows_pure (value : α) : effect.Allows (pure value) :=
  fun state => .of_ok rfl (effect.refl state)

/-- Every effect allows an error. -/
theorem allows_raise (err : EvalError) : effect.Allows (raise err : Eval α) :=
  fun state => .of_error rfl (effect.refl state)

/-- Every effect allows the end of fuel. -/
theorem allows_outOfFuel : effect.Allows (throw Stop.outOfFuel : Eval α) :=
  fun _ => .of_outOfFuel rfl

/-- Every effect allows a look at the state. -/
theorem allows_get : effect.Allows (get : Eval Interpreter) :=
  fun state => .of_ok rfl (effect.refl state)

/-- A step that changes the state by a function is allowed if the change is. -/
theorem allows_modifyGet {change : Interpreter → α × Interpreter}
    (hchange : ∀ state, effect.step state (change state).2) :
    effect.Allows (modifyGet change : Eval α) :=
  fun state => .of_ok rfl (hchange state)

/-! ## Sequences and loops -/

/-- What follows a step only has to be allowed where the step can lead. -/
theorem AllowsAt.bind {action : Eval α} {next : α → Eval β}
    (haction : effect.AllowsAt state action)
    (hnext : ∀ value middle, action state = .ok value middle →
      effect.AllowsAt middle (next value)) :
    effect.AllowsAt state (action >>= next) := by
  refine Eval.Ends.bind (fun herror => haction.finish (.error herror)) haction.fault
    fun value middle hfirst => ?_
  have hstep := haction.finish (.value hfirst)
  exact ⟨fun hrest => effect.trans hstep ((hnext value middle hfirst).finish hrest),
    (hnext value middle hfirst).fault⟩

/-- Two allowed steps in sequence are allowed. -/
theorem Allows.bind {action : Eval α} {next : α → Eval β} (haction : effect.Allows action)
    (hnext : ∀ value, effect.Allows (next value)) : effect.Allows (action >>= next) :=
  fun state => (haction state).bind fun value middle _ => hnext value middle

/-- Allowed steps for each item of a list are allowed. -/
theorem Allows.mapM {f : α → Eval β} {items : List α}
    (hitems : ∀ item, effect.Allows (f item)) :
    effect.Allows (items.mapM f) := by
  induction items with
  | nil => exact allows_pure []
  | cons item rest ih =>
      rw [List.mapM_cons]
      exact (hitems item).bind fun first => ih.bind fun others => allows_pure (first :: others)

/-- So are steps without results. -/
theorem Allows.forM {f : α → Eval PUnit} {items : List α}
    (hitems : ∀ item, effect.Allows (f item)) :
    effect.Allows (items.forM f) := by
  induction items with
  | nil => exact allows_pure _
  | cons item rest ih => exact (hitems item).bind fun _ => ih

/-! ## Recovered errors -/

/-- An attempt of an allowed step is allowed. -/
theorem Allows.attempt {action : Eval α} (haction : effect.Allows action) :
    effect.Allows (Eval.attempt action) := by
  intro state
  constructor
  · intro after hfinish
    exact (haction state).finish (Eval.finishes_of_attempt hfinish)
  · intro cause after hfault
    exact (haction state).fault (Eval.fault_of_attempt hfault)

/-- The end of an attempt changes nothing. -/
theorem allows_settle (result : Except EvalError α) :
    effect.Allows (Eval.settle result) := by
  cases result with
  | ok value => exact allows_pure value
  | error err => exact allows_raise err

end Effect

/-! ## Steps that only read -/

/-- The faults of reading a state that breaks its own discipline. -/
def Fault.OfReading : Fault → Prop
  | .staleReference _ | .notAnEnvironment _ | .enclosingNotAnEnvironment _ | .notAPromise _
  | .promiseBindingEmpty | .boundBindingEmpty => True
  | _ => False

/-- A query stops with no fault but those of reading. -/
def Query.Reads {α : Type} (query : Query α) : Prop :=
  ∀ state cause, query state = .error (.fault cause) → cause.OfReading

namespace Query

variable {α β : Type}

/-- A value reads nothing. -/
theorem reads_pure (value : α) : Reads (pure value) := by
  intro state cause hfault
  cases hfault

/-- The state may be read. -/
theorem reads_read : Reads (read : Query Interpreter) := by
  intro state cause hfault
  cases hfault

/-- Reading fails with the faults of reading only. -/
theorem reads_fail {cause : Fault} (hcause : cause.OfReading) :
    Reads (fail cause : Query α) := by
  intro state other hfault
  cases hfault
  exact hcause

/-- Queries in sequence read one state. -/
theorem bind_apply (query : Query α) (next : α → Query β) (state : Interpreter) :
    (query >>= next) state = (query state).bind fun value => next value state := rfl

/-- After an answer the next query goes on. -/
theorem bind_of_ok {query : Query α} {next : α → Query β} {state : Interpreter}
    {value : α} (hok : query state = .ok value) :
    (query >>= next) state = next value state := by
  rw [bind_apply, hok]
  rfl

/-- An answer to a sequence comes of answers to both. -/
theorem bind_eq_ok {query : Query α} {next : α → Query β} {state : Interpreter}
    {value : β} (hok : (query >>= next) state = .ok value) :
    ∃ first, query state = .ok first ∧ next first state = .ok value := by
  rw [bind_apply] at hok
  cases hfirst : query state with
  | ok first =>
      rw [hfirst] at hok
      exact ⟨first, rfl, hok⟩
  | error stop =>
      rw [hfirst] at hok
      cases hok

/-- Queries in sequence read as each of them does. -/
theorem Reads.bind {query : Query α} {next : α → Query β} (hquery : query.Reads)
    (hnext : ∀ value, (next value).Reads) : Reads (query >>= next) := by
  intro state cause hfault
  rw [bind_apply] at hfault
  cases hfirst : query state with
  | ok value =>
      rw [hfirst] at hfault
      exact hnext value state cause hfault
  | error stop =>
      rw [hfirst] at hfault
      cases hfault
      exact hquery state cause hfirst

open Eval

/-- Fetching an object only reads. -/
theorem reads_fetch (ref : Ref) : Reads (fetch ref) := by
  intro state cause hfault
  unfold fetch at hfault
  split at hfault <;> cases hfault
  trivial

/-- So does fetching its payload. -/
theorem reads_payload (ref : Ref) : Reads (payload ref) :=
  (reads_fetch ref).bind fun _ => reads_pure _

/-- So does fetching a closure. -/
theorem reads_closureAt? (ref : Ref) : Reads (closureAt? ref) :=
  (reads_payload ref).bind fun _ => reads_pure _

/-- So does fetching an environment. -/
theorem reads_environmentAt (ref : Ref) : Reads (environmentAt ref) := by
  refine (reads_payload ref).bind fun found => ?_
  split
  · exact reads_pure _
  · exact reads_fail trivial

/-- So does asking for the depth of the root stack. -/
theorem reads_rootDepth : Reads rootDepth :=
  reads_read.bind fun _ => reads_pure _

/-- So does asking for an entry of the method cache. -/
theorem reads_cacheEntry (builtin : Builtin) : Reads (cacheEntry builtin) :=
  reads_read.bind fun _ => reads_pure _

end Query

/-- A query, run as a step, changes nothing. -/
theorem Query.toEval_apply {α : Type} (query : Query α) (state : Interpreter) :
    (liftM query : Eval α) state = match query state with
      | .ok value => .ok value state
      | .error stop => .error stop state := by
  show query.toEval state = _
  unfold Query.toEval
  cases query state <;> rfl

/-- A query that gives a value, run as a step, gives it in the same state. -/
theorem Query.toEval_eq_ok {α : Type} {query : Query α}
    {state after : Interpreter} {value : α}
    (hok : (liftM query : Eval α) state = .ok value after) :
    query state = .ok value ∧ after = state := by
  rw [Query.toEval_apply] at hok
  split at hok <;> cases hok
  next hvalue => exact ⟨hvalue, rfl⟩

namespace Effect

variable {effect : Effect} {α β : Type} {query : Query α}

/-- An effect that has the faults of reading allows queries. -/
theorem Allows.lift (hquery : query.Reads)
    (hreading : ∀ cause, cause.OfReading → effect.fault cause) :
    effect.Allows (liftM query : Eval α) := by
  intro state
  have hrun := Query.toEval_apply query state
  cases hvalue : query state with
  | ok value =>
      rw [hvalue] at hrun
      exact .of_ok hrun (effect.refl state)
  | error stop =>
      rw [hvalue] at hrun
      cases stop with
      | error err => exact .of_error hrun (effect.refl state)
      | fault cause => exact .of_fault hrun (hreading cause (hquery state cause hvalue))
      | outOfFuel => exact .of_outOfFuel hrun

/-- What follows a query only has to be allowed for its answer. -/
theorem AllowsAt.lift_bind {state : Interpreter} {next : α → Eval β} (hquery : query.Reads)
    (hreading : ∀ cause, cause.OfReading → effect.fault cause)
    (hnext : ∀ value, query state = .ok value → effect.AllowsAt state (next value)) :
    effect.AllowsAt state (liftM query >>= next) := by
  refine (Allows.lift hquery hreading state).bind fun value middle hok => ?_
  obtain ⟨hvalue, rfl⟩ := Query.toEval_eq_ok hok
  exact hnext value hvalue

end Effect

end LazyDispatch
