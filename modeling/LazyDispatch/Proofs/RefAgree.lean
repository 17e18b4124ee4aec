import LazyDispatch.Proofs.RefLaw

/-!
# Steps in pairs

Two steps coincide in a state if they have the same result there and the result
keeps to a reference law.  The rules of this module say how coinciding steps are
put together: in sequence, in loops, in regions of roots and in calls.  A query
is a step of which there is only one.
-/

namespace LazyDispatch

namespace RefLaw

variable {law : RefLaw} {state middle after : Interpreter} {scope : Scope} {kind other : Kind}
  {ref : Ref}

/-! ## Pairs of steps -/

/-- Two steps have the same result in a state, unless the first gives up, and it
keeps to a law: it reaches a certain state, with a certain value, or an error
that carries a value, or a fault that the law leaves possible. -/
structure Coincide (law : RefLaw) {α : Type} (reach : Interpreter → Prop)
    (post : Interpreter → α → Prop) (state : Interpreter) (action twin : Eval α)
    : Prop where
  same : twin state = action state ∨ law.stalls ∧ ∃ after, action state = .error .outOfFuel after
  value : ∀ {value after}, action state = .ok value after → reach after ∧ post after value
  error : ∀ {err after}, action state = .error (.error err) after →
    reach after ∧ law.Carries after err
  fault : ∀ {cause after}, action state = .error (.fault cause) after → law.fault cause after

/-- Two steps of a scope coincide. -/
abbrev Agree (law : RefLaw) (scope : Scope) {α : Type}
    (post : Interpreter → α → Prop) (state : Interpreter) (action twin : Eval α)
    : Prop :=
  law.Coincide (law.Reaches scope state) post state action twin

/-- An action that agrees with itself. -/
abbrev Obeys (law : RefLaw) (scope : Scope) {α : Type}
    (post : Interpreter → α → Prop) (state : Interpreter) (action : Eval α) :
    Prop :=
  law.Agree scope post state action action

/-- What is said of a value survives any step that keeps to the law. -/
def Lasting (law : RefLaw) {α : Type} (post : Interpreter → α → Prop) : Prop :=
  ∀ scope state after value, law.Sound state → law.Reaches scope state after →
    post state value → post after value

/-- What is said of a value survives the loss of roots. -/
def Rootless {α : Type} (post : Interpreter → α → Prop) : Prop :=
  ∀ state after value, state.SameStore after → post state value → post after value

/-- What is kept is kept through every step of a region. -/
theorem lasting_kept (law : RefLaw) (kind : Kind) :
    law.Lasting (law.Kept kind) :=
  fun _ _ _ _ hstate hreach hkept => hreach.kept hstate hkept

/-- The empty condition lasts. -/
theorem lasting_true (law : RefLaw) {α : Type} :
    law.Lasting fun _ (_ : α) => True :=
  fun _ _ _ _ _ _ _ => trivial

/-- That a reference stands now does not depend on the root stack. -/
theorem rootless_now (law : RefLaw) (kind : Kind) : Rootless (law.Now kind) :=
  fun _ _ _ hsame hnow => law.has_same hsame hnow

/-- What is known of a reference that may be absent, as long as the roots stay. -/
def EachKept (law : RefLaw) (kind : Kind) (state : Interpreter)
    (found : Option Ref) : Prop :=
  ∀ ref ∈ found, law.Kept kind state ref

/-- No reference is asked for where there is none. -/
theorem eachKept_none (law : RefLaw) (kind : Kind) (state : Interpreter) :
    law.EachKept kind state none :=
  fun _ href => nomatch href

/-- A kept reference, where there is one. -/
theorem eachKept_some (hkept : law.Kept kind state ref) :
    law.EachKept kind state (some ref) := by
  intro other hother
  cases hother
  exact hkept

/-- An optional reference lasts as a reference does. -/
theorem lasting_eachKept (law : RefLaw) (kind : Kind) :
    law.Lasting (law.EachKept kind) :=
  fun _ _ _ _ hstate hreach hfound ref href => hreach.kept hstate (hfound ref href)

/-- What is known of the value of an argument, as long as the roots stay. -/
def ArgKept (law : RefLaw) (kind : Kind) (state : Interpreter) (arg : Arg) :
    Prop :=
  law.EachKept kind state arg.value

/-- An argument lasts as its value does. -/
theorem lasting_argKept (law : RefLaw) (kind : Kind) :
    law.Lasting (law.ArgKept kind) :=
  fun _ _ _ _ hstate hreach harg ref href => hreach.kept hstate (harg ref href)

/-- What is known of the values of arguments, as long as the roots stay. -/
def ArgsKept (law : RefLaw) (kind : Kind) (state : Interpreter)
    (args : List Arg) : Prop :=
  ∀ arg ∈ args, law.ArgKept kind state arg

/-- Arguments last together. -/
theorem lasting_argsKept (law : RefLaw) (kind : Kind) :
    law.Lasting (law.ArgsKept kind) :=
  fun _ _ _ _ hstate hreach hargs arg harg ref href => hreach.kept hstate (hargs arg harg ref href)

/-- No arguments are kept trivially. -/
theorem argsKept_nil (law : RefLaw) (kind : Kind) (state : Interpreter) :
    law.ArgsKept kind state [] :=
  fun _ harg => nomatch harg

/-- One kept argument. -/
theorem argsKept_singleton {arg : Arg} (harg : law.ArgKept kind state arg) :
    law.ArgsKept kind state [arg] := by
  intro other hother
  cases List.mem_singleton.mp hother
  exact harg

/-- Lists of kept arguments, put one after the other. -/
theorem argsKept_flatten {lists : List (List Arg)}
    (hlists : ∀ args ∈ lists, law.ArgsKept kind state args) :
    law.ArgsKept kind state lists.flatten := by
  intro arg harg
  obtain ⟨args, hargs, hmem⟩ := List.mem_flatten.mp harg
  exact hlists args hargs arg hmem

/-- Arguments that are kept stand now. -/
theorem ArgsKept.now {args : List Arg} (hargs : law.ArgsKept kind state args) :
    ArgsMeet (law.Now kind state) args :=
  fun arg harg ref href => law.has_now (hargs arg harg ref href)

/-- What is known right now of a reference that may be absent. -/
def EachNow (law : RefLaw) (kind : Kind) (state : Interpreter)
    (found : Option Ref) : Prop :=
  ∀ ref ∈ found, law.Now kind state ref

/-- Nor does it for an optional reference. -/
theorem rootless_eachNow (law : RefLaw) (kind : Kind) :
    Rootless (law.EachNow kind) :=
  fun _ _ _ hsame hfound ref href => law.has_same hsame (hfound ref href)

/-- No reference is asked for where there is none. -/
theorem eachNow_none (law : RefLaw) (kind : Kind) (state : Interpreter) :
    law.EachNow kind state none :=
  fun _ href => nomatch href

/-- A reference that stands now, where there is one. -/
theorem eachNow_some (hnow : law.Now kind state ref) :
    law.EachNow kind state (some ref) := by
  intro other hother
  cases hother
  exact hnow

/-- What an attempt leaves: a value, or an error that carries one. -/
def Attempted (law : RefLaw) {α : Type} (post : Interpreter → α → Prop) (after : Interpreter) :
    Except EvalError α → Prop
  | .ok value => post after value
  | .error err => law.Carries after err

namespace Coincide

variable {α β : Type} {reach further : Interpreter → Prop} {post : Interpreter → α → Prop}
  {result : Interpreter → β → Prop} {action twin : Eval α} {next nextTwin : α → Eval β}

/-- Unless the first step gives up, the second has its result. -/
theorem twin_of_ne (hcoincide : law.Coincide reach post state action twin)
    (hgoes : law.stalls → ∀ after, action state ≠ .error .outOfFuel after) :
    twin state = action state := by
  rcases hcoincide.same with hsame | ⟨hstalls, after, hstop⟩
  · exact hsame
  · exact absurd hstop (hgoes hstalls after)

/-- Where the action ends with a value its twin ends with the same. -/
theorem twin_of_ok (hcoincide : law.Coincide reach post state action twin)
    {value : α} (hok : action state = .ok value after) :
    twin state = .ok value after := by
  refine (hcoincide.twin_of_ne fun _ other hstop => ?_).trans hok
  cases hok.symm.trans hstop

/-- Where it stops, other than for want of fuel, its twin stops alike. -/
theorem twin_of_stop (hcoincide : law.Coincide reach post state action twin)
    {stop : Stop} (hrun : action state = .error stop after)
    (hstop : stop ≠ .outOfFuel) :
    twin state = .error stop after := by
  refine (hcoincide.twin_of_ne fun _ other hother => ?_).trans hrun
  cases hrun.symm.trans hother
  exact hstop rfl

/-- Where fuel runs out it does so for both, unless the law lets twins stall. -/
theorem twin_of_outOfFuel
    (hcoincide : law.Coincide reach post state action twin)
    (hrun : action state = .error .outOfFuel after) :
    twin state = .error .outOfFuel after ∨ law.stalls := by
  rcases hcoincide.same with hsame | ⟨hstalls, -⟩
  · exact Or.inl (hsame.trans hrun)
  · exact Or.inr hstalls

/-- Two runs that end with one value in one state coincide. -/
theorem of_ok {value : α} (hok : action state = .ok value after)
    (htwin : twin state = .ok value after) (hreach : reach after)
    (hpost : post after value) :
    law.Coincide reach post state action twin := by
  refine ⟨Or.inl (htwin.trans hok.symm), fun hvalue => ?_, fun herror => ?_, fun hfault => ?_⟩
  · cases hok.symm.trans hvalue
    exact ⟨hreach, hpost⟩
  · cases hok.symm.trans herror
  · cases hok.symm.trans hfault

/-- So do two runs that end with one error. -/
theorem of_error {err : EvalError} (herror : action state = .error (.error err) after)
    (htwin : twin state = .error (.error err) after) (hreach : reach after)
    (hcarries : law.Carries after err) : law.Coincide reach post state action twin := by
  refine ⟨Or.inl (htwin.trans herror.symm), fun hvalue => ?_, fun hraised => ?_, fun hfault => ?_⟩
  · cases herror.symm.trans hvalue
  · cases herror.symm.trans hraised
    exact ⟨hreach, hcarries⟩
  · cases herror.symm.trans hfault

/-- So do two runs that end with one fault. -/
theorem of_fault {cause : Fault} (hfault : action state = .error (.fault cause) after)
    (htwin : twin state = .error (.fault cause) after) (hcause : law.fault cause after) :
    law.Coincide reach post state action twin := by
  refine ⟨Or.inl (htwin.trans hfault.symm), fun hvalue => ?_, fun herror => ?_, fun hstop => ?_⟩
  · cases hfault.symm.trans hvalue
  · cases hfault.symm.trans herror
  · cases hfault.symm.trans hstop
    exact hcause

/-- So do two runs that are out of fuel. -/
theorem of_outOfFuel (hstop : action state = .error .outOfFuel after)
    (htwin : twin state = .error .outOfFuel after ∨ law.stalls) :
    law.Coincide reach post state action twin := by
  refine ⟨?_, fun hvalue => ?_, fun herror => ?_, fun hfault => ?_⟩
  · rcases htwin with hsame | hstalls
    · exact Or.inl (hsame.trans hstop.symm)
    · exact Or.inr ⟨hstalls, after, hstop⟩
  · cases hstop.symm.trans hvalue
  · cases hstop.symm.trans herror
  · cases hstop.symm.trans hfault

/-- Steps that go on like two others. -/
theorem of_eq {other otherTwin : Eval α} (haction : action state = other middle)
    (htwin : twin state = otherTwin middle)
    (hother : law.Coincide reach post middle other otherTwin) :
    law.Coincide reach post state action twin := by
  refine ⟨?_, fun hvalue => hother.value (haction.symm.trans hvalue),
    fun herror => hother.error (haction.symm.trans herror),
    fun hfault => hother.fault (haction.symm.trans hfault)⟩
  rw [haction, htwin]
  exact hother.same

/-- A coincidence with more than is asked for. -/
theorem imp {weaker : Interpreter → α → Prop}
    (hcoincide : law.Coincide reach post state action twin)
    (hreach : ∀ after, reach after → further after)
    (hpost : ∀ after value, reach after → post after value → weaker after value)
    :
    law.Coincide further weaker state action twin := by
  refine ⟨hcoincide.same, ?_, ?_, hcoincide.fault⟩
  · intro value after hvalue
    obtain ⟨hreached, hmet⟩ := hcoincide.value hvalue
    exact ⟨hreach _ hreached, hpost _ _ hreached hmet⟩
  · intro err after herror
    obtain ⟨hreached, hcarries⟩ := hcoincide.error herror
    exact ⟨hreach _ hreached, hcarries⟩

/-- What follows two steps has to coincide where the first step leads. -/
theorem bind_of (haction : law.Coincide reach post state action twin)
    (hreach : ∀ after, reach after → further after)
    (hnext : ∀ value middle, reach middle → post middle value →
      law.Coincide further result middle (next value) (nextTwin value)) :
    law.Coincide further result state (action >>= next) (twin >>= nextTwin) := by
  cases hrun : action state with
  | ok value middle =>
      obtain ⟨hmiddle, hvalue⟩ := haction.value hrun
      exact .of_eq (Eval.bind_of_ok hrun) (Eval.bind_of_ok (haction.twin_of_ok hrun))
        (hnext value middle hmiddle hvalue)
  | error stop middle =>
      have hstops : (action >>= next) state = _ := Eval.bind_of_error hrun
      have htwin : stop ≠ .outOfFuel → (twin >>= nextTwin) state = .error stop middle :=
        fun hstop => Eval.bind_of_error (haction.twin_of_stop hrun hstop)
      cases stop with
      | error err =>
          obtain ⟨hmiddle, hcarries⟩ := haction.error hrun
          exact .of_error hstops (htwin Stop.noConfusion) (hreach _ hmiddle) hcarries
      | fault cause => exact .of_fault hstops (htwin Stop.noConfusion) (haction.fault hrun)
      | outOfFuel =>
          exact .of_outOfFuel hstops ((haction.twin_of_outOfFuel hrun).imp_left Eval.bind_of_error)

/-- Two attempts coincide when what they attempt does. -/
theorem attempt (haction : law.Coincide reach post state action twin) :
    law.Coincide reach (law.Attempted post) state (Eval.attempt action) (Eval.attempt twin) := by
  cases hrun : action state with
  | ok value middle =>
      obtain ⟨hmiddle, hvalue⟩ := haction.value hrun
      exact .of_ok (Eval.attempt_of_ok hrun) (Eval.attempt_of_ok (haction.twin_of_ok hrun)) hmiddle
        hvalue
  | error stop middle =>
      have htwin := haction.twin_of_stop hrun
      cases stop with
      | error err =>
          obtain ⟨hmiddle, hcarries⟩ := haction.error hrun
          exact .of_ok (Eval.attempt_of_error hrun) (Eval.attempt_of_error (htwin Stop.noConfusion))
            hmiddle hcarries
      | fault cause =>
          exact .of_fault (Eval.attempt_of_stop hrun fun _ => Stop.noConfusion)
            (Eval.attempt_of_stop (htwin Stop.noConfusion) fun _ => Stop.noConfusion)
            (haction.fault hrun)
      | outOfFuel =>
          refine .of_outOfFuel (Eval.attempt_of_stop hrun fun _ => Stop.noConfusion)
            ((haction.twin_of_outOfFuel hrun).imp_left fun hstop => ?_)
          exact Eval.attempt_of_stop hstop fun _ => Stop.noConfusion

/-- Settling an outcome ends as the attempt did. -/
theorem settle {outcome : Except EvalError α} (hreach : reach state)
    (houtcome : law.Attempted post state outcome) :
    law.Coincide reach post state (Eval.settle outcome) (Eval.settle outcome) := by
  cases outcome with
  | ok value => exact .of_ok rfl rfl hreach houtcome
  | error err => exact .of_error rfl rfl hreach houtcome

/-- What follows an attempt goes on from where the step finished. -/
theorem attempt_bind {next nextTwin : Except EvalError α → Eval β}
    (haction : law.Coincide reach post state action twin)
    (hnext : ∀ outcome middle, reach middle → law.Attempted post middle outcome →
      law.Coincide further result middle (next outcome) (nextTwin outcome)) :
    law.Coincide further result state (Eval.attempt action >>= next)
      (Eval.attempt twin >>= nextTwin) := by
  have hattempt := haction.attempt
  cases hrun : Eval.attempt action state with
  | ok outcome middle =>
      obtain ⟨hmiddle, houtcome⟩ := hattempt.value hrun
      exact .of_eq (Eval.bind_of_ok hrun) (Eval.bind_of_ok (hattempt.twin_of_ok hrun))
        (hnext outcome middle hmiddle houtcome)
  | error stop middle =>
      cases stop with
      | error err => exact absurd hrun Eval.attempt_ne_error
      | fault cause =>
          exact .of_fault (Eval.bind_of_error hrun)
            (Eval.bind_of_error (hattempt.twin_of_stop hrun Stop.noConfusion)) (hattempt.fault hrun)
      | outOfFuel =>
          exact .of_outOfFuel (Eval.bind_of_error hrun)
            ((hattempt.twin_of_outOfFuel hrun).imp_left Eval.bind_of_error)

/-! ### Regions of roots, and calls -/

/-- Roots are dropped, unless there are too few of them. -/
theorem releaseRoots {depth : Nat} (hdepth : law.balanced → depth ≤ state.roots.depth)
    (hreach : reach (state.withEntries (state.roots.entries.shrink depth))) :
    law.Coincide reach (fun after _ => state.SameStore after) state (Eval.releaseRoots depth)
      (Eval.releaseRoots depth) := by
  by_cases henough : depth ≤ state.roots.depth
  · exact .of_ok (Eval.releaseRoots_apply henough) (Eval.releaseRoots_apply henough) hreach
      (.of_eq rfl rfl rfl rfl rfl)
  · have htruncate : state.roots.truncate depth =
        .error (.truncateAboveDepth depth state.roots.depth) state.roots :=
      if_neg henough
    have hfault : Eval.releaseRoots depth state =
        .error (.fault (.truncateAboveDepth depth state.roots.depth)) state := by
      unfold Eval.releaseRoots Eval.onRoots
      dsimp only
      rw [htruncate]
    have hfree : ¬law.balanced := fun hbalanced => henough (hdepth hbalanced)
    exact .of_fault hfault hfault ((law.unbalanced hfree).fault _ _)

/-- An outcome without roots is good in any state with the same store. -/
theorem Attempted.of_same (hpost : Rootless post)
    (hsame : state.SameStore after) {outcome : Except EvalError α}
    (houtcome : law.Attempted post state outcome) :
    law.Attempted post after outcome := by
  cases outcome with
  | ok value => exact hpost _ _ _ hsame houtcome
  | error err => exact fun value target herr => law.has_same hsame (houtcome value target herr)

/-- The roots above a depth are dropped at the end of a region. -/
theorem releasing {depth : Nat} (haction : law.Coincide further post state action twin)
    (hdepth : ∀ middle, further middle → law.balanced → depth ≤ middle.roots.depth)
    (hend : ∀ middle, further middle →
      reach (middle.withEntries (middle.roots.entries.shrink depth)))
    (hpost : Rootless post) :
    law.Coincide reach post state (Eval.releasing depth action) (Eval.releasing depth twin) := by
  refine haction.attempt_bind fun outcome middle hmiddle houtcome => ?_
  exact (releaseRoots (hdepth middle hmiddle) (hend middle hmiddle)).bind_of
    (fun _ hreach => hreach) fun _ after hreach hsame => .settle hreach
    (Attempted.of_same hpost hsame houtcome)

/-- The roots that a region made are dropped at its end. -/
theorem withRoots (haction : law.Coincide further post state action twin)
    (hdepth : ∀ middle, further middle → law.balanced → state.roots.depth ≤ middle.roots.depth)
    (hend : ∀ middle, further middle →
      reach (middle.withEntries (middle.roots.entries.shrink state.roots.depth)))
    (hpost : Rootless post) :
    law.Coincide reach post state (Eval.withRoots action) (Eval.withRoots twin) := by
  exact .of_eq (Eval.bind_of_ok rfl) (Eval.bind_of_ok rfl)
    (haction.releasing hdepth hend hpost)

/-- A call is ended, unless there is none or its roots are gone. -/
theorem endContext (hpop : law.balanced → ∃ innermost rest, state.contexts = innermost :: rest ∧
      innermost.rootDepth ≤ state.roots.depth)
    (hreach : ∀ innermost rest, state.contexts = innermost :: rest →
      reach (state.ended innermost rest)) :
    law.Coincide reach (fun after _ => state.SameStore after) state Eval.endContext
      Eval.endContext := by
  cases hcalls : state.contexts with
  | nil =>
      have hpopped : Eval.popContext state = .error (.fault .contextUnderflow) state := by
        refine (Eval.bind_of_ok rfl).trans ?_
        rw [hcalls]
        rfl
      have hfree : ¬law.balanced := by
        intro hbalanced
        obtain ⟨innermost, rest, hsome, -⟩ := hpop hbalanced
        cases hcalls.symm.trans hsome
      exact .of_fault (Eval.bind_of_error hpopped) (Eval.bind_of_error hpopped)
        ((law.unbalanced hfree).fault _ _)
  | cons innermost rest =>
      have hpopped : Eval.popContext state = .ok innermost { state with contexts := rest } := by
        refine (Eval.bind_of_ok rfl).trans ?_
        rw [hcalls]
        rfl
      refine .of_eq (Eval.bind_of_ok hpopped) (Eval.bind_of_ok hpopped) ?_
      refine (releaseRoots (fun hbalanced => ?_) (hreach innermost rest hcalls)).imp
        (fun _ hreach => hreach) fun after _ _ hsame => ⟨⟨hsame.heap, hsame.reserved, hsame.fixed,
          hsame.names⟩, hsame.cache⟩
      obtain ⟨innermost, rest, hsome, hdepth⟩ := hpop hbalanced
      cases hcalls.symm.trans hsome
      exact hdepth

/-- Every way out of a call ends it. -/
theorem withContext {context : CallContext} (hdeep : reach state)
    (haction : law.Coincide further post { state with contexts := context :: state.contexts }
      action twin)
    (hpop : ∀ middle, further middle → law.balanced → ∃ innermost rest,
      middle.contexts = innermost :: rest ∧ innermost.rootDepth ≤ middle.roots.depth)
    (hend : ∀ middle innermost rest, further middle → middle.contexts = innermost :: rest →
      reach (middle.ended innermost rest))
    (hpost : Rootless post) :
    law.Coincide reach post state (Eval.withContext context action)
      (Eval.withContext context twin) := by
  by_cases hroom : state.maxDepth ≤ state.contexts.length
  · exact .of_error (Eval.withContext_of_deep hroom) (Eval.withContext_of_deep hroom) hdeep nofun
  have hbegun := Eval.beginContext_of_room hroom context
  refine .of_eq (Eval.bind_of_ok hbegun) (Eval.bind_of_ok hbegun)
    (haction.attempt_bind fun outcome middle hmiddle houtcome => ?_)
  exact (endContext (hpop middle hmiddle) fun innermost rest => hend middle innermost rest hmiddle)
    |>.bind_of (fun _ hreach => hreach) fun _ after hreach hsame =>
      .settle hreach (Attempted.of_same hpost hsame houtcome)

end Coincide

/-! ## Queries -/

/-- What a query answers in a state under a law.  A query carries no value out
of a function. -/
structure Answers (law : RefLaw) {α : Type} (state : Interpreter)
    (query : Query α) (post : α → Prop) : Prop where
  value : ∀ {value}, query state = .ok value → post value
  error : ∀ {err}, query state = .error (.error err) → law.Carries state err
  fault : ∀ {cause}, query state = .error (.fault cause) → law.fault cause state

namespace Answers

variable {α β : Type} {query : Query α} {next : α → Query β} {post : α → Prop} {result : β → Prop}

/-- A value is an answer to itself. -/
theorem pure {value : α} (hpost : post value) :
    law.Answers state (Pure.pure value) post := by
  refine ⟨fun hvalue => ?_, fun herror => ?_, fun hfault => ?_⟩
  · cases hvalue
    exact hpost
  · cases herror
  · cases hfault

/-- A query may raise an error that carries nothing the law forbids. -/
theorem raise {err : EvalError} (hcarries : law.Carries state err) :
    law.Answers state (LazyDispatch.raise err : Query α) post := by
  refine ⟨fun hvalue => ?_, fun herror => ?_, fun hfault => ?_⟩
  · cases hvalue
  · cases herror
    exact hcarries
  · cases hfault

/-- It may fail with a fault the law allows for. -/
theorem fail {cause : Fault} (hcause : law.fault cause state) :
    law.Answers state (LazyDispatch.fail cause : Query α) post := by
  refine ⟨fun hvalue => ?_, fun herror => ?_, fun hfault => ?_⟩
  · cases hvalue
  · cases herror
  · cases hfault
    exact hcause

/-- It may run out of fuel. -/
theorem outOfFuel :
    law.Answers state (throw Stop.outOfFuel : Query α) post := by
  refine ⟨fun hvalue => ?_, fun herror => ?_, fun hfault => ?_⟩
  · cases hvalue
  · cases herror
  · cases hfault

/-- A query after a query. -/
theorem bind (hquery : law.Answers state query post)
    (hnext : ∀ value, post value → law.Answers state (next value) result) :
    law.Answers state (query >>= next) result := by
  have hbind := Query.bind_apply query next state
  cases hfirst : query state with
  | ok value =>
      rw [hfirst] at hbind
      have hrest := hnext value (hquery.value hfirst)
      exact ⟨fun hvalue => hrest.value (hbind.symm.trans hvalue),
        fun herror => hrest.error (hbind.symm.trans herror),
        fun hfault => hrest.fault (hbind.symm.trans hfault)⟩
  | error stop =>
      rw [hfirst] at hbind
      refine ⟨fun hvalue => ?_, fun herror => ?_, fun hfault => ?_⟩
      · cases hbind.symm.trans hvalue
      · cases hbind.symm.trans herror
        exact hquery.error hfirst
      · cases hbind.symm.trans hfault
        exact hquery.fault hfirst

/-- A query that goes on with the state it reads. -/
theorem read_bind {next : Interpreter → Query α}
    (hnext : law.Answers state (next state) post) :
    law.Answers state (read >>= next) post :=
  ⟨hnext.value, hnext.error, hnext.fault⟩

/-- An answer to more than is asked for. -/
theorem imp {weaker : α → Prop} (hquery : law.Answers state query post)
    (himp : ∀ value, post value → weaker value) :
    law.Answers state query weaker :=
  ⟨fun hvalue => himp _ (hquery.value hvalue), hquery.error, hquery.fault⟩

/-- A query for each item of a list answers for each. -/
theorem mapM {f : α → Query β} {items : List α}
    (hitems : ∀ item ∈ items, law.Answers state (f item) result) :
    law.Answers state (items.mapM f) fun results => ∀ value ∈ results, result value := by
  induction items with
  | nil => exact .pure (fun _ hvalue => absurd hvalue List.not_mem_nil)
  | cons item rest ih =>
      rw [List.mapM_cons]
      refine (hitems item List.mem_cons_self).bind fun first hfirst =>
        (ih fun other hother => hitems other (List.mem_cons_of_mem _ hother)).bind
          fun others hothers => .pure ?_
      exact List.forall_mem_cons.mpr ⟨hfirst, hothers⟩

/-- So does a test of all of them. -/
theorem allM {f : α → Query Bool} {items : List α}
    (hitems : ∀ item ∈ items, law.Answers state (f item) fun _ => True) :
    law.Answers state (items.allM f) fun _ => True := by
  induction items with
  | nil => exact .pure trivial
  | cons item rest ih =>
      refine (hitems item List.mem_cons_self).bind fun holds _ => ?_
      cases holds with
      | true => exact ih fun other hother => hitems other (List.mem_cons_of_mem _ hother)
      | false => exact .pure trivial

end Answers

/-- What follows a query starts in the same state. -/
theorem Coincide.lift_bind {α β : Type} {reach : Interpreter → Prop}
    {result : Interpreter → β → Prop} {query : Query α} {answer : α → Prop}
    {next nextTwin : α → Eval β} (hreach : reach state)
    (hquery : law.Answers state query answer) (hnext : ∀ value, answer value →
    law.Coincide reach result state (next value) (nextTwin value)) :
    law.Coincide reach result state (liftM query >>= next)
      (liftM query >>= nextTwin) := by
  have hrun := Query.toEval_apply query state
  cases hvalue : query state with
  | ok value =>
      rw [hvalue] at hrun
      exact .of_eq (Eval.bind_of_ok hrun) (Eval.bind_of_ok hrun) (hnext value (hquery.value hvalue))
  | error stop =>
      rw [hvalue] at hrun
      have hstop : ∀ {rest : α → Eval β}, (liftM query >>= rest) state = .error stop state :=
        Eval.bind_of_error hrun
      cases stop with
      | error err => exact .of_error hstop hstop hreach (hquery.error hvalue)
      | fault cause => exact .of_fault hstop hstop (hquery.fault hvalue)
      | outOfFuel => exact .of_outOfFuel hstop (Or.inl hstop)

/-! ## Sequences of steps -/

namespace Agree

variable {α β : Type} {post weaker : Interpreter → α → Prop} {result : Interpreter → β → Prop}
  {action twin : Eval α} {next nextTwin : α → Eval β}

/-- A value alone changes nothing. -/
theorem pure (hstate : law.Sound state) {value : α} (hpost : post state value) :
    law.Obeys scope post state (Pure.pure value) :=
  .of_ok rfl rfl (.refl hstate) hpost

/-- Nor does an error. -/
theorem raise (hstate : law.Sound state) {err : EvalError}
    (hcarries : law.Carries state err) :
    law.Obeys scope post state (LazyDispatch.raise err) :=
  .of_error rfl rfl (.refl hstate) hcarries

/-- Nor does the end of fuel. -/
theorem outOfFuel : law.Obeys scope post state (throw Stop.outOfFuel) :=
  .of_outOfFuel rfl (Or.inl rfl)

/-- Step after step: the second starts in what the first reached. -/
theorem bind (haction : law.Agree scope post state action twin)
    (hnext : ∀ value middle, law.Reaches scope state middle → post middle value →
      law.Agree scope result middle (next value) (nextTwin value)) :
    law.Agree scope result state (action >>= next) (twin >>= nextTwin) := by
  refine haction.bind_of (fun _ hreach => hreach) ?_
  intro value middle hmiddle hvalue
  exact (hnext value middle hmiddle hvalue).imp
    (fun _ hafter => hmiddle.trans hafter) fun _ _ _ hresult => hresult

/-- An outcome settled in the state it was met in. -/
theorem settle (hstate : law.Sound state) {outcome : Except EvalError α}
    (houtcome : law.Attempted post state outcome) :
    law.Obeys scope post state (Eval.settle outcome) :=
  Coincide.settle (.refl hstate) houtcome

/-- An action that goes on with the state it reads. -/
theorem get_bind {next nextTwin : Interpreter → Eval α}
    (hnext : law.Agree scope post state (next state) (nextTwin state)) :
    law.Agree scope post state (get >>= next) (get >>= nextTwin) :=
  .of_eq (Eval.bind_of_ok rfl) (Eval.bind_of_ok rfl) hnext

/-- An agreement on more than is asked for. -/
theorem weaken (haction : law.Agree scope post state action twin)
    (hpost : ∀ after value, law.Reaches scope state after → post after value → weaker after value) :
    law.Agree scope weaker state action twin :=
  haction.imp (fun _ hreach => hreach) hpost

/-- A settled action agrees within any region. -/
theorem within (haction : law.Agree .settled post state action twin) :
    law.Agree scope post state action twin :=
  haction.imp (fun _ hreach => hreach.within) fun _ _ _ hpost => hpost

/-- A query agrees with itself and leaves the state as it is. -/
theorem lift (hstate : law.Sound state) {query : Query α}
    (hquery : law.Answers state query (post state)) :
    law.Obeys scope post state (liftM query) := by
  have hrun := Query.toEval_apply query state
  cases hvalue : query state with
  | ok value =>
      rw [hvalue] at hrun
      exact .of_ok hrun hrun (.refl hstate) (hquery.value hvalue)
  | error stop =>
      rw [hvalue] at hrun
      cases stop with
      | error err => exact .of_error hrun hrun (.refl hstate) (hquery.error hvalue)
      | fault cause => exact .of_fault hrun hrun (hquery.fault hvalue)
      | outOfFuel => exact .of_outOfFuel hrun (Or.inl hrun)

/-- What follows a query starts in the same state. -/
theorem lift_bind (hstate : law.Sound state) {query : Query α} {answer : α → Prop}
    (hquery : law.Answers state query answer)
    (hnext : ∀ value, answer value → law.Agree scope result state (next value) (nextTwin value)) :
    law.Agree scope result state (liftM query >>= next) (liftM query >>= nextTwin) :=
  Coincide.lift_bind (.refl hstate) hquery hnext

/-- A change that leaves the store, the roots and the calls alone. -/
theorem quiet (hstate : law.Sound state) {change : Interpreter → α × Interpreter}
    (hsame : state.SameStore (change state).2) (hroots : (change state).2.roots = state.roots)
    (hcalls : (change state).2.contexts = state.contexts) :
    law.Obeys scope (fun _ _ => True) state (modifyGet change) :=
  .of_ok rfl rfl (reaches_of_same hstate hsame hroots hcalls) trivial

/-- The results are known each for its item. -/
theorem mapM_forall₂ {f g : α → Eval β} {items : List α} {pre : Interpreter → α → Prop}
    {each : α → Interpreter → β → Prop} (hpre : law.Lasting pre)
    (heach : ∀ item, law.Lasting (each item))
    (hitem : ∀ state item, law.Sound state → pre state item →
      law.Agree scope (each item) state (f item) (g item))
    (hstate : law.Sound state) (hitems : ∀ item ∈ items, pre state item) :
    law.Agree scope (fun after results => List.Forall₂ (each · after ·) items results) state
      (items.mapM f) (items.mapM g) := by
  induction items generalizing state with
  | nil => exact .pure hstate .nil
  | cons item rest ih =>
      rw [List.mapM_cons, List.mapM_cons]
      refine (hitem state item hstate (hitems item List.mem_cons_self)).bind
        fun first middle hreach hfirst => ?_
      refine (ih hreach.sound fun other hother => hpre _ _ _ _ hstate hreach
        (hitems other (List.mem_cons_of_mem _ hother))).bind fun others after hlater hothers => ?_
      exact .pure hlater.sound (.cons (heach item _ _ _ _ hreach.sound hlater hfirst) hothers)

/-- An action for each item: what is known of the items and of the results so
far has to last, since later items run in later states. -/
theorem mapM {f g : α → Eval β} {items : List α} {pre : Interpreter → α → Prop}
    (hpre : law.Lasting pre) (hresult : law.Lasting result)
    (hitem : ∀ state item, law.Sound state → pre state item →
      law.Agree scope result state (f item) (g item))
    (hstate : law.Sound state) (hitems : ∀ item ∈ items, pre state item) :
    law.Agree scope (fun after results => ∀ value ∈ results, result after value) state
      (items.mapM f) (items.mapM g) := by
  refine (mapM_forall₂ hpre (fun _ => hresult) hitem hstate hitems).weaken
    fun after results _ hresults value hvalue => ?_
  obtain ⟨index, hindex, rfl⟩ := List.mem_iff_getElem.mp hvalue
  have hlength := hresults.length_eq
  exact hresults.get (by omega) hindex

/-- A fold over items: its invariant is the condition on the running value. -/
theorem foldlM {f g : β → α → Eval β} {items : List α} {pre : Interpreter → α → Prop} {start : β}
    (hpre : law.Lasting pre)
    (hitem : ∀ state value item, law.Sound state → result state value → pre state item →
      law.Agree scope result state (f value item) (g value item))
    (hstate : law.Sound state) (hstart : result state start)
    (hitems : ∀ item ∈ items, pre state item) :
    law.Agree scope result state (items.foldlM f start) (items.foldlM g start) := by
  induction items generalizing state start with
  | nil => exact .pure hstate hstart
  | cons item rest ih =>
      rw [List.foldlM_cons, List.foldlM_cons]
      exact (hitem state start item hstate hstart (hitems item List.mem_cons_self)).bind
        fun value middle hreach hvalue => ih hreach.sound hvalue fun other hother =>
          hpre _ _ _ _ hstate hreach (hitems other (List.mem_cons_of_mem _ hother))

/-- A region of roots settles a protecting step. -/
theorem withRoots (haction : law.Agree .protecting post state action twin)
    (hpost : Rootless post) :
    law.Agree .settled post state (Eval.withRoots action) (Eval.withRoots twin) := by
  refine Coincide.withRoots haction (fun middle hreach hbalanced => ?_)
    (fun middle hreach => ?_) hpost
  · exact List.IsPrefix.length_le (hreach.keeps hbalanced).1.roots
  have hsame : middle.SameStore
      (middle.withEntries (middle.roots.entries.shrink state.roots.depth)) :=
    .of_eq rfl rfl rfl rfl rfl
  refine ⟨fun hbalanced => ?_, law.step_trans hreach.step (law.step_same hsame),
    hreach.sound.shrink _⟩
  obtain ⟨hkeeps, hcalls⟩ := hreach.keeps hbalanced
  exact ⟨⟨hcalls, Eval.shrink_of_extends hkeeps.roots, hkeeps.preserved⟩, hcalls⟩

end Agree

end RefLaw

end LazyDispatch
