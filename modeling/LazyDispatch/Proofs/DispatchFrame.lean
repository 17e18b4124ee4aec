import LazyDispatch.Proofs.MethodOrder
import LazyDispatch.Proofs.SoundStates

/-!
# The frame of a method

Dispatch allocates its variables, protects them, and hands them to the closure
that it selected, which binds them in its frame.  Here is what becomes of them
on the way: a protected vector of texts keeps its texts whatever is evaluated,
and the new frame binds each variable to what was handed over, unless a formal
of the closure has its name.
-/

namespace LazyDispatch

/-! ## Protected texts -/

/-- A reference is protected and holds texts. -/
structure Interpreter.Protects (state : Interpreter) (ref : Ref)
    (texts : List String) : Prop where
  edge : ref ∈ state.roots.edges
  texts : ∃ attributes, state.heap.get? ref = some ⟨.character texts, attributes⟩

/-- Protected texts stay. -/
theorem Interpreter.Precedes.protects {state later : Interpreter}
    (hprecedes : state.Precedes later) (hheap : state.heap.Coherent) {ref : Ref}
    {texts : List String} (hprotects : state.Protects ref texts) :
    later.Protects ref texts := by
  obtain ⟨attributes, hget⟩ := hprotects.texts
  have hmem := List.mem_append_right state.fixed.edges hprotects.edge
  exact ⟨hprecedes.edges_subset hprotects.edge, attributes,
    hprecedes.get? hheap hmem hget nofun nofun⟩

theorem Eval.asStrings?_of_protects {state : Interpreter} {ref : Ref}
    {texts : List String} (hprotects : state.Protects ref texts) :
    asStrings? ref state = .ok (some texts) := by
  obtain ⟨attributes, hget⟩ := hprotects.texts
  exact Query.bind_of_ok (payload_of_get? hget)

/-! ## Running out of memory -/

/-- A fault of an allocation. -/
def Fault.OfAllocation (cause : Fault) : Prop :=
  ∃ (heap : Heap) (object : HeapObject) (roots : List Ref) (after : Heap),
    heap.allocate object roots = .error cause after

/-- A step ends with a value unless an allocation fails. -/
def Eval.EndsUnlessFull {α : Type} (action : Eval α) (state : Interpreter) :
    Prop :=
  ∀ stop after, action state = .error stop after →
    ∃ cause : Fault, stop = .fault cause ∧ cause.OfAllocation

namespace Eval

variable {texts : List String} {ref : Ref}

variable {α β : Type} {action : Eval α} {next : α → Eval β} {state after : Interpreter}

theorem endsUnlessFull_of_ok {value : α} (hok : action state = .ok value after)
    :
    action.EndsUnlessFull state := by
  intro stop other herror
  cases hok.symm.trans herror

theorem EndsUnlessFull.bind (haction : action.EndsUnlessFull state)
    (hnext : ∀ value middle, action state = .ok value middle → (next value).EndsUnlessFull middle) :
    (action >>= next).EndsUnlessFull state := by
  intro stop other herror
  rcases bind_eq_error herror with hfirst | ⟨value, middle, hok, hrest⟩
  · exact haction stop other hfirst
  · exact hnext value middle hok stop other hrest

theorem endsUnlessFull_allocate (object : HeapObject) (state : Interpreter) :
    (Eval.allocate object).EndsUnlessFull state := by
  intro stop other herror
  cases hheap : state.heap.allocate object state.rootRefs with
  | ok ref heap => cases (allocate_of_ok hheap).symm.trans herror
  | error cause heap =>
      cases (allocate_of_error hheap).symm.trans herror
      exact ⟨cause, rfl, _, _, _, _, hheap⟩

/-! ## Allocating texts -/

theorem precedes_protectedStrings
    (hok : protectedStrings texts state = .ok ref after) :
    state.Precedes after :=
  Interpreter.precedes_of_allows (HeapLaw.protecting_protectedStrings texts) (.value hok)

theorem protectedStrings_eq_ok (hheap : state.heap.Coherent)
    (hok : protectedStrings texts state = .ok ref after) :
    after.Protects ref texts := by
  obtain ⟨made, middle, hmade, hrest⟩ := bind_eq_ok hok
  cases hallocate : state.heap.allocate ⟨.character texts, []⟩ state.rootRefs with
  | error cause heap => cases (allocate_of_error hallocate).symm.trans hmade
  | ok fresh heap =>
      cases (allocate_of_ok hallocate).symm.trans hmade
      cases hrest
      refine ⟨?_, [], Heap.get?_allocate_self hheap hallocate⟩
      simp [RootStack.edges]

/-- Vectors of texts that are allocated one after the other are all there in the
end. -/
theorem protects_of_protectedStrings {others more : List String} {other third : Ref}
    {first second : Interpreter} (hheap : state.heap.Coherent)
    (hfirst : protectedStrings texts state = .ok ref first)
    (hsecond : protectedStrings others first = .ok other second)
    (hthird : protectedStrings more second = .ok third after) :
    state.Precedes after ∧ after.Protects ref texts ∧ after.Protects other others ∧
      after.Protects third more := by
  have htoFirst := precedes_protectedStrings hfirst
  have htoSecond := precedes_protectedStrings hsecond
  have htoThird := precedes_protectedStrings hthird
  have hfirstHeap := htoFirst.coherent hheap
  have hsecondHeap := htoSecond.coherent hfirstHeap
  refine ⟨htoFirst.trans (htoSecond.trans htoThird), ?_, ?_,
    protectedStrings_eq_ok hsecondHeap hthird⟩
  · exact (htoSecond.trans htoThird).protects hfirstHeap (protectedStrings_eq_ok hheap hfirst)
  · exact htoThird.protects hsecondHeap (protectedStrings_eq_ok hfirstHeap hsecond)

/-- Protecting a reference leaves the heap coherent. -/
theorem coherent_of_protect {token : RootToken} (hheap : state.heap.Coherent)
    (hok : protect ref state = .ok token after) : after.heap.Coherent :=
  (Interpreter.precedes_of_allows (HeapLaw.protecting_protect _) (.value hok)).coherent hheap

theorem endsUnlessFull_protectedStrings (texts : List String)
    (state : Interpreter) :
    (protectedStrings texts).EndsUnlessFull state :=
  (endsUnlessFull_allocate _ state).bind fun _ _ _ =>
    EndsUnlessFull.bind (endsUnlessFull_of_ok rfl) fun _ _ _ => endsUnlessFull_of_ok rfl

/-- An attribute of a protected vector of texts is set. -/
theorem protects_amend {other : Ref} {name : Symbol} {value : Ref}
    (hprotects : state.Protects ref texts) :
    (state.amend other (·.setAttribute name value)).Protects ref texts := by
  obtain ⟨attributes, hget⟩ := hprotects.texts
  have hafter := Heap.get?_update hget other (·.setAttribute name value)
  refine ⟨hprotects.edge, ?_⟩
  by_cases hother : other = ref
  · rw [if_pos hother] at hafter
    exact ⟨_, hafter⟩
  · rw [if_neg hother] at hafter
    exact ⟨_, hafter⟩

section Classes

variable {classes : List String} {index : Nat} {keepWhole : Bool}

theorem dispatchClasses_eq_ok (hheap : state.heap.Coherent)
    (hok : dispatchClasses classes index keepWhole state = .ok ref after) :
    after.Protects ref (classes.drop index) := by
  obtain ⟨suffix, middle, hsuffix, hrest⟩ := bind_eq_ok hok
  have hprotects := protectedStrings_eq_ok hheap hsuffix
  have hmiddle := (precedes_protectedStrings hsuffix).coherent hheap
  split at hrest
  · obtain ⟨whole, wide, hwhole, hlast⟩ := bind_eq_ok hrest
    have hwide := (precedes_protectedStrings hwhole).protects hmiddle hprotects
    obtain ⟨attributes, hget⟩ := hwide.texts
    have hupdate := update_of_get? hget (·.setAttribute wide.reserved.previous whole)
    have hreturn := ((bind_of_ok rfl).trans (bind_of_ok hupdate)).symm.trans hlast
    cases hreturn
    exact protects_amend hwide
  · cases hrest
    exact hprotects

theorem endsUnlessFull_dispatchClasses (hheap : state.heap.Coherent) :
    (dispatchClasses classes index keepWhole).EndsUnlessFull state := by
  refine (endsUnlessFull_protectedStrings _ state).bind fun suffix middle hsuffix => ?_
  have hprotects := protectedStrings_eq_ok hheap hsuffix
  have hmiddle := (precedes_protectedStrings hsuffix).coherent hheap
  split
  · refine (endsUnlessFull_protectedStrings _ middle).bind fun whole wide hwhole => ?_
    have hwide := (precedes_protectedStrings hwhole).protects hmiddle hprotects
    obtain ⟨attributes, hget⟩ := hwide.texts
    have hupdate := update_of_get? hget (·.setAttribute wide.reserved.previous whole)
    exact endsUnlessFull_of_ok ((bind_of_ok rfl).trans (bind_of_ok hupdate))
  · exact endsUnlessFull_of_ok rfl

end Classes

end Eval

/-! ## New frames -/

namespace Frame

variable {frame : Frame} {supplied : List (Symbol × Ref)} {symbol : Symbol}

theorem find?_bindAbsent_of_some {binding : Binding}
    (hfind : frame.find? symbol = some binding) :
    (frame.bindAbsent supplied).find? symbol = some binding := by
  induction supplied generalizing frame with
  | nil => exact hfind
  | cons item supplied ih =>
      obtain ⟨other, value⟩ := item
      show Frame.find? (bindAbsent (if frame.contains other then frame
        else frame.bind other value) supplied) symbol = _
      apply ih
      split
      · exact hfind
      · next hcontains =>
          have hne : symbol ≠ other := by
            intro heq
            rw [← heq, contains, hfind] at hcontains
            exact hcontains rfl
          rw [bind, find?_insert_of_ne _ _ hne, hfind]

/-- What is supplied for other symbols does not matter. -/
theorem find?_bindAbsent_of_ne (hne : ∀ item ∈ supplied, item.1 ≠ symbol) :
    (frame.bindAbsent supplied).find? symbol = frame.find? symbol := by
  induction supplied generalizing frame with
  | nil => rfl
  | cons item supplied ih =>
      obtain ⟨other, value⟩ := item
      show Frame.find? (bindAbsent (if frame.contains other then frame
        else frame.bind other value) supplied) symbol = _
      rw [ih fun item hitem => hne item (List.mem_cons_of_mem _ hitem)]
      split
      · rfl
      · exact find?_insert_of_ne _ _ (hne _ List.mem_cons_self).symm

/-- What is supplied for a symbol without a binding is bound. -/
theorem find?_bindAbsent_of_mem {value : Ref}
    (hnodup : (supplied.map (·.1)).Nodup) (hmem : (symbol, value) ∈ supplied)
    (hnone : frame.find? symbol = none) :
    (frame.bindAbsent supplied).find? symbol = some (.bound value) := by
  induction supplied generalizing frame with
  | nil => cases hmem
  | cons item supplied ih =>
      obtain ⟨other, given⟩ := item
      obtain ⟨hother, hrest⟩ := List.nodup_cons.mp hnodup
      show Frame.find? (bindAbsent (if frame.contains other then frame
        else frame.bind other given) supplied) symbol = _
      rcases List.mem_cons.mp hmem with heq | hlater
      · cases heq
        have hcontains : ¬frame.contains symbol = true := by
          rw [contains, hnone]
          exact Bool.false_ne_true
        rw [if_neg hcontains]
        exact find?_bindAbsent_of_some (find?_insert_self _ _ _)
      · have hne : symbol ≠ other := by
          intro heq
          subst heq
          exact hother (List.mem_map.mpr ⟨_, hlater, rfl⟩)
        apply ih hrest hlater
        split
        · exact hnone
        · rw [bind, find?_insert_of_ne _ _ hne, hnone]

end Frame

namespace Eval

variable {closure : Closure}

variable {state after : Interpreter} {env : Ref}

/-- The frame of an environment after a change of it. -/
theorem get?_amend_frame {parent : Option Ref} {frame : Frame}
    {attributes : List (Symbol × Ref)} (hget : state.heap.get? env =
    some ⟨.environment ⟨parent, frame⟩, attributes⟩) (other : Frame) :
    (state.amend env (.become (.environment ⟨parent, other⟩))).heap.get? env =
      some ⟨.environment ⟨parent, other⟩, attributes⟩ := by
  show (state.heap.update env _).get? env = _
  rw [Heap.get?_update hget, if_pos rfl]
  rfl

/-- Binding a formal allocates at most one object. -/
theorem formalBinding_eq_ok {formal : Formal} {matched : Matched} {binding : Binding}
    (hok : formalBinding env formal matched state = .ok binding after) :
    after = state ∨ ∃ object ref heap, state.heap.allocate object state.rootRefs = .ok ref heap ∧
      after = { state with heap } := by
  have hallocate : ∀ {object : HeapObject} {ref : Ref} {middle : Interpreter},
      allocate object state = .ok ref middle → ∃ object ref heap,
        state.heap.allocate object state.rootRefs = .ok ref heap ∧
        middle = { state with heap } := by
    intro object ref middle hmade
    cases hheap : state.heap.allocate object state.rootRefs with
    | error cause heap => cases (allocate_of_error hheap).symm.trans hmade
    | ok fresh heap =>
        cases (allocate_of_ok hheap).symm.trans hmade
        exact ⟨object, _, heap, hheap, rfl⟩
  cases matched with
  | supplied value =>
      obtain ⟨object, middle, hread, hrest⟩ := bind_eq_ok hok
      obtain ⟨-, rfl⟩ := Query.toEval_eq_ok hread
      left
      split at hrest <;> cases hrest <;> rfl
  | missing =>
      cases hdefault : formal.default with
      | none =>
          simp only [formalBinding, hdefault] at hok
          cases hok
          exact Or.inl rfl
      | some default =>
          simp only [formalBinding, hdefault] at hok
          obtain ⟨ref, middle, hmade, hrest⟩ := bind_eq_ok hok
          cases hrest
          exact Or.inr (hallocate hmade)
  | dots args =>
      cases args with
      | nil =>
          cases hok
          exact Or.inl rfl
      | cons arg args =>
          obtain ⟨ref, middle, hmade, hrest⟩ := bind_eq_ok hok
          cases hrest
          exact Or.inr (hallocate hmade)

/-- Binding formals in a frame among the roots does not touch other symbols. -/
theorem bindFormals_eq_ok {formals : List (Formal × Matched)} {parent : Option Ref} {frame : Frame}
    {attributes : List (Symbol × Ref)} (hheap : state.heap.Coherent)
    (hroot : env ∈ state.rootRefs)
    (hget : state.heap.get? env = some ⟨.environment ⟨parent, frame⟩, attributes⟩)
    (hok : bindFormals env formals state = .ok () after) :
    ∃ bound, after.heap.get? env = some ⟨.environment ⟨parent, bound⟩, attributes⟩ ∧
      ∀ symbol, (∀ item ∈ formals, item.1.name ≠ symbol) →
        bound.find? symbol = frame.find? symbol := by
  induction formals generalizing state frame with
  | nil =>
      cases hok
      exact ⟨frame, hget, fun _ _ => rfl⟩
  | cons item formals ih =>
      obtain ⟨_, next, hfirst, hrest⟩ := bind_eq_ok hok
      obtain ⟨binding, middle, hbinding, hupdate⟩ := bind_eq_ok hfirst
      have hmiddle : middle.heap.Coherent ∧ env ∈ middle.rootRefs ∧
          middle.heap.get? env = some ⟨.environment ⟨parent, frame⟩, attributes⟩ := by
        rcases formalBinding_eq_ok hbinding with rfl | ⟨object, ref, heap, hallocate, rfl⟩
        · exact ⟨hheap, hroot, hget⟩
        · exact ⟨HeapCall.perform_coherent hheap (Heap.perform_allocate hallocate), hroot,
            Heap.get?_allocate_of_mem hheap hallocate hroot hget⟩
      obtain ⟨hcoherent, hthere, hframe⟩ := hmiddle
      cases (updateFrame_of_get? hframe _).symm.trans hupdate
      have hinserted := get?_amend_frame hframe (frame.insert item.1.name binding)
      have hstill : env ∈ (middle.amend env (.become (.environment
          ⟨parent, frame.insert item.1.name binding⟩))).rootRefs := hthere
      obtain ⟨bound, hbound, hothers⟩ := ih (hcoherent.update env _) hstill hinserted hrest
      refine ⟨bound, hbound, fun symbol hsymbol => ?_⟩
      rw [hothers symbol fun other hother => hsymbol other (List.mem_cons_of_mem _ hother)]
      exact Frame.find?_insert_of_ne _ _ (hsymbol item List.mem_cons_self).symm

/-- The frame of a closure that is entered binds what is supplied for symbols
that are not formals. -/
theorem enterClosure_eq_ok {matched : List Matched}
    {supplied : List (Symbol × Ref)} {context : CallContext} {rest : List CallContext}
    (hheap : state.heap.Coherent) (hcontexts : state.contexts = context :: rest)
    (hok : enterClosure closure matched supplied state = .ok env after) :
    ∃ (bound : Frame) (attributes : List (Symbol × Ref)), after.heap.get? env =
        some ⟨.environment ⟨some closure.env, bound.bindAbsent supplied⟩, attributes⟩ ∧
      ∀ symbol, (∀ formal ∈ closure.formals, formal.name ≠ symbol) → bound.find? symbol = none := by
  obtain ⟨fresh, made, hmade, hrest⟩ := bind_eq_ok hok
  cases hallocate : state.heap.allocate ⟨.environment (.inside (some closure.env)), []⟩
      state.rootRefs with
  | error cause heap => cases (allocate_of_error hallocate).symm.trans hmade
  | ok ref heap =>
      cases (allocate_of_ok hallocate).symm.trans hmade
      obtain ⟨_, noted, hnoted, hrest⟩ := bind_eq_ok hrest
      cases hnoted
      obtain ⟨_, bindings, hbindings, hrest⟩ := bind_eq_ok hrest
      have hcoherent := HeapCall.perform_coherent hheap (Heap.perform_allocate hallocate)
      have hself := Heap.get?_allocate_self hheap hallocate
      -- The new environment is a root as soon as the call has noted it.
      have hroot : fresh ∈ ({ state with
          heap := heap
          contexts := { context with env := some fresh } :: rest } : Interpreter).rootRefs := by
        simp [Interpreter.rootRefs, CallContext.edges]
      rw [hcontexts] at hbindings
      obtain ⟨bound, hbound, hothers⟩ := bindFormals_eq_ok hcoherent hroot hself hbindings
      obtain ⟨_, supplying, hsupplying, hreturn⟩ := bind_eq_ok hrest
      cases (updateFrame_of_get? hbound _).symm.trans hsupplying
      cases hreturn
      refine ⟨bound, [], get?_amend_frame hbound _, fun symbol hsymbol => ?_⟩
      refine (hothers symbol fun item hitem => ?_).trans rfl
      exact hsymbol item.1 (List.of_mem_zip hitem).1

/-! ## Running a closure -/

/-- Catches an early return from a frame. -/
def returningTo (env : Ref) (action : Eval Ref) : Eval Ref := do
  match ← attempt action with
  | .error (.earlyReturn value target) =>
    if target = env then return value else raise (.earlyReturn value target)
  | result => settle result

/-- Ends the innermost call after a step, also when it raises an error. -/
def ending {α : Type} (action : Eval α) : Eval α := do
  let result ← attempt action
  endContext
  settle result

theorem attempt_congr {α : Type} {action other : Eval α}
    {state middle : Interpreter} (hsame : action state = other middle) :
    attempt action state = attempt other middle := by
  unfold attempt
  rw [hsame]

/-- A closure is run by entering it and evaluating its body in the new frame. -/
theorem runClosure_eq (run : Runner) (closure : Closure)
    (matched : List Matched) (supplied : List (Symbol × Ref)) :
    runClosure run closure matched supplied =
      enterClosure closure matched supplied >>= fun env =>
        returningTo env (run (.eval closure.body env)) :=
  rfl

/-- Once a closure is entered, its call is the evaluation of its body. -/
theorem applyClosure_of_entered {state begun entry : Interpreter} {call : Expr}
    {fn caller env : Ref} {args : List Arg} {supplied : List (Symbol × Ref)}
    {matched : List Matched}
    (hclosure : closureAt? fn state = .ok (some closure))
    (hmatched : matchCall call closure.formals args state = .ok matched)
    (hbegun : beginContext
      ⟨.function, call, fn, caller, none, args, state.roots.depth⟩ state =
      .ok () begun)
    (hentry : enterClosure closure matched supplied begun = .ok env entry)
    (run : Runner) :
    applyClosure run call fn args caller supplied state =
      ending (returningTo env (run (.eval closure.body env))) entry := by
  have hrun : runClosure run closure matched supplied begun =
      returningTo env (run (.eval closure.body env)) entry := by
    rw [runClosure_eq]
    exact bind_of_ok hentry
  refine (bind_of_ok (lift_of_ok hclosure)).trans ((bind_of_ok (lift_of_ok hmatched)).trans ?_)
  refine (bind_of_ok rfl).trans ((bind_of_ok hbegun).trans ?_)
  exact bind_of_eq (attempt_congr hrun)

theorem payload_of_closureAt? {state : Interpreter} {fn : Ref}
    (hclosure : closureAt? fn state = .ok (some closure)) :
    payload fn state = .ok (.closure closure) := by
  obtain ⟨object, hpayload, hfound⟩ := Query.bind_eq_ok hclosure
  cases object with
  | closure other =>
      cases hfound
      exact hpayload
  | _ => cases hfound

end Eval

/-! ## Entering a method -/

open Eval in
/-- A selected closure is entered: its call gets a name and begins, its
arguments are matched, and its frame is made.  The formals of the closure leave
the dispatch variables alone. -/
structure EnteredMethod (selection : Selection) (state : Interpreter) where
  call : Expr
  args : List Arg
  caller : Ref
  head : Symbol
  named : Interpreter
  hnamed : intern selection.name state = .ok head named
  renamed : Expr
  called : Interpreter
  hcalled : renamedCall head call named = .ok renamed called
  closure : Closure
  hclosure : closureAt? selection.method called = .ok (some closure)
  hformals : ∀ formal ∈ closure.formals, formal.name ∉ called.reserved.dispatchSymbols
  matched : List Matched
  hmatched : matchCall renamed closure.formals args called = .ok matched
  begun : Interpreter
  hbegun : beginContext ⟨.function, renamed, selection.method, caller, none, args,
    called.roots.depth⟩ called = .ok () begun
  /-- The frame, and the state in which the body of the closure starts. -/
  env : Ref
  entry : Interpreter
  hentry : enterClosure closure matched (selection.vars.bindings called.reserved) begun =
    .ok env entry

namespace Eval

variable {state after : Interpreter}

theorem beginContext_eq_ok {context : CallContext}
    (hok : beginContext context state = .ok () after) :
    after = { state with contexts := context :: state.contexts } := by
  by_cases hdeep : state.maxDepth ≤ state.contexts.length
  · cases (beginContext_of_deep hdeep context).symm.trans hok
  · cases (beginContext_of_room hdeep context).symm.trans hok
    rfl

theorem frameValue?_of_get? {env value : Ref} {found : Environment}
    {attributes : List (Symbol × Ref)} {symbol : Symbol}
    (hget : state.heap.get? env = some ⟨.environment found, attributes⟩)
    (hfind : found.frame.find? symbol = some (.bound value)) :
    frameValue? env symbol state = .ok (some value) := by
  refine (Query.bind_of_ok (environmentAt_of_get? hget)).trans ?_
  simp only [hfind]
  rfl

end Eval

namespace EnteredMethod

open Eval Interpreter

variable {selection : Selection} {state : Interpreter} (method : EnteredMethod selection state)

/-- A method is applied by entering it and evaluating its body in its frame. -/
theorem applyMethod_eq (hooks : Hooks) (budget : Nat) :
    applyMethod (perform hooks (budget + 1)) selection method.call method.args method.caller state =
      ending (returningTo method.env
        (perform hooks budget (.eval method.closure.body method.env))) method.entry := by
  have happly := applyClosure_of_entered method.hclosure method.hmatched method.hbegun method.hentry
    (perform hooks budget)
  have hpayload := payload_of_closureAt? method.hclosure
  refine (bind_of_ok method.hnamed).trans ((bind_of_ok method.hcalled).trans ?_)
  exact (bind_of_ok rfl).trans ((bind_of_ok (lift_of_ok hpayload)).trans happly)

theorem precedes_called : state.Precedes method.called := by
  have hnamed := precedes_of_allows (HeapLaw.settled_intern _) (.value method.hnamed)
  have hcalled := precedes_of_allows (HeapLaw.settled_renamedCall _ _) (.value method.hcalled)
  exact hnamed.trans hcalled

theorem precedes_begun : state.Precedes method.begun := by
  apply method.precedes_called.trans
  rw [beginContext_eq_ok method.hbegun]
  exact precedes_of_sameHeap (.of_eq rfl rfl rfl rfl) rfl

/-- What was protected when the method was selected is there when it starts. -/
theorem precedes_entry : state.Precedes method.entry :=
  method.precedes_begun.trans
    (precedes_of_allows (HeapLaw.entering_enterClosure _ _ _) (.value method.hentry))

end EnteredMethod

/-! ## The dispatch variables -/

open Eval in
/-- A frame binds the dispatch variables. -/
structure Interpreter.Binds (state : Interpreter) (env : Ref)
    (vars : DispatchVars) : Prop where
  classes : frameValue? env state.reserved.dotClass state = .ok (some vars.classes)
  generic : frameValue? env state.reserved.dotGeneric state = .ok (some vars.generic)
  method : frameValue? env state.reserved.dotMethod state = .ok (some vars.method)
  group : frameValue? env state.reserved.dotGroup state = .ok (some vars.group)
  callEnv : frameValue? env state.reserved.dotGenericCallEnv state = .ok (some vars.callEnv)
  defEnv : frameValue? env state.reserved.dotGenericDefEnv state = .ok (some vars.defEnv)

theorem Interpreter.Binds.of_bindings {state : Interpreter} {env : Ref} {vars : DispatchVars}
    (hvalues : ∀ symbol value, (symbol, value) ∈ vars.bindings state.reserved →
      Eval.frameValue? env symbol state = .ok (some value)) : state.Binds env vars := by
  constructor
  all_goals
    apply hvalues
    simp [DispatchVars.bindings]

open Eval in
/-- The frame of a method binds the dispatch variables when the method starts. -/
theorem EnteredMethod.binds_entry {selection : Selection} {state : Interpreter}
    (method : EnteredMethod selection state) (hsound : state.Sound) :
    method.entry.Binds method.env selection.vars := by
  apply Interpreter.Binds.of_bindings
  intro symbol value hmem
  have hcalled := method.precedes_called.persists.reserved
  rw [method.precedes_entry.persists.reserved] at hmem
  have hcontexts := congrArg Interpreter.contexts (beginContext_eq_ok method.hbegun)
  obtain ⟨bound, attributes, hget, hothers⟩ :=
    enterClosure_eq_ok (method.precedes_begun.coherent hsound.heap) hcontexts method.hentry
  have hsymbol : symbol ∈ state.reserved.dispatchSymbols := List.mem_map_of_mem (f := (·.1)) hmem
  have hnone : bound.find? symbol = none := by
    apply hothers
    intro formal hformal hname
    have hclear := method.hformals formal hformal
    rw [hcalled, hname] at hclear
    exact hclear hsymbol
  apply frameValue?_of_get? hget
  rw [hcalled]
  exact Frame.find?_bindAbsent_of_mem hsound.symbols hmem hnone

/-- A reference holds the classes from a method on.  For a default method there
are none, and it may be the null object. -/
def Interpreter.HoldsClasses (state : Interpreter) (ref : Ref)
    (classes : List String) : Prop :=
  state.Protects ref classes ∨ ref = state.fixed.null ∧ classes = []

theorem Interpreter.HoldsClasses.mono {state later : Interpreter} {ref : Ref}
    {classes : List String} (hholds : state.HoldsClasses ref classes)
    (hprecedes : state.Precedes later) (hheap : state.heap.Coherent) :
    later.HoldsClasses ref classes := by
  rcases hholds with hprotects | ⟨hnull, hnone⟩
  · exact Or.inl (hprecedes.protects hheap hprotects)
  · rw [← hprecedes.persists.fixed] at hnull
    exact Or.inr ⟨hnull, hnone⟩

/-- One name stands for all operands that a method is for; for the others there
is an empty text. -/
structure SoleName (name : String) (names : List String) : Prop where
  ne : name ≠ ""
  mem : name ∈ names
  eq : ∀ other ∈ names, other = "" ∨ other = name

namespace SoleName

open Eval

variable {name : String} {names : List String}

theorem runningName_eq (hsole : SoleName name names) (head : String) :
    runningName head names = name := by
  unfold runningName
  cases hfind : names.find? (· ≠ "") with
  | none =>
      have hempty := List.find?_eq_none.mp hfind name hsole.mem
      simp [hsole.ne] at hempty
  | some other =>
      have hother := List.find?_some hfind
      exact (hsole.eq other (List.mem_of_find?_eq_some hfind)).resolve_left
        (of_decide_eq_true hother)

theorem namesDiffer_eq (hsole : SoleName name names) :
    namesDiffer names = false := by
  have hsame : ∀ other ∈ names.filter (· ≠ ""), other = name := by
    intro other hother
    obtain ⟨hmem, hne⟩ := List.mem_filter.mp hother
    exact (hsole.eq other hmem).resolve_left (of_decide_eq_true hne)
  unfold namesDiffer
  cases hfilter : names.filter (· ≠ "") with
  | nil => rfl
  | cons first rest =>
      rw [hfilter] at hsame
      obtain ⟨hfirst, hrest⟩ := List.forall_mem_cons.mp hsame
      rw [hfirst]
      simpa using hrest

/-- The method that follows has its name for the same operands. -/
theorem next (hsole : SoleName name names) {following : String}
    (hne : following ≠ "") :
    SoleName following (nextNames following (some names)) := by
  refine ⟨hne, List.mem_map.mpr ⟨name, hsole.mem, if_neg hsole.ne⟩, fun other hother => ?_⟩
  obtain ⟨former, -, rfl⟩ := List.mem_map.mp hother
  split
  · exact Or.inl rfl
  · exact Or.inr rfl

end SoleName

/-- What the dispatch variables of a method say: the generic, the classes from
the one of the method on, the name of the method for each operand that it is
for, and the group. -/
structure DispatchTexts where
  generic : String
  classes : List String
  names : List String
  group : String

/-- The texts for a method that was selected on one object, without a group. -/
def MethodPlace.texts (place : MethodPlace) (generic : String) :
    DispatchTexts :=
  ⟨generic, place.classes, [place.name], ""⟩

/-- The texts for the method that follows under a name, with the classes from
its own on. -/
def DispatchTexts.next (texts : DispatchTexts) (name : String)
    (classes : List String) :
    DispatchTexts :=
  { texts with classes, names := Eval.nextNames name (some texts.names) }

namespace MethodPlace

variable {place : MethodPlace} (hname : place.name ≠ "") (generic : String)

include hname

/-- A method that was selected on one object has its name for that object. -/
theorem soleName_texts : SoleName place.name (place.texts generic).names :=
  ⟨hname, List.mem_singleton_self _, fun _ hother => Or.inr (List.mem_singleton.mp hother)⟩

/-- The texts of the place that follows are those that are passed on to it. -/
theorem next_texts (following : MethodPlace) :
    (place.texts generic).next following.name following.classes = following.texts generic := by
  simp [texts, DispatchTexts.next, Eval.nextNames, hname]

end MethodPlace

/-- The dispatch variables hold texts. -/
structure DispatchVars.Describe (vars : DispatchVars) (state : Interpreter)
    (texts : DispatchTexts) :
    Prop where
  classes : state.HoldsClasses vars.classes texts.classes
  generic : state.Protects vars.generic [texts.generic]
  method : state.Protects vars.method texts.names
  group : state.Protects vars.group [texts.group]

/-- They go on holding them. -/
theorem DispatchVars.Describe.mono {vars : DispatchVars}
    {state later : Interpreter} {texts : DispatchTexts}
    (hvars : vars.Describe state texts) (hprecedes : state.Precedes later)
    (hheap : state.heap.Coherent) : vars.Describe later texts :=
  ⟨hvars.classes.mono hprecedes hheap, hprecedes.protects hheap hvars.generic,
    hprecedes.protects hheap hvars.method, hprecedes.protects hheap hvars.group⟩

/-- The name and the function of a selected method. -/
def Selection.target (selection : Selection) : String × Ref :=
  (selection.name, selection.method)

namespace Eval

open Interpreter

variable {found : MethodMatch} {classes : List String}

variable {state after : Interpreter} {generic : String} {place : MethodPlace}
  {selection : Selection}

theorem foundClasses_eq_ok
    {ref : Ref} (hheap : state.heap.Coherent)
    (hat : MethodMatch.At found classes place)
    (hok : foundClasses found classes state = .ok ref after) :
    after.HoldsClasses ref place.classes := by
  have hclasses := hat.classes
  unfold foundClasses at hok
  split at hok
  · next hdefault =>
      rw [if_pos hdefault] at hclasses
      cases hok
      exact Or.inr ⟨rfl, hclasses⟩
  · next hdefault =>
      rw [if_neg hdefault] at hclasses
      rw [← hclasses.1]
      exact Or.inl (dispatchClasses_eq_ok hheap hok)

/-- What a search found is selected as what it is. -/
theorem selectFound_eq_ok {callEnv defEnv : Ref}
    (hheap : state.heap.Coherent) (hat : MethodMatch.At found classes place)
    (hok : selectFound generic found classes callEnv defEnv state = .ok selection after) :
    selection.target = place.target ∧ selection.vars.Describe after (place.texts generic) ∧
      selection.vars.callEnv = callEnv ∧ selection.vars.defEnv = defEnv := by
  obtain ⟨_, kept, hkept, hok⟩ := bind_eq_ok hok
  obtain ⟨classesRef, first, hclasses, hok⟩ := bind_eq_ok hok
  obtain ⟨genericRef, second, hgeneric, hok⟩ := bind_eq_ok hok
  obtain ⟨nameRef, third, hname, hok⟩ := bind_eq_ok hok
  obtain ⟨groupRef, fourth, hgroup, hok⟩ := bind_eq_ok hok
  cases hok
  have hkeptHeap := coherent_of_protect hheap hkept
  have hfirstHeap := (precedes_of_allows (HeapLaw.protecting_foundClasses _ _)
    (.value hclasses)).coherent hkeptHeap
  obtain ⟨hprecedes, hgenericText, hnameText, hgroupText⟩ :=
    protects_of_protectedStrings hfirstHeap hgeneric hname hgroup
  refine ⟨Prod.ext hat.name hat.method, ⟨?_, hgenericText, ?_, hgroupText⟩, rfl, rfl⟩
  · exact (foundClasses_eq_ok hkeptHeap hat hclasses).mono hprecedes hfirstHeap
  · rw [MethodPlace.texts, ← hat.name]
    exact hnameText

theorem endsUnlessFull_selectFound
    {callEnv defEnv : Ref} (hheap : state.heap.Coherent) :
    (selectFound generic found classes callEnv defEnv).EndsUnlessFull state := by
  refine EndsUnlessFull.bind (endsUnlessFull_of_ok rfl) fun _ kept hkept => ?_
  have hkeptHeap := coherent_of_protect hheap hkept
  have hclasses : (foundClasses found classes).EndsUnlessFull kept := by
    unfold foundClasses
    split
    · exact endsUnlessFull_of_ok rfl
    · exact endsUnlessFull_dispatchClasses hkeptHeap
  exact hclasses.bind fun _ _ _ => (endsUnlessFull_protectedStrings _ _).bind fun _ _ _ =>
    (endsUnlessFull_protectedStrings _ _).bind fun _ _ _ =>
      (endsUnlessFull_protectedStrings _ _).bind fun _ _ _ => endsUnlessFull_of_ok rfl

/-- What follows a method is selected as what it is. -/
theorem selectFollowing_eq_ok {method : MethodInProgress} {point : ResumePoint} {next : Ref}
    {name : String} {search : MethodSearch} {group : Ref} {texts : DispatchTexts}
    (hheap : state.heap.Coherent) (hnames : point.names = some texts.names)
    (hgroup : point.groupValue = some group) (hprotects : state.Protects group [texts.group])
    (hok : selectFollowing texts.generic method point next name search state =
      .ok selection after) :
    selection.target = (name, next) ∧
      selection.vars.Describe after (texts.next name (search.classes.drop search.index)) ∧
      selection.vars.callEnv = method.callEnv ∧ selection.vars.defEnv = method.defEnv ∧
      ∃ kept : Interpreter, kept.heap = state.heap ∧ next ∈ kept.roots.edges ∧
        kept.Precedes after := by
  obtain ⟨_, kept, hkept, hok⟩ := bind_eq_ok hok
  obtain ⟨classesRef, first, hclasses, hok⟩ := bind_eq_ok hok
  obtain ⟨nameRef, second, hname, hok⟩ := bind_eq_ok hok
  obtain ⟨genericRef, third, hgeneric, hok⟩ := bind_eq_ok hok
  rw [hgroup] at hok
  cases hok
  have hprotected := precedes_of_allows (HeapLaw.protecting_protect _) (.value hkept)
  have hkeptHeap := hprotected.coherent hheap
  have hfirst := precedes_of_allows (HeapLaw.protecting_dispatchClasses _ _ _) (.value hclasses)
  have hfirstHeap := hfirst.coherent hkeptHeap
  have hsecond := precedes_protectedStrings hname
  have hsecondHeap := hsecond.coherent hfirstHeap
  have hthird := precedes_protectedStrings hgeneric
  rw [hnames] at hname
  refine ⟨rfl, ⟨Or.inl ?_, ?_, ?_, ?_⟩, rfl, rfl, kept, ?_, ?_, ?_⟩
  · exact (hsecond.trans hthird).protects hfirstHeap (dispatchClasses_eq_ok hkeptHeap hclasses)
  · exact protectedStrings_eq_ok hsecondHeap hgeneric
  · exact hthird.protects hsecondHeap (protectedStrings_eq_ok hfirstHeap hname)
  · exact (hprotected.trans (hfirst.trans (hsecond.trans hthird))).protects hheap hprotects
  · cases hkept
    rfl
  · cases hkept
    simp [RootStack.edges]
  · exact hfirst.trans (hsecond.trans hthird)

theorem endsUnlessFull_selectFollowing {method : MethodInProgress}
    {point : ResumePoint} {next : Ref} {name : String} {search : MethodSearch}
    {group : Ref} (hheap : state.heap.Coherent)
    (hgroup : point.groupValue = some group) :
    (selectFollowing generic method point next name search).EndsUnlessFull state := by
  unfold selectFollowing
  rw [hgroup]
  refine EndsUnlessFull.bind (endsUnlessFull_of_ok rfl) fun _ kept hkept => ?_
  have hkeptHeap := coherent_of_protect hheap hkept
  exact (endsUnlessFull_dispatchClasses hkeptHeap).bind fun _ _ _ =>
    (endsUnlessFull_protectedStrings _ _).bind fun _ _ _ =>
      (endsUnlessFull_protectedStrings _ _).bind fun _ _ _ =>
        EndsUnlessFull.bind (endsUnlessFull_of_ok rfl) fun _ _ _ => endsUnlessFull_of_ok rfl

end Eval

end LazyDispatch
