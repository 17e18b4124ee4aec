import LazyDispatch.Proofs.RefClosures

/-!
# Dispatch under a reference law

A method that is found is kept: it is reached from the environments that it was
looked up in.  The dispatch variables of a selected method are kept until the
method is applied.
-/

namespace LazyDispatch

namespace Eval

variable (point : MethodInProgress → Eval ResumePoint) (run : Runner)

/-- Selects the method after the one in progress, given a way to read where
dispatch stands. -/
def selectNextFrom (generic : String) (symbol : Symbol) (method : MethodInProgress) :
    Eval Selection := do
  let point ← point method
  let (next, name, search) ← findNext run generic symbol method point
  selectFollowing generic method point next name search

/-- Goes on from a method in progress. -/
def resumeDispatchFrom (call : Expr) (env : Ref) : Eval Ref := do
  let next ← callingGeneric run call env
  let symbol ← intern next.generic
  let args ← passedArgs run symbol next
  let selection ← selectNextFrom point run next.generic symbol next.method
  applyMethod run selection next.method.call args next.method.callEnv

/-- A call of `NextMethod`. -/
def callNextMethodFrom (call : Expr) (env : Ref) : Eval Ref :=
  withRoots (resumeDispatchFrom point run call env)

/-- Read from the frame, the resume point gives `NextMethod` as it is. -/
theorem callNextMethodFrom_resumePoint :
    callNextMethodFrom (resumePoint run) run = callNextMethod run := rfl

/-- Protects the classes from a place on, and allocates the whole vector for
their attribute. -/
def holdWhole (classes : List String) (suffix : Ref) : Eval (Ref × Symbol) := do
  let _ ← protect suffix
  let whole ← protectedStrings classes
  return (whole, (← get).reserved.previous)

/-- Classes that are cut off get the whole vector as an attribute. -/
theorem dispatchClasses_eq_allocateCompleted {classes : List String} {index : Nat}
    {keepWhole : Bool} (hcut : (keepWhole && decide (0 < index)) = true) :
    dispatchClasses classes index keepWhole =
      allocateCompleted { payload := .character (classes.drop index) } (holdWhole classes)
        Prod.snd Prod.fst := by
  unfold dispatchClasses protectedStrings allocateCompleted holdWhole
  simp only [protectedStrings, bind_assoc, pure_bind, hcut, if_true]
  rfl

end Eval

namespace RefLaw

open Eval

variable {callEnv defEnv : Ref} {call : Expr} {args : List Arg}
  {method : MethodInProgress}

variable {law : RefLaw} {state : Interpreter} {scope : Scope} {kind : Kind} {ref env : Ref}

/-! ## Searches for methods -/

/-- The classes from a place on stay rooted while the whole vector is allocated. -/
theorem agree_holdWhole {suffix : Ref} (hstate : law.Sound state)
    (hsuffix : law.Now .value state suffix) (classes : List String) :
    law.Obeys .protecting (fun after result => law.Now .value after suffix ∧
        law.Rooted after suffix ∧ law.Now .value after (Prod.fst result)) state
      (holdWhole classes suffix) := by
  refine (agree_protect hstate hsuffix).bind fun _ _ hreach hkept =>
    (agree_protectedStrings hreach.sound classes).bind fun _ _ hlater hwhole => .get_bind ?_
  have hnow := law.has_now (hlater.kept hreach.sound hkept.1)
  have hrooted := law.lasting_rooted _ _ _ _ hreach.sound hlater hkept.2
  exact .pure hlater.sound ⟨hnow, hrooted, law.has_now hwhole⟩

/-- The class vector for a method is made, and kept with the whole vector that
it remembers. -/
theorem agree_dispatchClasses (hstate : law.Sound state) (classes : List String) (index : Nat)
    (keepWhole : Bool) :
    law.Obeys .protecting (law.Kept .value) state (dispatchClasses classes index keepWhole) := by
  by_cases hcut : (keepWhole && decide (0 < index)) = true
  · have hobject : law.MeetsNow state { payload := .character (classes.drop index) } :=
      ⟨trivial, nofun, (fun _ hentry => nomatch hentry)⟩
    have hvalue : Kind.value.Admits (.character (classes.drop index)) := ⟨rfl, rfl⟩
    rw [dispatchClasses_eq_allocateCompleted hcut]
    refine (agree_complete hstate hobject hvalue Prod.snd Prod.fst
      (fun _ _ _ hrooted => hrooted) fun suffix middle hmiddle hsuffix =>
        agree_holdWhole hmiddle hsuffix classes).weaken fun _ _ _ hsuffix => ?_
    exact kept_of_rooted hsuffix.1 hsuffix.2
  · unfold dispatchClasses
    simp only [hcut]
    exact (agree_protectedStrings hstate _).bind fun _ _ hreach hkept => .pure hreach.sound hkept

/-- A method that was found before a place is kept, and it has a name. -/
structure FoundMeets (law : RefLaw) (limit : Nat) (state : Interpreter)
    (found : MethodMatch) :
    Prop where
  method : law.Kept .value state found.method
  name : found.name ≠ ""
  index : found.index < limit

/-- A method that was found stays what it is. -/
theorem lasting_foundMeets (law : RefLaw) (limit : Nat) :
    law.Lasting (law.FoundMeets limit) := by
  intro _ state after found hstate hreach hfound
  exact ⟨hreach.kept hstate hfound.method, hfound.name, hfound.index⟩

/-- What is known of a method that may have been found before a place. -/
def MatchKept (law : RefLaw) (limit : Nat) (state : Interpreter)
    (found : Option MethodMatch) :
    Prop :=
  ∀ selected ∈ found, law.FoundMeets limit state selected

/-- What a search ends with: an error, or a method that is kept if there is one. -/
def SearchMeets (law : RefLaw) (limit : Nat) (state : Interpreter)
    (result : MethodSearch.Result EvalError) : Prop :=
  law.Attempted (law.MatchKept limit) state result.1

/-- A search does what its lookups do. -/
theorem agree_search
    {lookup twin : String → Eval (Except EvalError (Option Ref))}
    {pre : Interpreter → Prop} (hpre : ∀ {state after}, law.Sound state →
    law.Reaches .settled state after → pre state → pre after)
    (hlookup : ∀ {state} name, law.Sound state → pre state → law.Agree .settled
      (law.Attempted (law.EachKept .value)) state (lookup name) (twin name))
    (hstate : law.Sound state) (hstart : pre state) (search : MethodSearch)
    (start : Nat) (allowDefault : Bool) {limit : Nat}
    (hlimit : search.classes.length ≤ limit)
    (hdefault : allowDefault = true → search.classes.length < limit) :
    law.Agree .settled (law.SearchMeets limit) state (search.run lookup start allowDefault)
      (search.run twin start allowDefault) := by
  have hnone : ∀ state, law.Attempted (law.MatchKept limit) state (.ok none) :=
    fun _ _ hselected => nomatch hselected
  have hselect : ∀ {state method index generic cls group default}, index < limit →
      law.Attempted (law.EachKept .value) state (.ok (some method)) →
      law.Attempted (law.MatchKept limit) state
        (.ok (some ⟨index, methodName generic cls, method, group, default⟩)) := by
    intro state method index generic cls group default hindex hmethod selected hselected
    cases hselected
    exact ⟨hmethod method rfl, methodName_ne_empty _ _, hindex⟩
  have hfinish : ∀ {state} (search : MethodSearch),
      (allowDefault = true → search.classes.length < limit) → law.Sound state → pre state →
      law.Agree .settled (law.SearchMeets limit) state (search.finish lookup allowDefault)
        (search.finish twin allowDefault) := by
    intro state search hdefault hstate hstart
    unfold MethodSearch.finish
    dsimp only
    split
    · next hallowed =>
      refine (hlookup _ hstate hstart).bind fun result middle hreach hresult => ?_
      cases result with
      | error err => exact .pure hreach.sound hresult
      | ok found =>
          cases found with
          | none => exact .pure hreach.sound (hnone _)
          | some method => exact .pure hreach.sound (hselect (hdefault hallowed) hresult)
    · exact .pure hstate (hnone _)
  have hscan : ∀ (classes : List String) {state} (search : MethodSearch) (index : Nat),
      (allowDefault = true → search.classes.length < limit) →
      (∀ place < classes.length, index + place < limit) → law.Sound state → pre state →
      law.Agree .settled (law.SearchMeets limit) state
        (MethodSearch.scan lookup allowDefault search index classes)
        (MethodSearch.scan twin allowDefault search index classes) := by
    intro classes
    induction classes with
    | nil => exact fun search _ hdefault _ hstate hstart => hfinish search hdefault hstate hstart
    | cons cls rest ih =>
        intro state search index hdefault hplaces hstate hstart
        have hindex : index < limit := hplaces 0 (Nat.zero_lt_succ _)
        have hrest : ∀ place < rest.length, index + 1 + place < limit := by
          intro place hplace
          have := hplaces (place + 1) (Nat.succ_lt_succ hplace)
          omega
        refine (hlookup _ hstate hstart).bind fun result middle hreach hresult => ?_
        have hmiddle := hpre hstate hreach hstart
        cases result with
        | error err => exact .pure hreach.sound hresult
        | ok found =>
        cases found with
        | some method => exact .pure hreach.sound (hselect hindex hresult)
        | none =>
        dsimp only
        cases search.group with
        | none => exact ih _ _ hdefault hrest hreach.sound hmiddle
        | some group =>
            refine (hlookup _ hreach.sound hmiddle).bind fun result after hlater hresult => ?_
            cases result with
            | error err => exact .pure hlater.sound hresult
            | ok found =>
                cases found with
                | some method => exact .pure hlater.sound (hselect hindex hresult)
                | none =>
                    exact ih _ _ hdefault hrest hlater.sound (hpre hreach.sound hlater hmiddle)
  refine hscan _ _ _ hdefault (fun place hplace => ?_) hstate hstart
  rw [List.length_drop] at hplace
  omega

/-! ## Selected methods -/

/-- The dispatch variables of a selected method are kept. -/
structure VarsKept (law : RefLaw) (state : Interpreter) (vars : DispatchVars) :
    Prop where
  classes : law.Kept .value state vars.classes
  generic : law.Kept .value state vars.generic
  method : law.Kept .value state vars.method
  group : law.Kept .value state vars.group
  callEnv : law.Kept .environment state vars.callEnv
  defEnv : law.Kept .environment state vars.defEnv

/-- A selected method and its dispatch variables are kept. -/
structure SelectionKept (law : RefLaw) (state : Interpreter)
    (selection : Selection) : Prop where
  method : law.Kept .value state selection.method
  vars : law.VarsKept state selection.vars
  named : law.named (.held (law.held state)) selection.name state selection.vars.method

/-- A selection stays kept. -/
theorem lasting_selectionKept (law : RefLaw) :
    law.Lasting law.SelectionKept := by
  intro _ state after selection hstate hreach hselection
  have hkept : ∀ {kind ref}, law.Kept kind state ref → law.Kept kind after ref :=
    hreach.kept hstate
  have hvars := hselection.vars
  exact ⟨hkept hselection.method, ⟨hkept hvars.classes, hkept hvars.generic,
    hkept hvars.method, hkept hvars.group, hkept hvars.callEnv,
    hkept hvars.defEnv⟩, hreach.named hstate hselection.named⟩

/-- Every dispatch variable is bound to a value that is kept. -/
theorem VarsKept.bindings {vars : DispatchVars}
    (hvars : law.VarsKept state vars) (reserved : Reserved) :
    ∀ entry ∈ vars.bindings reserved, law.Kept .value state entry.2 := by
  intro entry hentry
  simp only [DispatchVars.bindings, List.mem_cons, List.not_mem_nil, or_false] at hentry
  rcases hentry with rfl | rfl | rfl | rfl | rfl | rfl
  · exact hvars.classes
  · exact hvars.generic
  · exact hvars.method
  · exact hvars.group
  · exact law.has_within Kind.environment_within_value hvars.callEnv
  · exact law.has_within Kind.environment_within_value hvars.defEnv

/-- The classes of a method that was found are kept, whether it is one of a
class or the default. -/
theorem agree_foundClasses (hstate : law.Sound state) (found : MethodMatch)
    (classes : List String) :
    law.Obeys .protecting (law.Kept .value) state (foundClasses found classes) := by
  unfold foundClasses
  split
  · exact .get_bind (.pure hstate (kept_null hstate))
  · exact agree_dispatchClasses hstate _ _ _

/-- What is selected is kept, from the method to the environments of dispatch. -/
theorem agree_selectFound (hstate : law.Sound state) (generic : String)
    {found : MethodMatch} {limit : Nat}
    (hfound : law.FoundMeets limit state found) (classes : List String)
    (hcallEnv : law.Kept .environment state callEnv)
    (hdefEnv : law.Kept .environment state defEnv) :
    law.Obeys .protecting law.SelectionKept state
      (selectFound generic found classes callEnv defEnv) := by
  refine (agree_protect hstate (law.has_now hfound.method)).bind fun _ s1 h1 _ =>
    (agree_foundClasses h1.sound found classes).bind fun suffix s2 h2 hsuffix =>
      (agree_protectedStrings h2.sound [generic]).bind fun genericValue s3 h3 hgeneric =>
        (agree_protectedNames h3.sound [found.name]).bind fun names s4 h4 hnames =>
          (agree_protectedStrings h4.sound [""]).bind fun group s5 h5 hgroup => ?_
  have hwhole := (((h1.trans h2).trans h3).trans h4).trans h5
  exact .pure h5.sound ⟨hwhole.kept hstate hfound.method,
    ⟨((h3.trans h4).trans h5).kept h2.sound hsuffix, (h4.trans h5).kept h3.sound hgeneric,
      h5.kept h4.sound hnames.1, hgroup, hwhole.kept hstate hcallEnv, hwhole.kept hstate hdefEnv⟩,
    h5.named h4.sound (hnames.2 found.name (law.tells_single hfound.name))⟩

section Dispatch

variable {run twin : Runner} {point pointTwin : MethodInProgress → Eval ResumePoint}
  (hrun : law.Runs run twin)

include hrun

/-- A method is looked up where dispatch was called, then where the generic was
defined. -/
theorem agree_lookupMethod (hstate : law.Sound state)
    (hcallEnv : law.Kept .environment state callEnv) (hdefEnv : law.Kept .environment state defEnv)
    (name : String) :
    law.Agree .settled (law.EachKept .value) state (lookupMethod run callEnv defEnv name)
      (lookupMethod twin callEnv defEnv name) := by
  refine .get_bind ?_
  cases state.naming.symbols.find? name with
  | none => exact .pure hstate (law.eachKept_none _ _)
  | some symbol =>
      refine (agree_findFun? hrun hstate symbol hcallEnv).bind fun found middle hreach hfound => ?_
      cases found with
      | some fn => exact .pure hreach.sound hfound
      | none =>
          refine (agree_findFun? hrun hreach.sound symbol (hreach.kept hstate hdefEnv)).bind
            fun found after hlater hfound => ?_
          cases found with
          | some fn => exact .pure hlater.sound hfound
          | none => exact .lift hlater.sound (answers_registeredMethod? hlater.sound symbol)

/-- A search finds a method that is kept, and stands at a class before its
limit. -/
theorem agree_findMethod (hstate : law.Sound state) (search : MethodSearch)
    (hcallEnv : law.Kept .environment state callEnv) (hdefEnv : law.Kept .environment state defEnv)
    (start : Nat) (allowDefault : Bool) {limit : Nat} (hlimit : search.classes.length ≤ limit)
    (hdefault : allowDefault = true → search.classes.length < limit) :
    law.Agree .settled (fun after found => law.MatchKept limit after found.1) state
      (findMethod run search callEnv defEnv start allowDefault)
      (findMethod twin search callEnv defEnv start allowDefault) := by
  have hpre : ∀ {state after}, law.Sound state → law.Reaches .settled state after →
      law.Kept .environment state callEnv ∧ law.Kept .environment state defEnv →
      law.Kept .environment after callEnv ∧ law.Kept .environment after defEnv :=
    fun hstate hreach henvs => ⟨hreach.kept hstate henvs.1, hreach.kept hstate henvs.2⟩
  refine (agree_search hpre (fun name hstate henvs =>
    (agree_lookupMethod hrun hstate henvs.1 henvs.2 name).attempt) hstate ⟨hcallEnv, hdefEnv⟩ search
    start allowDefault hlimit hdefault).bind fun result middle hreach hresult => ?_
  exact (Agree.settle hreach.sound hresult).bind fun found after hlater hfound =>
    .pure hlater.sound hfound

/-- A selected method is applied under its own name. -/
theorem agree_applyMethod (hstate : law.Sound state) {selection : Selection}
    (hselection : law.SelectionKept state selection) (hcall : law.expr call)
    (hargs : law.ArgsKept .operand state args)
    (henv : law.Kept .environment state env) :
    law.Agree .settled (law.Now .value) state (applyMethod run selection call args env)
      (applyMethod twin selection call args env) := by
  refine (agree_intern hstate selection.name).bind fun head s1 h1 hname =>
    (agree_renamedCall h1.sound head hcall).bind fun renamed s2 h2 hrenamed => .get_bind ?_
  obtain ⟨hexpr, hhead, hnames⟩ := hrenamed
  have hreach := h1.trans h2
  have hkept := law.lasting_selectionKept _ _ _ _ hstate hreach hselection
  refine hrun _ _ h2.sound ⟨hexpr, hkept.method, law.lasting_argsKept _ _ _ _ _ hstate hreach hargs,
    hreach.kept hstate henv, hkept.vars.bindings _, fun _ => Or.inr ?_⟩
  refine ⟨selection.vars, head, selection.name, rfl, hhead, ?_, hkept.named⟩
  rw [hnames]
  exact hname

/-- `UseMethod` selects and applies a method within roots of its own, or finds
none. -/
theorem agree_useMethod (hstate : law.Sound state) (generic : String)
    {object : Ref} (hobject : law.Now kind state object) (hcall : law.expr call)
    (hargs : law.ArgsKept .operand state args)
    (hcallEnv : law.Kept .environment state callEnv)
    (hdefEnv : law.Kept .environment state defEnv) :
    law.Agree .settled (law.EachNow .value) state
      (useMethod run generic object call args callEnv defEnv)
      (useMethod twin generic object call args callEnv defEnv) := by
  refine .lift_bind hstate (answers_classVector hstate hobject) fun classes _ =>
    (agree_findMethod hrun hstate (.start generic none classes) hcallEnv hdefEnv 0 true
      (Nat.le_succ _) fun _ => Nat.lt_succ_self _).bind fun result s1 h1 hfound => ?_
  obtain ⟨found, search⟩ := result
  cases found with
  | none => exact .pure h1.sound (law.eachNow_none _ _)
  | some found =>
      refine Agree.withRoots ?_ (law.rootless_eachNow .value)
      refine (agree_selectFound h1.sound generic (hfound found rfl)
        search.classes (h1.kept hstate hcallEnv) (h1.kept hstate hdefEnv)).bind
        fun selection s2 h2 hselection => ?_
      have hreach := (Reaches.within h1).trans h2
      exact (agree_applyMethod hrun h2.sound hselection hcall
        (law.lasting_argsKept _ _ _ _ _ hstate hreach hargs)
        (hreach.kept hstate hcallEnv)).within.bind fun _ _ h3 hvalue => .pure
        h3.sound (eachNow_some hvalue)

/-- The object that is dispatched on is the forced first argument of the call. -/
theorem agree_dispatchObject (hstate : law.Sound state) {fn : Ref}
    (hfn : law.Now kind state fn) (hargs : law.ArgsKept .operand state args) :
    law.Agree .settled (law.Kept .value) state (dispatchObject run fn args)
      (dispatchObject twin fn args) := by
  refine .lift_bind hstate (answers_dispatchArgOf hfn args) fun arg harg => ?_
  cases hvalue : arg.bind (·.value) with
  | none => exact .get_bind (.pure hstate (kept_null hstate))
  | some ref =>
      obtain ⟨found, hfound, hsome⟩ := Option.bind_eq_some_iff.mp hvalue
      exact agree_forceValue hrun hstate (hargs found (harg found hfound) ref hsome)

/-- The environment in which a generic was defined is that of a closure, or the
base. -/
theorem agree_definitionEnv (hstate : law.Sound state) (generic : Symbol)
    (henv : law.Kept .environment state env) :
    law.Agree .settled (law.Kept .environment) state (definitionEnv run generic env)
      (definitionEnv twin generic env) := by
  have hbase := kept_base hstate
  refine .get_bind (.lift_bind hstate (answers_environmentAt (law.has_now henv))
    fun found hshows => ?_)
  have hparent : law.Kept .environment state (found.parent.getD state.fixed.base) := by
    cases hfound : found.parent with
    | none => exact hbase
    | some parent => exact hstate.parent henv hshows parent hfound
  refine (agree_findFun? hrun hstate generic hparent).bind fun fn middle hreach hfn => ?_
  cases fn with
  | none => exact .pure hreach.sound (hreach.kept hstate hbase)
  | some fn =>
      have hkept := hfn fn rfl
      refine .lift_bind hreach.sound (answers_closureAt? (law.has_now hkept))
        fun closure hclosure => ?_
      cases closure with
      | none => exact .pure hreach.sound (hreach.kept hstate hbase)
      | some closure =>
          exact .pure hreach.sound (hreach.sound.holds hkept (hclosure closure rfl)).1

omit hrun in
/-- What a call holds stays kept. -/
theorem lasting_contextKept (law : RefLaw) :
    law.Lasting fun state (context : CallContext) => context.Meets (law.Kept · state) law.expr :=
  fun _ _ _ _ hstate hreach hcontext => hcontext.mono fun _ _ hkept => hreach.kept hstate hkept

/-- Dispatch on an object leaves the generic with the value of its method, or
fails. -/
theorem agree_dispatchOn (hstate : law.Sound state) {context : CallContext}
    (hcontext : context.Meets (law.Kept · state) law.expr) (generic : String) {object : Ref}
    (hobject : law.Now .value state object) (henv : law.Kept .environment state env) :
    law.Agree .protecting (law.Now .value) state (dispatchOn run context generic object env)
      (dispatchOn twin context generic object env) := by
  refine (agree_protect hstate hobject).bind fun _ s1 h1 hkept =>
    (agree_intern h1.sound generic).bind fun symbol s2 h2 _ =>
      (agree_definitionEnv hrun h2.sound symbol ((h1.trans h2).kept hstate henv)).within.bind
        fun defEnv s3 h3 hdefEnv => ?_
  have hreach := (h1.trans h2).trans h3
  have hcalled := law.lasting_contextKept _ _ _ _ hstate hreach hcontext
  have hheld := (h2.trans h3).kept h1.sound hkept.1
  refine (agree_useMethod hrun h3.sound generic (law.has_now hheld) hcalled.call hcalled.args
    hcalled.caller hdefEnv).within.bind fun value s4 h4 hvalue => ?_
  cases value with
  | some value => exact .pure h4.sound (hvalue value rfl)
  | none =>
      exact .lift_bind h4.sound (answers_classVector h4.sound
        (law.has_now (h4.kept h3.sound hheld))) fun _ _ => .raise h4.sound nofun

/-- From within a call, `UseMethod` evaluates its arguments and dispatches. -/
theorem agree_useMethodFrom (hstate : law.Sound state) {context : CallContext}
    (hcontext : context.Meets (law.Kept · state) law.expr) (call : Expr)
    {generic : Expr} (hgeneric : law.expr generic) {object : Option Expr}
    (hobject : ∀ expr ∈ object, law.expr expr)
    (henv : law.Kept .environment state env) :
    law.Agree .protecting (law.Now .value) state
      (useMethodFrom run context call generic object env)
      (useMethodFrom twin context call generic object env) := by
  refine (hrun _ (.eval generic env) hstate ⟨hgeneric, henv⟩).within.bind fun value s1 h1 hvalue =>
    .lift_bind h1.sound (answers_asString? hvalue) fun name _ => ?_
  have hcalled := law.lasting_contextKept _ _ _ _ hstate h1 hcontext
  have hwhere := h1.kept hstate henv
  cases name with
  | none => exact .lift_bind h1.sound (answers_exprText call) fun _ _ => .raise h1.sound nofun
  | some name =>
      cases object with
      | some expr =>
          exact (hrun _ (.eval expr env) h1.sound ⟨hobject expr rfl, hwhere⟩).within.bind
            fun object s2 h2 hnow => agree_dispatchOn hrun h2.sound
              (law.lasting_contextKept _ _ _ _ h1.sound h2 hcalled) name hnow
              (h2.kept h1.sound hwhere)
      | none =>
          exact (agree_dispatchObject hrun h1.sound
            (law.has_now hcalled.fn) hcalled.args).within.bind
            fun object s2 h2 hkept => agree_dispatchOn hrun h2.sound
            (law.lasting_contextKept _ _ _ _ h1.sound h2 hcalled) name
            (law.has_now hkept) (h2.kept h1.sound hwhere)

/-- `UseMethod` needs a call that it was made from. -/
theorem agree_callUseMethod (hstate : law.Sound state) (call : Expr) {generic : Expr}
    (hgeneric : law.expr generic) {object : Option Expr} (hobject : ∀ expr ∈ object, law.expr expr)
    (henv : law.Kept .environment state env) :
    law.Agree .settled (law.Now .value) state (callUseMethod run call generic object env)
      (callUseMethod twin call generic object env) := by
  refine .lift_bind hstate (answers_genericContext env) fun context hcontext => ?_
  refine ((agree_useMethodFrom hrun hstate (hstate.kept_context hcontext.1) call hgeneric hobject
    henv).withRoots (law.rootless_now .value)).bind fun value s1 h1 hvalue => ?_
  refine .raise h1.sound fun returned target herr => ?_
  cases herr
  exact hvalue

/-! ## The next method -/

omit hrun in
/-- The arguments that the third formal of `NextMethod` gathers. -/
theorem argsKept_extras {matched : List Matched}
    (hmatched : ∀ received ∈ matched, MatchedMeets (law.Kept .operand state) received) :
    law.ArgsKept .operand state (match matched[2]? with
      | some (Matched.dots extras) => extras
      | _ => []) := by
  split
  · next extras hextras => exact hmatched _ (List.mem_of_getElem? hextras)
  · exact law.argsKept_nil _ _

/-- The arguments that are given to `NextMethod` itself are promised and kept. -/
theorem agree_nextMethodArgs (hstate : law.Sound state) (hcall : law.expr call)
    (henv : law.Kept .environment state env) :
    law.Agree .protecting (fun after given => law.ArgsKept .operand after given.2) state
      (nextMethodArgs run call env) (nextMethodArgs twin call env) := by
  refine (agree_promiseArgs hstate (fun arg harg => expr_callArgs hcall harg) henv).bind
    fun args s1 h1 hargs => .get_bind ?_
  refine .lift_bind h1.sound (answers_matchCall call _ hargs.now) fun matched hmatched => ?_
  have hreceived := (matchArgs_eq_ok hargs hmatched).1
  have hrest : ∀ {after} (given : Option String), law.Reaches .protecting s1 after →
      law.Obeys .protecting (fun after given => law.ArgsKept .operand after (Prod.snd given)) after
        (pure (given, match matched[2]? with
          | some (Matched.dots extras) => extras
          | _ => [])) := fun given hreach =>
    .pure hreach.sound (law.lasting_argsKept _ _ _ _ _ h1.sound hreach (argsKept_extras hreceived))
  cases hfirst : matched.head? with
  | none => exact hrest none (.refl h1.sound)
  | some first =>
      cases first with
      | missing => exact hrest none (.refl h1.sound)
      | dots args => exact hrest none (.refl h1.sound)
      | supplied ref =>
          have hkept : law.Kept .operand s1 ref := hreceived _ (List.mem_of_head? hfirst)
          refine (agree_forceValue hrun h1.sound hkept).within.bind fun value s2 h2 hvalue =>
            .get_bind ?_
          split
          · exact hrest none h2
          · refine .lift_bind h2.sound (answers_asString? (law.has_now hvalue)) fun name _ => ?_
            cases name with
            | none => exact .raise h2.sound nofun
            | some name => exact hrest (some name) h2

omit hrun in
/-- Arguments stay kept when a value among them is replaced by one that is kept. -/
theorem argsKept_replaceValue {old new : Ref} (hnew : law.Kept kind state new)
    (hargs : law.ArgsKept kind state args) :
    law.ArgsKept kind state (replaceValue old new args) := by
  fun_induction replaceValue old new args with
  | case1 => exact hargs
  | case2 arg rest hsame =>
      intro other hother
      rcases List.mem_cons.mp hother with rfl | hrest
      · exact eachKept_some hnew
      · exact hargs other (List.mem_cons_of_mem _ hrest)
  | case3 arg rest hother ih =>
      intro other hmem
      rcases List.mem_cons.mp hmem with rfl | hrest
      · exact hargs other List.mem_cons_self
      · exact ih (fun arg harg => hargs arg (List.mem_cons_of_mem _ harg)) other hrest

omit hrun in
/-- A formal that holds a promise again stands for the argument that it was
given. -/
theorem agree_rebindArg (hstate : law.Sound state) (henv : law.Kept .environment state env)
    (formals : List (Formal × Matched)) (hargs : law.ArgsKept .operand state args)
    (matched : Matched) :
    law.Obeys .protecting (law.ArgsKept .operand) state (rebindArg env formals args matched) := by
  unfold rebindArg
  cases matched with
  | missing => exact .pure hstate hargs
  | dots gathered => exact .pure hstate hargs
  | supplied value =>
      dsimp only
      cases formalOf? formals value with
      | none => exact .pure hstate hargs
      | some formal =>
          refine .lift_bind hstate (answers_isMissingFormal (law.has_now henv) formal)
            fun absent _ => ?_
          split
          · exact .pure hstate hargs
          · split
            · refine (agree_allocPromise hstate (law.expr_symbol 0 formal.name)
                (law.has_now henv)).bind fun promised s1 h1 hnow =>
                  (agree_protect h1.sound hnow).bind fun _ s2 h2 hkept => .pure h2.sound ?_
              exact argsKept_replaceValue (law.has_within Kind.promise_within_operand hkept.1)
                (law.lasting_argsKept _ _ _ _ _ hstate (h1.trans h2) hargs)
            · exact .pure hstate hargs

omit hrun in
/-- So it is with all formals of the method, one after the other. -/
theorem agree_rebindArgs (hstate : law.Sound state)
    (hmethod : law.MethodMeets state method) (formals : List Formal) :
    law.Obeys .protecting (law.ArgsKept .operand) state (rebindArgs method formals) := by
  have hlasting : law.Lasting fun state (_ : Matched) => law.Kept .environment state method.env :=
    fun _ _ _ _ hstate hreach henv => hreach.kept hstate henv
  exact .lift_bind hstate (answers_matchCall _ _ hmethod.args.now) fun _ _ =>
    .lift_bind hstate (answers_closureAt? (law.has_now hmethod.fn)) fun _ _ =>
      .lift_bind hstate (answers_matchCall _ _ hmethod.args.now) fun _ _ =>
        Agree.foldlM hlasting (fun _ _ matched hstate hargs henv =>
          agree_rebindArg hstate henv _ hargs matched) hstate hmethod.args fun _ _ => hmethod.env

/-- The formals of the generic are read off the function that its name resolves
to. -/
theorem agree_genericFormals (hstate : law.Sound state) (generic : Symbol)
    (hmethod : law.MethodMeets state method) :
    law.Agree .settled (fun _ _ => True) state (genericFormals run generic method)
      (genericFormals twin generic method) := by
  refine (agree_findFun? hrun hstate generic hmethod.env).bind fun found s1 h1 hfound => ?_
  have hfn := law.has_now (h1.kept hstate hmethod.fn)
  -- Without a closure of the generic, the formals are those of the method in
  -- progress.
  have hown : ∀ next : Option Closure → Eval (List Formal),
      (∀ closure, next (some closure) = pure closure.formals) →
      next none = raise .noCallingGeneric → law.Obeys .settled
      (fun _ _ => True) s1 (liftM (closureAt? method.fn) >>= next) := by
    intro next hsome hnone
    refine .lift_bind h1.sound (answers_closureAt? hfn) fun closure _ => ?_
    cases closure with
    | none =>
        rw [hnone]
        exact .raise h1.sound nofun
    | some closure =>
        rw [hsome]
        exact .pure h1.sound trivial
  cases found with
  | none => exact hown _ (fun _ => rfl) rfl
  | some fn =>
      refine .lift_bind h1.sound (answers_closureAt? (law.has_now (hfound fn rfl)))
        fun closure _ => ?_
      cases closure with
      | none => exact hown _ (fun _ => rfl) rfl
      | some closure => exact .pure h1.sound trivial

/-- What is known of a call of `NextMethod`. -/
structure NextMeets (law : RefLaw) (state : Interpreter) (next : NextCall) :
    Prop where
  method : law.MethodMeets state next.method
  extras : law.ArgsKept .operand state next.extras

/-- The generic is found that `NextMethod` goes on with, and the method in
progress. -/
theorem agree_callingGeneric (hstate : law.Sound state) (hcall : law.expr call)
    (henv : law.Kept .environment state env)
    (hscopes : law.FindsScopes state env) :
    law.Agree .protecting law.NextMeets state (callingGeneric run call env)
      (callingGeneric twin call env) := by
  refine .lift_bind hstate (answers_methodInProgress hstate henv hscopes) fun method hmethod =>
    (agree_nextMethodArgs hrun hstate hcall henv).bind fun given s1 h1 hgiven => ?_
  obtain ⟨given, extras⟩ := given
  have hmethod1 := law.lasting_methodMeets _ _ _ _ hstate h1 hmethod
  refine (agree_lookupMethod hrun h1.sound (h1.kept hstate henv) hmethod1.defEnv _).within.bind
    fun found s2 h2 _ => ?_
  dsimp only
  split
  · exact .raise h2.sound nofun
  · refine .lift_bind h2.sound (answers_genericName h2.sound
      (law.has_now ((h1.trans h2).kept hstate henv)) given) fun name _ => .pure h2.sound ?_
    exact ⟨law.lasting_methodMeets _ _ _ _ h1.sound h2 hmethod1,
      law.lasting_argsKept _ _ _ _ _ h1.sound h2 hgiven⟩

omit hrun in
/-- Merged arguments come from either list. -/
theorem argsKept_merge {extras : List Arg}
    (hargs : law.ArgsKept kind state args)
    (hextras : law.ArgsKept kind state extras) :
    law.ArgsKept kind state (Args.merge args extras) := by
  have hset : ∀ {args : List Arg} {tag value}, law.ArgsKept kind state args →
      law.EachKept kind state value → law.ArgsKept kind state (Args.setTagged tag value args) := by
    intro args tag value hargs hvalue
    fun_induction Args.setTagged tag value args with
    | case1 => exact argsKept_singleton hvalue
    | case2 arg rest hsame =>
        intro other hother
        rcases List.mem_cons.mp hother with rfl | hrest
        · exact hvalue
        · exact hargs other (List.mem_cons_of_mem _ hrest)
    | case3 arg rest hother ih =>
        intro other hmem
        rcases List.mem_cons.mp hmem with rfl | hrest
        · exact hargs other List.mem_cons_self
        · exact ih (fun arg harg => hargs arg (List.mem_cons_of_mem _ harg)) other hrest
  unfold Args.merge
  induction extras generalizing args with
  | nil => exact hargs
  | cons arg extras ih =>
      rw [List.foldl_cons]
      refine ih ?_ fun other hother => hextras other (List.mem_cons_of_mem _ hother)
      have harg := hextras arg List.mem_cons_self
      unfold Args.mergeOne
      split
      · exact hset hargs harg
      · intro other hother
        rcases List.mem_append.mp hother with hold | hnew
        · exact hargs other hold
        · exact List.mem_singleton.mp hnew ▸ harg

/-- The arguments for the next method are those of the method with the
additional ones merged in. -/
theorem agree_passedArgs (hstate : law.Sound state) (symbol : Symbol) {next : NextCall}
    (hnext : law.NextMeets state next) :
    law.Agree .protecting (law.ArgsKept .operand) state (passedArgs run symbol next)
      (passedArgs twin symbol next) := by
  refine (agree_genericFormals hrun hstate symbol hnext.method).within.bind
    fun formals middle hfirst _ => ?_
  have hmethod := law.lasting_methodMeets _ _ _ _ hstate hfirst hnext.method
  refine (agree_rebindArgs hfirst.sound hmethod formals).bind
    fun _ _ hsecond hargs => ?_
  have hextras := law.lasting_argsKept _ _ _ _ _ hstate (hfirst.trans hsecond)
    hnext.extras
  exact .pure hsecond.sound (argsKept_merge hargs hextras)

/-- The classes that dispatch goes on with are read off the frame, or off the
dispatched object. -/
theorem agree_remainingClasses (hstate : law.Sound state)
    (hmethod : law.MethodMeets state method) :
    law.Agree .settled (fun _ _ => True) state (remainingClasses run method)
      (remainingClasses twin method) := by
  refine .get_bind (.lift_bind hstate (answers_frameValue? hstate hmethod.env _)
    fun value hvalue => ?_)
  cases value with
  | some ref =>
      exact .lift_bind hstate (answers_asStrings? (law.has_now (hvalue ref rfl))) fun _ _ =>
        .pure hstate trivial
  | none =>
      dsimp only
      split
      · exact .raise hstate nofun
      · exact (agree_dispatchObject hrun hstate (law.has_now hmethod.fn) hmethod.args).bind
          fun _ _ h1 hobject => .lift h1.sound (answers_classVector h1.sound (law.has_now hobject))

/-- What is known of the place where dispatch stands in a method that was called
by a name. -/
structure PointMeets (law : RefLaw) (head : String) (state : Interpreter)
    (point : ResumePoint) :
    Prop where
  group : law.EachKept .value state point.groupValue
  names : ∀ found ∈ point.names, law.tells head found
  current : point.current = runningName head (point.names.getD [])

omit hrun in
/-- A resume point stays what it is. -/
theorem lasting_pointMeets (law : RefLaw) (head : String) :
    law.Lasting (law.PointMeets head) := by
  intro _ state after point hstate hreach hpoint
  have hgroup := law.lasting_eachKept _ _ _ _ _ hstate hreach hpoint.group
  exact ⟨hgroup, hpoint.names, hpoint.current⟩

omit hrun in
/-- What is told of one method is told of the next. -/
theorem tells_nextNames {current name : String} {names : Option (List String)}
    (hnames : ∀ found ∈ names, law.tells current found) (hname : name ≠ "") :
    law.tells name (nextNames name names) := by
  cases names with
  | none => exact law.tells_single hname
  | some found => exact law.tells_next (hnames found rfl) hname

/-- The point from which dispatch goes on is read off the frame of the method. -/
theorem agree_resumePoint (hstate : law.Sound state)
    (hmethod : law.MethodMeets state method) :
    law.Agree .settled (law.PointMeets method.head) state (resumePoint run method)
      (resumePoint twin method) := by
  refine (agree_remainingClasses hrun hstate hmethod).bind fun classes s1 h1 _ => .get_bind ?_
  have hmethod1 := law.lasting_methodMeets _ _ _ _ hstate h1 hmethod
  refine .lift_bind h1.sound (answers_frameValue? h1.sound hmethod1.env _) fun value hvalue =>
    .lift_bind h1.sound (answers_dispatchStrings? h1.sound (law.has_now hmethod1.env) _)
      fun group _ => .lift_bind h1.sound (answers_methodNames h1.sound hmethod1)
        fun names hnames => ?_
  have hgroup : law.EachKept .value s1 value := fun ref href =>
    law.has_dispatch h1.sound.inv (by simp) (hvalue ref href)
  dsimp only
  split
  · exact (agree_warn h1.sound _).bind fun _ _ h2 _ =>
      .pure h2.sound ⟨law.lasting_eachKept _ _ _ _ _ h1.sound h2 hgroup, hnames, rfl⟩
  · exact .pure h1.sound ⟨hgroup, hnames, rfl⟩

/-- Two ways to read where dispatch stands in a method in progress are the same. -/
def ReadsPoints (law : RefLaw)
    (point pointTwin : MethodInProgress → Eval ResumePoint) : Prop :=
  ∀ state method, law.Sound state → law.MethodMeets state method →
    law.Agree .settled (law.PointMeets method.head) state (point method) (pointTwin method)

/-- After the last method comes the builtin that the name of the generic
resolves to. -/
theorem agree_genericBuiltin (hstate : law.Sound state) (generic : String) (symbol : Symbol)
    (henv : law.Kept .environment state env) :
    law.Agree .settled (law.Kept .value) state (genericBuiltin run generic symbol env)
      (genericBuiltin twin generic symbol env) := by
  refine (agree_findFun? hrun hstate symbol henv).bind fun found s1 h1 hfound => ?_
  cases found with
  | none => exact .raise h1.sound nofun
  | some fn =>
      have hkept := hfound fn rfl
      refine .lift_bind h1.sound (answers_payload (law.has_now hkept)) fun object _ => ?_
      cases object with
      | builtin builtin => exact .pure h1.sound hkept
      | _ => exact .raise h1.sound nofun

/-- The last method is a builtin, unless the name of the generic has one of its
own. -/
theorem agree_lastMethod (hstate : law.Sound state) (generic : String) (symbol : Symbol)
    (current : String) (hmethod : law.MethodMeets state method) :
    law.Agree .settled (law.Kept .value) state (lastMethod run generic symbol current method)
      (lastMethod twin generic symbol current method) := by
  unfold lastMethod
  dsimp only
  split
  · exact agree_genericBuiltin hrun hstate generic symbol hmethod.env
  · refine (agree_lookupMethod hrun hstate hmethod.callEnv hmethod.defEnv _).bind
      fun found s1 h1 hfound => ?_
    cases found with
    | some fn => exact .pure h1.sound (hfound fn rfl)
    | none => exact agree_genericBuiltin hrun h1.sound generic symbol (h1.kept hstate hmethod.env)

/-- The next method is found under a name that is not empty. -/
theorem agree_findNext (hstate : law.Sound state) (generic : String)
    (symbol : Symbol) (hmethod : law.MethodMeets state method)
    (point : ResumePoint) :
    law.Agree .settled (fun after next => law.Kept .value after next.1 ∧ next.2.1 ≠ "") state
      (findNext run generic symbol method point) (findNext twin generic symbol method point) := by
  refine (agree_findMethod hrun hstate _ hmethod.callEnv hmethod.defEnv _ false (Nat.le_refl _)
    (fun hallowed => nomatch hallowed)).bind fun result s1 h1 hfound => ?_
  obtain ⟨found, search⟩ := result
  cases found with
  | some found => exact .pure h1.sound ⟨(hfound found rfl).method, (hfound found rfl).name⟩
  | none =>
      exact (agree_lastMethod hrun h1.sound generic symbol point.current
        (law.lasting_methodMeets _ _ _ _ hstate h1 hmethod)).bind fun _ _ h2 hnext =>
          .pure h2.sound ⟨hnext, methodName_ne_empty _ _⟩

omit hrun in
/-- What is selected next has its name for the operands that the method before
it had. -/
theorem agree_selectFollowing (hstate : law.Sound state) (generic : String)
    (hmethod : law.MethodMeets state method) {point : ResumePoint}
    (hpoint : law.PointMeets method.head state point) {next : Ref}
    (hnext : law.Kept .value state next) {name : String} (hname : name ≠ "")
    (search : MethodSearch) :
    law.Obeys .protecting law.SelectionKept state
      (selectFollowing generic method point next name search) := by
  refine (agree_protect hstate (law.has_now hnext)).bind fun _ s1 h1 _ =>
    (agree_dispatchClasses h1.sound _ _ _).bind fun classes s2 h2 hclasses =>
      (agree_protectedNames h2.sound _).bind fun names s3 h3 hnames =>
        (agree_protectedStrings h3.sound _).bind fun genericValue s4 h4 hgeneric => ?_
  have hreach := ((h1.trans h2).trans h3).trans h4
  have hselected : ∀ {after group}, law.Reaches .protecting s4 after →
      law.Kept .value after group → law.SelectionKept after
        ⟨name, next, ⟨classes, genericValue, names, group, method.callEnv, method.defEnv⟩⟩ :=
    fun hlater hkept => ⟨(hreach.trans hlater).kept hstate hnext,
      ⟨((h3.trans h4).trans hlater).kept h2.sound hclasses, hlater.kept h4.sound hgeneric,
        (h4.trans hlater).kept h3.sound hnames.1, hkept,
        (hreach.trans hlater).kept hstate hmethod.callEnv,
        (hreach.trans hlater).kept hstate hmethod.defEnv⟩,
      (h4.trans hlater).named h3.sound (hnames.2 name (tells_nextNames hpoint.names hname))⟩
  cases hvalue : point.groupValue with
  | some ref =>
      exact .pure h4.sound (hselected (.refl h4.sound)
        (hreach.kept hstate (hpoint.group ref hvalue)))
  | none =>
      exact (agree_protectedStrings h4.sound [""]).bind fun _ _ h5 hkept =>
        .pure h5.sound (hselected h5 hkept)

/-- How it is read where dispatch stands may differ, as long as that is known to
be the same. -/
theorem agree_selectNextFrom (hpoint : law.ReadsPoints point pointTwin) (hstate : law.Sound state)
    (generic : String) (symbol : Symbol)
    (hmethod : law.MethodMeets state method) :
    law.Agree .protecting law.SelectionKept state (selectNextFrom point run generic symbol method)
      (selectNextFrom pointTwin twin generic symbol method) := by
  refine (hpoint state method hstate hmethod).within.bind fun point s1 h1 hstands => ?_
  have hmethod1 := law.lasting_methodMeets _ _ _ _ hstate h1 hmethod
  refine (agree_findNext hrun h1.sound generic symbol hmethod1 point).within.bind
    fun next s2 h2 hnext => ?_
  obtain ⟨next, name, search⟩ := next
  exact agree_selectFollowing h2.sound generic
    (law.lasting_methodMeets _ _ _ _ h1.sound h2 hmethod1)
    (law.lasting_pointMeets _ _ _ _ _ h1.sound h2 hstands) hnext.1 hnext.2 search

/-- Dispatch goes on from a point at which both runs agree. -/
theorem agree_resumeDispatchFrom (hpoint : law.ReadsPoints point pointTwin)
    (hstate : law.Sound state) (hcall : law.expr call)
    (henv : law.Kept .environment state env) (hscopes : law.FindsScopes state env) :
    law.Agree .protecting (law.Now .value) state (resumeDispatchFrom point run call env)
      (resumeDispatchFrom pointTwin twin call env) := by
  refine (agree_callingGeneric hrun hstate hcall henv hscopes).bind fun next s1 h1 hnext =>
    (agree_intern h1.sound next.generic).bind fun symbol s2 h2 _ => ?_
  have hmethod2 := law.lasting_methodMeets _ _ _ _ h1.sound h2 hnext.method
  refine (agree_passedArgs hrun h2.sound symbol ⟨hmethod2,
    law.lasting_argsKept _ _ _ _ _ h1.sound h2 hnext.extras⟩).bind fun args s3 h3 hargs => ?_
  have hmethod3 := law.lasting_methodMeets _ _ _ _ h2.sound h3 hmethod2
  refine (agree_selectNextFrom hrun hpoint h3.sound next.generic symbol hmethod3).bind
    fun selection s4 h4 hselection => ?_
  exact (agree_applyMethod hrun h4.sound hselection hmethod3.call
    (law.lasting_argsKept _ _ _ _ _ h3.sound h4 hargs) (h4.kept h3.sound hmethod3.callEnv)).within

/-- The roots of such a call are released at its end. -/
theorem agree_callNextMethodFrom (hpoint : law.ReadsPoints point pointTwin)
    (hstate : law.Sound state) (hcall : law.expr call)
    (henv : law.Kept .environment state env) (hscopes : law.FindsScopes state env) :
    law.Agree .settled (law.Now .value) state (callNextMethodFrom point run call env)
      (callNextMethodFrom pointTwin twin call env) :=
  (agree_resumeDispatchFrom hrun hpoint hstate hcall henv hscopes).withRoots
    (law.rootless_now .value)

/-- `NextMethod` goes on from what its frame says. -/
theorem agree_callNextMethod (hstate : law.Sound state) (hcall : law.expr call)
    (henv : law.Kept .environment state env)
    (hscopes : law.FindsScopes state env) :
    law.Agree .settled (law.Now .value) state (callNextMethod run call env)
      (callNextMethod twin call env) :=
  agree_callNextMethodFrom hrun (fun _ _ hstate hmethod => agree_resumePoint hrun hstate hmethod)
    hstate hcall henv hscopes

/-! ## Operators and internal generics -/

/-- What is known of the method for an operand: it was found for one of the
operand's classes. -/
def OperandMeets (law : RefLaw) (operand : Option (List String))
    (state : Interpreter) (found : Option MethodMatch) : Prop :=
  ∀ selected ∈ found, ∃ classes, operand = some classes ∧
    law.FoundMeets classes.length state selected

omit hrun in
/-- A method that was found for an operand stays what it is. -/
theorem lasting_operandMeets (law : RefLaw) (operand : Option (List String)) :
    law.Lasting (law.OperandMeets operand) := by
  intro scope state after found hstate hreach hfound selected hselected
  obtain ⟨classes, hclasses, hmeets⟩ := hfound selected hselected
  exact ⟨classes, hclasses, law.lasting_foundMeets _ _ _ _ _ hstate hreach hmeets⟩

/-- What is known of the method that was chosen, with the classes of the operand
that it is for. -/
structure ChosenMeets (law : RefLaw) (operands : List (Option (List String)))
    (state : Interpreter) (pair : List String × MethodMatch) : Prop where
  operand : some pair.1 ∈ operands
  found : law.FoundMeets pair.1.length state pair.2

omit hrun in
/-- Of the methods for the operands at most one is chosen, and it belongs to one
of them. -/
theorem agree_chooseMethod (hstate : law.Sound state) (operator : String)
    {found : List (Option (List String) × Option MethodMatch)}
    (hfound : ∀ entry ∈ found, law.OperandMeets entry.1 state entry.2) :
    law.Obeys .settled
      (fun after chosen => ∀ pair ∈ chosen, law.ChosenMeets (found.map (·.1)) after pair)
      state (chooseMethod operator found) := by
  have hchosen : ∀ {operand selected}, (operand, some selected) ∈ found →
      law.ChosenMeets (found.map (·.1)) state (operand.getD [], selected) := by
    intro operand selected hentry
    obtain ⟨classes, rfl, hmeets⟩ := hfound _ hentry selected rfl
    exact ⟨List.mem_map.mpr ⟨_, hentry, rfl⟩, hmeets⟩
  have hsome : ∀ {after} {pair : List String × MethodMatch},
      law.ChosenMeets (found.map (·.1)) after pair → ∀ other ∈ some pair,
        law.ChosenMeets (found.map (·.1)) after other := by
    intro after pair hmeets other hother
    cases hother
    exact hmeets
  unfold chooseMethod
  split
  · next lhs left rhs right rest =>
      have hleft := hchosen List.mem_cons_self
      split
      · exact (agree_warn hstate _).bind fun _ _ h1 _ => .pure h1.sound
          (hsome ⟨hleft.operand, law.lasting_foundMeets _ _ _ _ _ hstate h1 hleft.found⟩)
      · exact .pure hstate (hsome hleft)
  · next lhs left rest _ => exact .pure hstate (hsome (hchosen List.mem_cons_self))
  · next lhs rhs right rest =>
      exact .pure hstate (hsome (hchosen (List.mem_cons_of_mem _ List.mem_cons_self)))
  · exact .pure hstate fun _ hpair => nomatch hpair

/-- A method is looked for along the classes of an operand, if it has any. -/
theorem agree_operandMethod (hstate : law.Sound state) (operator group : String)
    (henv : law.Kept .environment state env) (classes : Option (List String)) :
    law.Agree .settled (law.OperandMeets classes) state
      (operandMethod run operator group env classes)
      (operandMethod twin operator group env classes) := by
  unfold operandMethod
  cases classes with
  | none => exact .pure hstate fun _ hselected => nomatch hselected
  | some classes =>
      exact .get_bind ((agree_findMethod hrun hstate _ henv
        (kept_base hstate) 0 false (Nat.le_refl _)
        (fun hallowed => nomatch hallowed)).bind fun _ _ h1 hfound =>
          .pure h1.sound fun selected hselected => ⟨classes, rfl, hfound selected hselected⟩)

omit hrun in
/-- What an operator selects is kept, and has its name for the operands that it
is for. -/
theorem agree_selectOperator (hstate : law.Sound state)
    (operator group : String) {classes : List (Option (List String))}
    {dispatched : List String} {found : MethodMatch}
    (hchosen : law.ChosenMeets classes state (dispatched, found))
    (henv : law.Kept .environment state env) :
    law.Obeys .protecting law.SelectionKept state
      (selectOperator operator group classes dispatched found env) := by
  obtain ⟨hoperand, hfound⟩ := hchosen
  have hcls : (dispatched[found.index]?).getD "" ∈ dispatched := by
    rw [List.getElem?_eq_getElem hfound.index]
    exact List.getElem_mem _
  refine (agree_protect hstate (law.has_now hfound.method)).bind fun _ s1 h1 _ =>
    (agree_dispatchClasses h1.sound _ _ _).bind fun suffix s2 h2 hsuffix =>
      (agree_protectedStrings h2.sound _).bind fun generic s3 h3 hgeneric =>
        (agree_protectedNames h3.sound _).bind fun names s4 h4 hnames =>
          (agree_protectedStrings h4.sound _).bind fun groupName s5 h5 hgroup => .get_bind ?_
  have hwhole := (((h1.trans h2).trans h3).trans h4).trans h5
  have htells := law.tells_names hfound.name (mem_operandNames hoperand hcls)
    fun _ hentry => eq_of_mem_operandNames hentry
  exact .pure h5.sound ⟨hwhole.kept hstate hfound.method,
    ⟨((h3.trans h4).trans h5).kept h2.sound hsuffix, (h4.trans h5).kept h3.sound hgeneric,
      h5.kept h4.sound hnames.1, hgroup, hwhole.kept hstate henv, kept_base h5.sound⟩,
    h5.named h4.sound (hnames.2 found.name htells)⟩

/-- An operator dispatches on its operands, or finds no method for them. -/
theorem agree_groupDispatch (hstate : law.Sound state) (group : String)
    (hcall : law.expr call) (builtin : Builtin)
    (hargs : law.ArgsKept .value state args) (henv : law.Kept .environment state env) :
    law.Agree .settled (law.EachNow .value) state (groupDispatch run group call builtin args env)
      (groupDispatch twin group call builtin args env) := by
  have hlasting : law.Lasting fun state (_ : Option (List String)) => law.Kept
      .environment state env :=
    fun _ _ _ _ hstate hreach henv => hreach.kept hstate henv
  unfold groupDispatch
  dsimp only
  split
  · exact .pure hstate (law.eachNow_none _ _)
  refine Agree.bind (Agree.mapM (law.lasting_argKept .value) law.lasting_true
    (fun state arg hstate harg => ?_) hstate hargs) fun classes s1 h1 _ => ?_
  · cases hvalue : arg.value with
    | none => exact .pure hstate trivial
    | some ref =>
        exact .lift hstate (answers_explicitClass? hstate (law.has_now (harg ref hvalue)))
  split
  · exact .pure h1.sound (law.eachNow_none _ _)
  refine (Agree.mapM_forall₂ hlasting law.lasting_operandMeets (fun _ classes hstate henv =>
    agree_operandMethod hrun hstate builtin.name group henv classes) h1.sound
    fun _ _ => h1.kept hstate henv).bind fun found s2 h2 hfound => ?_
  have hoperands : (classes.zip found).map (·.1) = classes :=
    List.map_fst_zip (Nat.le_of_eq hfound.length_eq)
  refine (agree_chooseMethod h2.sound builtin.name fun entry hentry =>
    (List.forall₂_iff_zip.mp hfound).2 hentry).bind fun chosen s3 h3 hchosen => ?_
  rw [hoperands] at hchosen
  cases chosen with
  | none => exact .pure h3.sound (law.eachNow_none _ _)
  | some chosen =>
      obtain ⟨dispatched, found⟩ := chosen
      have hreach := (h1.trans h2).trans h3
      refine Agree.withRoots ?_ (law.rootless_eachNow .value)
      refine (agree_selectOperator h3.sound builtin.name group (hchosen _ rfl)
        (hreach.kept hstate henv)).bind fun selection s4 h4 hselection => ?_
      have hreach4 := (Reaches.within hreach).trans h4
      refine (agree_forcedPromiseArgs h4.sound call
        (law.lasting_argsKept _ _ _ _ _ hstate hreach4 hargs)).bind
        fun promised s5 h5 hpromised => ?_
      exact (agree_applyMethod hrun h5.sound
        (law.lasting_selectionKept _ _ _ _ h4.sound h5 hselection)
        hcall hpromised ((hreach4.trans h5).kept hstate henv)).within.bind
        fun _ _ h6 hvalue =>
          .pure h6.sound (eachNow_some hvalue)

/-- A builtin dispatches on its first argument, or finds no method for it. -/
theorem agree_internalDispatch (hstate : law.Sound state) (hcall : law.expr call)
    (builtin : Builtin) (hargs : law.ArgsKept .value state args)
    (henv : law.Kept .environment state env) :
    law.Agree .settled (law.EachNow .value) state (internalDispatch run call builtin args env)
      (internalDispatch twin call builtin args env) := by
  unfold internalDispatch
  cases hfirst : args.head?.bind (·.value) with
  | none => exact .pure hstate (law.eachNow_none _ _)
  | some first =>
      obtain ⟨arg, harg, hvalue⟩ := Option.bind_eq_some_iff.mp hfirst
      have hkept : law.Kept .value state first := hargs arg (List.mem_of_head? harg) first hvalue
      refine .lift_bind hstate (answers_explicitClass? hstate (law.has_now hkept)) fun cls _ => ?_
      split
      · exact .pure hstate (law.eachNow_none _ _)
      refine .lift_bind hstate (answers_baseFunction hstate builtin) fun fn hfn => ?_
      refine Agree.withRoots ?_ (law.rootless_eachNow .value)
      have hdepth : law.Answers state rootDepth (· = state.roots.depth) := .read_bind (.pure rfl)
      refine .lift_bind hstate hdepth fun mark hmark => ?_
      cases hmark
      refine (agree_forcedPromiseArgs hstate call hargs).bind_of (fun _ hreach => hreach)
        fun promised middle hreach hpromised => ?_
      have hextends : law.balanced → state.roots.entries.toList <+: middle.roots.entries.toList :=
        fun hbalanced => (hreach.keeps hbalanced).1.roots
      have hcaller := hreach.kept hstate henv
      have hmethod : ∀ context : CallContext, context.Meets (law.Now · middle) law.expr →
          context.kind = .internal →
          law.Coincide (law.Inside { middle with contexts := context :: middle.contexts })
            (law.EachNow .value) { middle with contexts := context :: middle.contexts }
            (do useMethod run builtin.name first call promised env (← get).fixed.base)
            (do useMethod twin builtin.name first call promised env (← get).fixed.base) := by
        intro context hcontext hkind
        have hbegun := hreach.sound.begin hcontext (Or.inl hkind)
        exact Agree.inside (.get_bind (agree_useMethod hrun hbegun builtin.name
          (law.has_now (kept_begun context (hreach.kept hstate hkept))) hcall
          (fun arg harg ref href => kept_begun context (hpromised arg harg ref href))
          (kept_begun context hcaller) (kept_base hbegun)))
      refine (coincide_withContext hreach.sound (fun hbalanced => (hextends hbalanced).length_le)
        (hmethod _ ?_ rfl) (law.rootless_eachNow .value)).imp (fun after hafter => ?_)
        fun _ _ _ hvalue => hvalue
      · refine ⟨law.has_now (hreach.kept hstate hfn), nofun,
          law.has_now hcaller, fun ref href => ?_, hpromised.now, hcall⟩
        cases href
        exact law.has_now hcaller
      -- The call began before the arguments were protected, so its end drops
      -- them too.
      refine ⟨fun hbalanced => ?_, step_trans_of_held hreach.step hreach.held_subset hafter.step,
        hafter.sound⟩
      obtain ⟨hkeeps, hcalls⟩ := hreach.keeps hbalanced
      refine ⟨⟨(hafter.calls hbalanced).trans hkeeps.calls, ?_,
        (hafter.preserved hbalanced).trans hkeeps.preserved⟩, (hafter.calls hbalanced).trans hcalls⟩
      rcases hafter.roots hbalanced with hsame | hshrunk
      · rw [hsame]
        exact hextends hbalanced
      · rw [hshrunk, show state.roots.depth = state.roots.entries.size from rfl,
          shrink_of_extends (hextends hbalanced)]
        exact List.prefix_refl _

end Dispatch

end RefLaw

end LazyDispatch
