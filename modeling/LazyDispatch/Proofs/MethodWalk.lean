import LazyDispatch.Proofs.Resumption

/-!
# Walking through the methods

`UseMethod` selects a method, which may call `NextMethod` from its frame, and so
on.  The methods that were entered make a walk.  Each of them stands at a place
in the order of methods: this holds of the first, and each call of `NextMethod`
passes it on.  So the methods are selected in their order, each once, and after
the last of them comes the builtin of the generic's name.
-/

namespace LazyDispatch

/-! ## Calls of `UseMethod` and `NextMethod` -/

open Eval in
/-- `UseMethod` dispatches on an object: the search for the first method finds
one. -/
structure FirstStep (run : Runner) (generic : String) (classes : List String)
    (callEnv defEnv : Ref) where
  object : Ref
  start : Interpreter
  hstart : start.Sound
  hclasses : classVector object start = .ok classes
  found : MethodMatch
  search : MethodSearch
  middle : Interpreter
  hfound : findMethod run (.start generic none classes) callEnv defEnv 0 true start =
    .ok (some found, search) middle

open Eval in
/-- A method that was selected and entered calls `NextMethod` from its frame, at
any later time, and the call gets past the matching of its arguments and past
its checks.  The dispatch variables are not rebound, neither before the call nor
by what it evaluates. -/
structure NextStep (run : Runner) (selection : Selection) (env : Ref) (entry : Interpreter) where
  call : Expr
  state : Interpreter
  hstate : entry.Precedes state
  hbinds : state.Binds env selection.vars
  next : NextCall
  checked : Interpreter
  hchecked : callingGeneric run call env state = .ok next checked
  hbindsChecked : checked.Binds env selection.vars
  symbol : Symbol
  named : Interpreter
  hnamed : intern next.generic checked = .ok symbol named
  args : List Arg
  /-- The state in which the next method is looked for. -/
  ready : Interpreter
  hready : passedArgs run symbol next named = .ok args ready
  hbindsReady : ready.Binds env selection.vars

/-- A method that was entered, and what its frame says about dispatch. -/
structure Poised (callEnv defEnv : Ref) (selection : Selection) (env : Ref)
    (entry : Interpreter) (texts : DispatchTexts) (name : String) : Prop where
  sound : entry.Sound
  binds : entry.Binds env selection.vars
  vars : selection.vars.Describe entry texts
  names : SoleName name texts.names
  callEnv : selection.vars.callEnv = callEnv
  defEnv : selection.vars.defEnv = defEnv

/-- A method that was entered stands at a place in the order, with the places
after it, and its frame says so. -/
structure Stands (methods : String → Option Ref) (generic : String) (classes : List String)
    (callEnv defEnv : Ref) (selection : Selection) (env : Ref) (entry : Interpreter)
    (place : MethodPlace) (left : List MethodPlace) : Prop
    extends Poised callEnv defEnv selection env entry (place.texts generic) place.name where
  inOrder : InOrder methods generic classes place left
  target : selection.target = place.target

theorem InOrder.name_ne_empty {methods : String → Option Ref} {generic : String}
    {classes : List String} {place : MethodPlace} {left : List MethodPlace}
    (hplace : InOrder methods generic classes place left) :
    place.name ≠ "" := by
  cases hplace with
  | cls => exact methodName_ne_empty _ _
  | default => exact methodName_ne_empty _ _

namespace FirstStep

open Eval Interpreter

variable {run : Runner} {methods : String → Option Ref} {generic : String} {classes : List String}
  {callEnv defEnv : Ref} (step : FirstStep run generic classes callEnv defEnv)

/-- The selection of the first method. -/
def select : Eval Selection :=
  selectFound generic step.found step.search.classes callEnv defEnv

/-- `UseMethod` selects a function under a name, unless there is no memory for
that, and applies it. -/
def Selects (target : String × Ref) : Prop :=
  step.select.EndsUnlessFull step.middle ∧
    (∀ selection after, step.select step.middle = .ok selection after →
      selection.target = target) ∧
    ∀ call args, useMethod run generic step.object call args callEnv defEnv step.start =
      withRoots (do
        let selection ← step.select
        return some (← applyMethod run selection call args callEnv)) step.middle

/-- What was found stands first in the order. -/
theorem exists_at (hanswers : Answers (lookupMethod run callEnv defEnv) methods
      (candidates generic classes) step.start) :
    ∃ place left, methodOrder methods generic classes = place :: left ∧
      MethodMatch.At step.found step.search.classes place := by
  obtain ⟨last, hlooks⟩ := hanswers _ List.suffix_rfl
  obtain ⟨result, searched, hresult, hclasses, horder⟩ := findMethod_first hlooks
  cases hresult.symm.trans step.hfound
  cases hmethods : methodOrder methods generic classes with
  | nil =>
      rw [hmethods] at horder
      cases horder
  | cons place left =>
      rw [hmethods] at horder
      obtain ⟨matched, hmatched, hat⟩ := horder
      cases hmatched
      refine ⟨place, left, rfl, ?_⟩
      rw [hclasses]
      exact hat

variable (hrun : ∀ task, persistence.Settled (run task))

include hrun

theorem sound_middle : step.middle.Sound :=
  (precedes_of_allows (HeapLaw.settled_findMethod hrun _ _ _ _ _)
    (.value step.hfound)).sound step.hstart

theorem selects_of_at {place : MethodPlace}
    (hat : MethodMatch.At step.found step.search.classes place) :
    step.Selects place.target := by
  have hheap := (step.sound_middle hrun).heap
  refine ⟨endsUnlessFull_selectFound hheap, fun selection after hok => ?_, fun call args => ?_⟩
  · exact (selectFound_eq_ok hheap hat hok).1
  · exact (bind_of_ok (lift_of_ok step.hclasses)).trans (bind_of_ok step.hfound)

end FirstStep

/-- Where a call of `NextMethod` goes on from. -/
def Selection.resumePoint (selection : Selection) (texts : DispatchTexts)
    (name : String) :
    Eval.ResumePoint :=
  ⟨texts.classes, some selection.vars.group, texts.group, some texts.names, name⟩

namespace NextStep

open Eval Interpreter

variable {following : Selection}

variable {run : Runner} {selection : Selection} {env : Ref} {entry after : Interpreter}
  (step : NextStep run selection env entry)

/-- The selection of the next method. -/
def select : Eval Selection :=
  selectNext run step.next.generic step.symbol step.next.method

/-- The call is the selection of the next method and its application. -/
theorem resumeDispatch_eq : resumeDispatch run step.call env step.state = (do
    let following ← step.select
    applyMethod run following step.next.method.call step.args step.next.method.callEnv)
      step.ready :=
  (bind_of_ok step.hchecked).trans ((bind_of_ok step.hnamed).trans (bind_of_ok step.hready))

/-- The call selects a function under a name, unless there is no memory for
that, and applies it. -/
def Selects (target : String × Ref) : Prop :=
  step.select.EndsUnlessFull step.ready ∧
    ∀ following after, step.select step.ready = .ok following after → following.target = target ∧
      resumeDispatch run step.call env step.state =
        applyMethod run following step.next.method.call step.args step.next.method.callEnv after

/-- The call fails with an error. -/
def Fails (err : EvalError) : Prop :=
  ∃ after, callNextMethod run step.call env step.state = .error (.error err) after

theorem selects_of_eq {action : Eval Selection} {state : Interpreter} {target : String × Ref}
    (hsame : step.select step.ready = action state) (hends : action.EndsUnlessFull state)
    (htarget : ∀ following after, action state = .ok following after → following.target = target) :
    step.Selects target := by
  refine ⟨fun stop other herror => hends stop other (hsame.symm.trans herror), ?_⟩
  intro following after hok
  exact ⟨htarget following after (hsame.symm.trans hok),
    step.resumeDispatch_eq.trans (bind_of_ok hok)⟩

section Law

variable (hrun : ∀ task, persistence.Settled (run task))

include hrun

theorem fails_of_select {err : EvalError}
    (herror : step.select step.ready = .error (.error err) after) :
    step.Fails err := by
  have hresume := step.resumeDispatch_eq.trans (bind_of_error herror)
  have hends := (HeapLaw.protecting_resumeDispatch hrun step.call env) step.state
  have hroots := (hends.finish (.error hresume)).1.roots
  exact ⟨_, withRoots_of_error hresume hroots⟩

theorem precedes_checked : entry.Precedes step.checked :=
  step.hstate.trans
    (precedes_of_allows (HeapLaw.protecting_callingGeneric hrun _ _) (.value step.hchecked))

theorem precedes_ready : entry.Precedes step.ready := by
  have hnamed := precedes_of_allows (HeapLaw.settled_intern _) (.value step.hnamed)
  have hready := precedes_of_allows (HeapLaw.protecting_passedArgs hrun _ _) (.value step.hready)
  exact (step.precedes_checked hrun).trans (hnamed.trans hready)

variable {callEnv defEnv : Ref} {texts : DispatchTexts} {current : String}
  (hpoised : Poised callEnv defEnv selection env entry texts current)

include hpoised

/-- The call goes on with the generic, and looks for methods where it was
dispatched. -/
theorem next_eq :
    step.next.generic = texts.generic ∧ step.next.method.env = env ∧
    step.next.method.callEnv = callEnv ∧ step.next.method.defEnv = defEnv := by
  have hprotects := (step.precedes_checked hrun).protects hpoised.sound.heap hpoised.vars.generic
  have hnext := callingGeneric_eq_ok step.hbinds step.hbindsChecked hprotects step.hchecked
  rw [hpoised.callEnv, hpoised.defEnv] at hnext
  exact hnext

theorem select_eq : step.select step.ready = (do
    let (next, name, search) ←
      findNext run texts.generic step.symbol step.next.method (selection.resumePoint texts current)
    selectFollowing texts.generic step.next.method (selection.resumePoint texts current) next name
      search) step.ready := by
  obtain ⟨hgeneric, henv, -, -⟩ := step.next_eq hrun hpoised
  have hprecedes := step.precedes_ready hrun
  have hbinds : step.ready.Binds step.next.method.env selection.vars := by
    rw [henv]
    exact step.hbindsReady
  have hvars := hpoised.vars.mono hprecedes hpoised.sound.heap
  have hpoint : resumePoint run step.next.method step.ready =
      .ok (selection.resumePoint texts current) step.ready :=
    resumePoint_of_binds (hprecedes.sound hpoised.sound) hbinds hvars hpoised.names
  rw [select, hgeneric]
  exact bind_of_ok hpoint

/-! What was found is selected. -/

variable {next : Ref} {name : String} {search : MethodSearch} {found : Interpreter}
  (hfound : findNext run texts.generic step.symbol step.next.method
    (selection.resumePoint texts current) step.ready = .ok (next, name, search) found)

include hfound

omit hpoised in
theorem precedes_found : entry.Precedes found :=
  (step.precedes_ready hrun).trans
    (precedes_of_allows (HeapLaw.settled_findNext hrun _ _ _ _) (.value hfound))

theorem select_of_found : step.select step.ready =
    selectFollowing texts.generic step.next.method (selection.resumePoint texts current) next name
      search found := by
  rw [step.select_eq hrun hpoised, bind_of_ok hfound]

theorem select_eq_ok
    (hok : step.select step.ready = .ok following after) :
    following.target = (name, next) ∧
      following.vars.Describe after (texts.next name (search.classes.drop search.index)) ∧
      following.vars.callEnv = callEnv ∧ following.vars.defEnv = defEnv ∧ after.Sound ∧
      ∃ kept : Interpreter, kept.heap = found.heap ∧ next ∈ kept.roots.edges ∧
        kept.Precedes after := by
  obtain ⟨-, -, hcallEnv, hdefEnv⟩ := step.next_eq hrun hpoised
  have hprecedes := step.precedes_found hrun hfound
  have hheap := hprecedes.coherent hpoised.sound.heap
  have hgroup := hprecedes.protects hpoised.sound.heap hpoised.vars.group
  have hselect := (step.select_of_found hrun hpoised hfound).symm.trans hok
  have hafter := precedes_of_allows
    (HeapLaw.protecting_selectFollowing _ _ _ _ _ _) (.value hselect)
  have hsound := (hprecedes.trans hafter).sound hpoised.sound
  obtain ⟨htarget, hvars, hcall, hdef, hkept⟩ :=
    selectFollowing_eq_ok hheap rfl rfl hgroup hselect
  exact ⟨htarget, hvars, hcall.trans hcallEnv, hdef.trans hdefEnv, hsound, hkept⟩

/-- What was found is kept while it is selected. -/
theorem get?_of_select {object : HeapObject}
    (hok : step.select step.ready = .ok following after)
    (hget : found.heap.get? next = some object)
    (henv : ∀ env attributes, object ≠ ⟨.environment env, attributes⟩)
    (hpromise : ∀ deferred attributes, object ≠ ⟨.promise deferred, attributes⟩)
    :
    next ∈ after.roots.edges ∧ after.heap.get? next = some object := by
  obtain ⟨-, -, -, -, -, kept, hheap, hmem, hprecedes⟩ := step.select_eq_ok hrun hpoised hfound hok
  have hcoherent := (step.precedes_found hrun hfound).coherent hpoised.sound.heap
  rw [← hheap] at hget hcoherent
  exact ⟨hprecedes.edges_subset hmem,
    hprecedes.get? hcoherent (List.mem_append_right _ hmem) hget henv hpromise⟩

theorem selects_of_found : step.Selects (name, next) := by
  have hheap := (step.precedes_found hrun hfound).coherent hpoised.sound.heap
  have hselect := step.select_of_found hrun hpoised hfound
  apply step.selects_of_eq hselect (endsUnlessFull_selectFollowing hheap rfl)
  intro following after hok
  exact (step.select_eq_ok hrun hpoised hfound (hselect.trans hok)).1

/-- If what was found is a builtin, then no closure is entered. -/
theorem not_entered_of_builtin {builtin : Builtin}
    (hpayload : payload next found = .ok (.builtin builtin))
    (hselected : step.select step.ready = .ok following after)
    (entered : EnteredMethod following after) : False := by
  obtain ⟨attributes, hget⟩ := exists_get?_of_payload hpayload
  obtain ⟨hmem, hafter⟩ := step.get?_of_select hrun hpoised hfound hselected hget nofun nofun
  obtain ⟨htarget, -, -, -, hsound, -⟩ := step.select_eq_ok hrun hpoised hfound hselected
  have hmethod : following.method = next := congrArg Prod.snd htarget
  have hcalled := entered.precedes_called.get? hsound.heap (List.mem_append_right _ hmem) hafter
    nofun nofun
  have hclosure := entered.hclosure
  have hnone : closureAt? next entered.called = .ok none :=
    Query.bind_of_ok (payload_of_get? hcalled)
  rw [hmethod, hnone] at hclosure
  cases hclosure

end Law

end NextStep

/-! ## Walks -/

open Eval in
/-- A walk through the methods of a generic for a class vector: `UseMethod`
selects the first method, and each method calls `NextMethod` from its frame,
with whatever budget is left to it.  The answers to all lookups are those of one
table.  The methods that were entered are listed in order, the last of them
apart with its frame and the state in which it starts. -/
inductive Walk (hooks : Hooks) (methods : String → Option Ref) (generic : String)
    (classes : List String) (callEnv defEnv : Ref) :
    List Selection → Selection → Ref → Interpreter → Prop
  | first {budget : Nat} {selection : Selection} {after : Interpreter}
      (step : FirstStep (perform hooks budget) generic classes callEnv defEnv)
      (hanswers : Answers (lookupMethod (perform hooks budget) callEnv defEnv) methods
        (candidates generic classes) step.start)
      (hselected : step.select step.middle = .ok selection after)
      (entered : EnteredMethod selection after) :
      Walk hooks methods generic classes callEnv defEnv [] selection entered.env entered.entry
  | next {budget : Nat} {earlier : List Selection} {selection following : Selection} {env : Ref}
      {entry after : Interpreter}
      (hwalk : Walk hooks methods generic classes callEnv defEnv earlier selection env entry)
      (step : NextStep (perform hooks budget) selection env entry)
      (hanswers : Answers (lookupMethod (perform hooks budget) callEnv defEnv) methods
        (candidates generic classes) step.ready)
      (hselected : step.select step.ready = .ok following after)
      (entered : EnteredMethod following after) :
      Walk hooks methods generic classes callEnv defEnv (earlier ++ [selection]) following
        entered.env entered.entry

section Order

open Eval Interpreter

variable {run : Runner} {methods : String → Option Ref} {generic : String} {classes : List String}
  {callEnv defEnv : Ref} {selection following : Selection} {env : Ref} {entry after : Interpreter}
  {place : MethodPlace} {left : List MethodPlace}

/-- The frame of a method that is entered says what was said when it was
selected. -/
theorem poised_of_entered {texts : DispatchTexts} {name : String} (hsound : after.Sound)
    (hvars : selection.vars.Describe after texts) (hnames : SoleName name texts.names)
    (hcallEnv : selection.vars.callEnv = callEnv) (hdefEnv : selection.vars.defEnv = defEnv)
    (entered : EnteredMethod selection after) :
    Poised callEnv defEnv selection entered.env entered.entry texts name :=
  ⟨entered.precedes_entry.sound hsound, entered.binds_entry hsound,
    hvars.mono entered.precedes_entry hsound.heap, hnames, hcallEnv, hdefEnv⟩

/-- The method that `UseMethod` selects stands first. -/
theorem stands_of_first (hrun : ∀ task, persistence.Settled (run task))
    (step : FirstStep run generic classes callEnv defEnv) (hanswers : Answers
    (lookupMethod run callEnv defEnv) methods (candidates generic classes)
    step.start) (hselected : step.select step.middle = .ok selection after)
    (entered : EnteredMethod selection after) :
    ∃ place left, methodOrder methods generic classes = place :: left ∧
      Stands methods generic classes callEnv defEnv selection entered.env
        entered.entry place
        left := by
  obtain ⟨place, left, horder, hat⟩ := step.exists_at hanswers
  have hmiddle := step.sound_middle hrun
  have hafter := (precedes_of_allows (HeapLaw.protecting_selectFound _ _ _ _ _)
    (.value hselected)).sound hmiddle
  obtain ⟨htarget, hvars, hcallEnv, hdefEnv⟩ := selectFound_eq_ok hmiddle.heap hat hselected
  have hplace := inOrder_of_eq_cons List.suffix_rfl horder
  have hnames := MethodPlace.soleName_texts hplace.name_ne_empty generic
  exact ⟨place, left, horder,
    poised_of_entered hafter hvars hnames hcallEnv hdefEnv entered, hplace,
    htarget⟩

section Next

variable (hrun : ∀ task, persistence.Settled (run task)) (step : NextStep run selection env entry)

include hrun

/-- The frame of the method that `NextMethod` selects says that it is what was
found. -/
theorem poised_of_next {texts : DispatchTexts} {current : String}
    (hpoised : Poised callEnv defEnv selection env entry texts current)
    {places : List MethodPlace} (hfinds : FindsNext run methods texts.generic
    step.symbol step.next.method step.ready (findNext run texts.generic
    step.symbol step.next.method (selection.resumePoint texts current)
    step.ready) places)
    (hnames : ∀ {place left}, places = place :: left → place.name ≠ "")
    (hselected : step.select step.ready = .ok following after)
    (entered : EnteredMethod following after) :
    ∃ place left, places = place :: left ∧ following.target = place.target ∧
      Poised callEnv defEnv following entered.env entered.entry
        (texts.next place.name place.classes)
        place.name := by
  cases hfinds with
  | @following place left searched found hclasses hfound =>
      obtain ⟨htarget, hvars, hcallEnv, hdefEnv, hsound, -⟩ :=
        step.select_eq_ok hrun hpoised hfound hselected
      rw [hclasses] at hvars
      have hname := hpoised.names.next (hnames rfl)
      exact ⟨place, left, rfl, htarget,
        poised_of_entered hsound hvars hname hcallEnv hdefEnv entered⟩
  | @last names searched asked hasked hnone hclasses hresult =>
      -- After the last method no closure is entered any more: what is selected
      -- is a builtin.
      exfalso
      obtain ⟨⟨next, name, search⟩, found, hfound, -⟩ :=
        bind_eq_ok ((step.select_eq hrun hpoised).symm.trans hselected)
      obtain ⟨fn, _, hbuiltin, hreturn⟩ := bind_eq_ok (hresult.symm.trans hfound)
      cases hreturn
      obtain ⟨builtin, hpayload⟩ := genericBuiltin_eq_ok hbuiltin
      exact step.not_entered_of_builtin hrun hpoised hfound hpayload hselected entered

variable (hstands : Stands methods generic classes callEnv defEnv selection env entry place left)

include hstands

theorem findsNext_of_stands (hdefault : "default" ∉ classes)
    (hanswers : Answers (lookupMethod run callEnv defEnv) methods (candidates generic classes)
      step.ready) :
    FindsNext run methods generic step.symbol step.next.method step.ready
      (findNext run generic step.symbol step.next.method
        (selection.resumePoint (place.texts generic) place.name) step.ready) left := by
  obtain ⟨-, -, hcallEnv, hdefEnv⟩ := step.next_eq hrun hstands.toPoised
  rw [← hcallEnv, ← hdefEnv] at hanswers
  exact findsNext_of_inOrder hstands.inOrder hdefault rfl rfl rfl hanswers

/-- The method that `NextMethod` selects stands next in the order. -/
theorem stands_of_next (hdefault : "default" ∉ classes) (hanswers : Answers
    (lookupMethod run callEnv defEnv) methods (candidates generic classes)
    step.ready) (hselected : step.select step.ready = .ok following after)
    (entered : EnteredMethod following after) :
    ∃ nextPlace rest, left = nextPlace :: rest ∧
      Stands methods generic classes callEnv defEnv following entered.env
        entered.entry nextPlace
        rest := by
  have hfinds := findsNext_of_stands hrun step hstands hdefault hanswers
  have hplace := hstands.inOrder
  have hnames : ∀ {nextPlace rest}, left = nextPlace :: rest → nextPlace.name ≠ "" := by
    intro nextPlace rest hleft
    rw [hleft] at hplace
    exact hplace.next.name_ne_empty
  obtain ⟨nextPlace, rest, rfl, htarget, hpoised⟩ :=
    poised_of_next hrun step hstands.toPoised hfinds hnames hselected entered
  rw [MethodPlace.next_texts hplace.name_ne_empty] at hpoised
  exact ⟨nextPlace, rest, rfl, hpoised, hplace.next, htarget⟩

end Next

/-- Along a walk the methods come in their order. -/
theorem Walk.stands {hooks : Hooks}
    (hperform : ∀ budget task, persistence.Settled (perform hooks budget task))
    (hdefault : "default" ∉ classes) {earlier : List Selection}
    (hwalk : Walk hooks methods generic classes callEnv defEnv earlier selection env entry) :
    ∃ done place left, methodOrder methods generic classes = done ++ place :: left ∧
      (earlier ++ [selection]).map Selection.target = (done ++ [place]).map MethodPlace.target ∧
      Stands methods generic classes callEnv defEnv selection env entry place left := by
  induction hwalk with
  | first step hanswers hselected entered =>
      obtain ⟨place, left, horder, hstands⟩ :=
        stands_of_first (hperform _) step hanswers hselected entered
      exact ⟨[], place, left, horder, congrArg (fun target => [target]) hstands.target, hstands⟩
  | next hwalk step hanswers hselected entered ih =>
      obtain ⟨done, place, left, horder, htargets, hstands⟩ := ih
      obtain ⟨nextPlace, rest, rfl, hnext⟩ :=
        stands_of_next (hperform _) step hstands hdefault hanswers hselected entered
      refine ⟨done ++ [place], nextPlace, rest, ?_, ?_, hnext⟩
      · rw [horder, List.append_assoc, List.singleton_append]
      · simp only [List.map_append, List.map_singleton] at htargets ⊢
        rw [htargets, hnext.target]

end Order

/-! ## The last method -/

section Outcome

open Eval Interpreter

variable {hooks : Hooks} {budget : Nat} {selection : Selection} {env : Ref} {entry : Interpreter}

/-- How a call of `NextMethod` ends after the last method, given what the name
of the generic resolves to from the frame of the method: a builtin is selected
under the name of the default, and applied under it, so that it does not
dispatch again if it is eager; everything else is an error. -/
inductive NextStep.AfterLast (step : NextStep (perform hooks (budget + 1)) selection env entry)
    (generic : String) : Option Ref → Interpreter → Prop
  | missing {found : Interpreter} (hfails : step.Fails (.noMoreMethods generic)) :
      AfterLast step generic none found
  | closure {fn : Ref} {closure : Closure} {found : Interpreter}
      (hpayload : payload fn found = .ok (.closure closure))
      (hfails : step.Fails .noMethodToInvoke) : AfterLast step generic (some fn) found
  | builtin {fn : Ref} {builtin : Builtin} {found : Interpreter}
      (hpayload : payload fn found = .ok (.builtin builtin))
      (hselects : step.Selects (methodName generic "default", fn))
      (hruns : builtin.role ≠ .special → ∀ following after,
        step.select step.ready = .ok following after → ∃ (renamed : Expr) (called : Interpreter),
          renamed.callHead?.map called.symbolName = some (methodName generic "default") ∧
          resumeDispatch (perform hooks (budget + 1)) step.call env step.state =
            runForced hooks (perform hooks budget) builtin renamed step.args
              step.next.method.callEnv called) :
      AfterLast step generic (some fn) found

/-- How a call of `NextMethod` goes on, given what follows in the order.  After
the last method, the builtin is looked for once no method was found any more. -/
inductive NextStep.GoesOn (step : NextStep (perform hooks (budget + 1)) selection env entry)
    (methods : String → Option Ref) (generic : String) (callEnv defEnv : Ref) :
    List MethodPlace → Prop
  | following {place : MethodPlace} {left : List MethodPlace}
      (hselects : step.Selects place.target) :
      GoesOn step methods generic callEnv defEnv (place :: left)
  | last {names : List String} {asked : Interpreter}
      (hasked : LooksUp (lookupMethod (perform hooks (budget + 1)) callEnv defEnv) methods names
        step.ready asked)
      (hnames : ∀ name ∈ names, methods name = none)
      (hends : ∀ resolved found,
        findFun? (perform hooks (budget + 1)) step.symbol env asked = .ok resolved found →
        step.AfterLast generic resolved found) :
      GoesOn step methods generic callEnv defEnv []

variable {methods : String → Option Ref} {callEnv defEnv : Ref} {texts : DispatchTexts}
  {current : String} (hbudget : ∀ task, persistence.Settled (perform hooks budget task))
  (hrun : ∀ task, persistence.Settled (perform hooks (budget + 1) task))
  (hpoised : Poised callEnv defEnv selection env entry texts current)
  (step : NextStep (perform hooks (budget + 1)) selection env entry)

include hbudget hrun hpoised

/-- The builtin that was found at last is applied under the name of the default. -/
theorem afterLast_of_builtin {fn : Ref} {search : MethodSearch}
    {found : Interpreter}
    (hfound : findNext (perform hooks (budget + 1)) texts.generic step.symbol
      step.next.method (selection.resumePoint texts current) step.ready =
      .ok (fn, methodName texts.generic "default", search) found)
    {builtin : Builtin} (hpayload : payload fn found = .ok (.builtin builtin)) :
    step.AfterLast texts.generic (some fn) found := by
  have hselects := step.selects_of_found hrun hpoised hfound
  refine .builtin hpayload hselects fun hrole following after hselected => ?_
  obtain ⟨attributes, hget⟩ := exists_get?_of_payload hpayload
  have hafter := (step.get?_of_select hrun hpoised hfound hselected hget nofun nofun).2
  obtain ⟨htarget, hresume⟩ := hselects.2 following after hselected
  have hname : following.name = methodName texts.generic "default" := congrArg Prod.fst htarget
  have hmethod : following.method = fn := congrArg Prod.snd htarget
  rw [← hmethod] at hafter
  rw [hresume, ← hname]
  exact applyMethod_of_builtin hbudget hname hafter hrole _ _ _

/-- The call goes on as the search for the next method does. -/
theorem goesOn_of_findsNext {places : List MethodPlace} (hfinds : FindsNext
    (perform hooks (budget + 1)) methods texts.generic step.symbol
    step.next.method step.ready (findNext (perform hooks (budget + 1))
    texts.generic step.symbol step.next.method
    (selection.resumePoint texts current) step.ready) places) :
    step.GoesOn methods texts.generic callEnv defEnv places := by
  obtain ⟨-, henv, hcallEnv, hdefEnv⟩ := step.next_eq hrun hpoised
  have hselect := step.select_eq hrun hpoised
  cases hfinds with
  | following hclasses hfound => exact .following (step.selects_of_found hrun hpoised hfound)
  | @last names searched asked hasked hnames hclasses hresult =>
      rw [hcallEnv, hdefEnv] at hasked
      rw [henv] at hresult
      refine .last hasked hnames fun resolved found hresolved => ?_
      -- An error of the search is the error of the call.
      have hfails : ∀ {err : EvalError}, genericBuiltin (perform hooks (budget + 1)) texts.generic
          step.symbol env asked = .error (.error err) found → step.Fails err := by
        intro err herror
        have hfind := hresult.trans (bind_of_error herror)
        exact step.fails_of_select hrun (hselect.trans (bind_of_error hfind))
      cases resolved with
      | none => exact .missing (hfails (genericBuiltin_of_none hresolved))
      | some fn =>
          obtain ⟨object, hpayload, hfunction⟩ := isFunction_of_findFun? hresolved
          cases object with
          | closure closure =>
              exact .closure hpayload (hfails (genericBuiltin_of_closure hresolved hpayload))
          | builtin builtin =>
              have hfound := hresult.trans
                (bind_of_ok (genericBuiltin_of_builtin hresolved hpayload))
              exact afterLast_of_builtin hbudget hrun hpoised step hfound hpayload
          | _ => cases hfunction

end Outcome

open Eval in
/-- **Methods are selected in their order.**  Let the hooks keep to the law of
persistence whenever the evaluation does that they call, and let no class be
called `default`.

If `UseMethod` dispatches, then it selects and applies the first method in the
order.  Let then `UseMethod` and, again and again, `NextMethod` have selected
methods by the answers of one table.  These are the first methods in the order,
each selected under its own name: the methods of the classes that have one, from
the first class to the last, and then the default.  The last of them finds in
its frame its name and, unless it is the default, the classes from its own on.
If it calls `NextMethod`, then the method that follows is selected.  If there is
none, then this is the builtin of the generic's name, or else the call fails. -/
theorem methods_selected_in_order (hooks : Hooks)
    (hhooks : ∀ budget, (∀ task, persistence.Settled (perform hooks budget task)) →
      hooks.Allowed (persistence.effect .settled) (perform hooks budget))
    (methods : String → Option Ref) (generic : String) {classes : List String}
    (hdefault : "default" ∉ classes) (callEnv defEnv : Ref) :
    (∀ budget, ∀ step : FirstStep (perform hooks budget) generic classes callEnv defEnv,
      Answers (lookupMethod (perform hooks budget) callEnv defEnv) methods
        (candidates generic classes) step.start →
      ∃ place left, methodOrder methods generic classes = place :: left ∧
        step.Selects place.target) ∧
    ∀ {earlier selection env entry},
      Walk hooks methods generic classes callEnv defEnv earlier selection env entry →
      ∃ done place left, methodOrder methods generic classes = done ++ place :: left ∧
        (earlier ++ [selection]).map Selection.target = (done ++ [place]).map MethodPlace.target ∧
        dispatchStrings? env entry.reserved.dotMethod entry = .ok (some [place.name]) ∧
        (place.classes ≠ [] →
          dispatchStrings? env entry.reserved.dotClass entry = .ok (some place.classes)) ∧
        ∀ budget, ∀ step : NextStep (perform hooks (budget + 1)) selection env entry,
          Answers (lookupMethod (perform hooks (budget + 1)) callEnv defEnv) methods
            (candidates generic classes) step.ready →
          step.next.generic = generic ∧ step.GoesOn methods generic callEnv defEnv left := by
  have hperform := HeapLaw.settled_perform hhooks
  constructor
  · intro budget step hanswers
    obtain ⟨place, left, horder, hat⟩ := step.exists_at hanswers
    exact ⟨place, left, horder, step.selects_of_at (hperform budget) hat⟩
  · intro earlier selection env entry hwalk
    obtain ⟨done, place, left, horder, htargets, hstands⟩ := hwalk.stands hperform hdefault
    refine ⟨done, place, left, horder, htargets, ?_, ?_, ?_⟩
    · exact dispatchStrings?_of_protects hstands.binds.method hstands.vars.method
    · intro hclasses
      rcases hstands.vars.classes with hprotects | ⟨-, hnone⟩
      · exact dispatchStrings?_of_protects hstands.binds.classes hprotects
      · exact absurd hnone hclasses
    · intro budget step hanswers
      have hrun := hperform (budget + 1)
      have hfinds := findsNext_of_stands hrun step hstands hdefault hanswers
      exact ⟨(step.next_eq hrun hstands.toPoised).1,
        goesOn_of_findsNext (hperform budget) hrun hstands.toPoised step hfinds⟩

/-! ## Computing a walk -/

namespace Eval

/-- The value with which a step ends, if it does. -/
def value? {α : Type} (action : Eval α) (state : Interpreter) :
    Option { result : α × Interpreter // action state = .ok result.1 result.2 } :=
  match action state with
  | .ok value after => some ⟨(value, after), rfl⟩
  | .error _ _ => none

/-- The answer of a query, if it has one. -/
def answer? {α : Type} (query : Query α) (state : Interpreter) :
    Option { value : α // query state = .ok value } :=
  match query state with
  | .ok value => some ⟨value, rfl⟩
  | .error _ => none

/-- Whether names are answered as by a table, until a method is found. -/
def answersAs (lookup : String → Eval (Option Ref)) (methods : String → Option Ref) :
    List String → Interpreter → Bool
  | [], _ => true
  | name :: rest, state =>
    match lookup name state with
    | .ok (some found) _ => methods name = some found
    | .ok none after => methods name = none && answersAs lookup methods rest after
    | .error _ _ => false

variable {lookup : String → Eval (Option Ref)} {methods : String → Option Ref} {names : List String}
  {state : Interpreter}

theorem exists_looksUp (hanswers : answersAs lookup methods names state = true)
    :
    ∃ after, LooksUp lookup methods names state after := by
  induction names generalizing state with
  | nil => exact ⟨state, .done state⟩
  | cons name rest ih =>
      rw [answersAs] at hanswers
      split at hanswers
      · next found after hok => exact ⟨after, .found (of_decide_eq_true hanswers) hok⟩
      · next after hok =>
          obtain ⟨hnone, hrest⟩ := Bool.and_eq_true_iff.mp hanswers
          obtain ⟨last, hlooks⟩ := ih hrest
          exact ⟨last, .passed (of_decide_eq_true hnone) hok hlooks⟩
      · cases hanswers

/-- Whether names are answered as by a table, from wherever the asking starts. -/
def answersFrom (lookup : String → Eval (Option Ref))
    (methods : String → Option Ref) (names : List String) (state : Interpreter)
    : Bool :=
  names.tails.all fun rest => answersAs lookup methods rest state

theorem answers_of_answersFrom
    (hanswers : answersFrom lookup methods names state = true) :
    Answers lookup methods names state := by
  intro rest hrest
  exact exists_looksUp (List.all_eq_true.mp hanswers rest ((List.mem_tails _ _).mpr hrest))

/-- Whether a frame binds the dispatch variables. -/
def bindsVars (env : Ref) (vars : DispatchVars) (state : Interpreter) : Bool :=
  (vars.bindings state.reserved).all fun (symbol, value) =>
    match frameValue? env symbol state with
    | .ok found => found = some value
    | .error _ => false

theorem binds_of_bindsVars {env : Ref} {vars : DispatchVars}
    (hbinds : bindsVars env vars state = true) : state.Binds env vars := by
  apply Interpreter.Binds.of_bindings
  intro symbol value hmem
  have hvalue := List.all_eq_true.mp hbinds (symbol, value) hmem
  dsimp only at hvalue
  split at hvalue
  · next found hfound => rw [hfound, of_decide_eq_true hvalue]
  · cases hvalue

end Eval

open Eval in
/-- Enters a selected closure. -/
def EnteredMethod.of? (selection : Selection) (call : Expr) (args : List Arg) (caller : Ref)
    (state : Interpreter) : Option (EnteredMethod selection state) := do
  let ⟨(head, named), hnamed⟩ ← value? (intern selection.name) state
  let ⟨(renamed, called), hcalled⟩ ← value? (renamedCall head call) named
  match ← answer? (closureAt? selection.method) called with
  | ⟨none, _⟩ => none
  | ⟨some closure, hclosure⟩ =>
    if hformals : ∀ formal ∈ closure.formals, formal.name ∉ called.reserved.dispatchSymbols then
      let ⟨matched, hmatched⟩ ← answer? (matchCall renamed closure.formals args) called
      let ⟨(_, begun), hbegun⟩ ← value? (beginContext ⟨.function, renamed, selection.method, caller,
        none, args, called.roots.depth⟩) called
      let ⟨(env, entry), hentry⟩ ← value? (enterClosure closure matched
        (selection.vars.bindings called.reserved)) begun
      return {
        call, args, caller, head, named, hnamed, renamed, called, hcalled,
          closure, hclosure, hformals,
        matched, hmatched, begun, hbegun, env, entry, hentry }
    else none

open Eval in
/-- Calls `NextMethod` as soon as a method starts. -/
def NextStep.of? (run : Runner) (selection : Selection) (call : Expr) (env : Ref)
    (entry : Interpreter) : Option (NextStep run selection env entry) := do
  let ⟨(next, checked), hchecked⟩ ← value? (callingGeneric run call env) entry
  let ⟨(symbol, named), hnamed⟩ ← value? (intern next.generic) checked
  let ⟨(args, ready), hready⟩ ← value? (passedArgs run symbol next) named
  if hbinds : bindsVars env selection.vars entry = true ∧
      bindsVars env selection.vars checked = true ∧
      bindsVars env selection.vars ready = true then
    return {
      call, state := entry, hstate := .refl entry, hbinds := binds_of_bindsVars hbinds.1,
      next, checked, hchecked, hbindsChecked := binds_of_bindsVars hbinds.2.1,
      symbol, named, hnamed, args, ready, hready, hbindsReady := binds_of_bindsVars hbinds.2.2 }
  else none

/-- A walk with its methods. -/
structure Walked (hooks : Hooks) (generic : String) (classes : List String) where
  methods : String → Option Ref
  callEnv : Ref
  defEnv : Ref
  earlier : List Selection
  selection : Selection
  env : Ref
  entry : Interpreter
  walk : Walk hooks methods generic classes callEnv defEnv earlier selection env entry

namespace Walked

open Eval

variable {hooks : Hooks} {generic : String} {classes : List String}

/-- Goes on by a call of `NextMethod`. -/
def next? (walked : Walked hooks generic classes) (budget : Nat) (call : Expr) :
    Option (Walked hooks generic classes) := do
  let run := perform hooks budget
  let step ← NextStep.of? run walked.selection call walked.env walked.entry
  if hanswers : answersFrom (lookupMethod run walked.callEnv walked.defEnv) walked.methods
      (candidates generic classes) step.ready = true then
    let ⟨(following, after), hselected⟩ ← value? step.select step.ready
    let entered ← EnteredMethod.of? following step.next.method.call step.args
      step.next.method.callEnv after
    return {
      walked with
      earlier := walked.earlier ++ [walked.selection], selection := following, env := entered.env,
      entry := entered.entry,
      walk := .next walked.walk step (answers_of_answersFrom hanswers) hselected entered }
  else none

/-- Begins by a call of `UseMethod` on an object.  The table answers as the
lookups do at the start. -/
def first? (hooks : Hooks) (budget : Nat) (generic : String) (classes : List String)
    (object callEnv defEnv : Ref) (call : Expr) {start : Interpreter} (hstart : start.Sound) :
    Option (Walked hooks generic classes) := do
  let run := perform hooks budget
  let methods := fun name =>
    match lookupMethod run callEnv defEnv name start with
    | .ok found _ => found
    | .error _ _ => none
  let ⟨found, hfound⟩ ← answer? (classVector object) start
  if hclasses : found = classes then
    match ← value? (findMethod run (.start generic none classes) callEnv defEnv 0 true) start with
    | ⟨((none, _), _), _⟩ => none
    | ⟨((some found, search), middle), hsearch⟩ =>
      let step : FirstStep run generic classes callEnv defEnv := {
        object, start, hstart, hclasses := hclasses ▸ hfound, found, search, middle,
        hfound := hsearch }
      if hanswers : answersFrom (lookupMethod run callEnv defEnv) methods
          (candidates generic classes) start = true then
        let ⟨(selection, after), hselected⟩ ← value? step.select step.middle
        let entered ← EnteredMethod.of? selection call [⟨none, some object⟩] callEnv after
        return {
          methods, callEnv, defEnv, earlier := [], selection, env := entered.env,
          entry := entered.entry,
          walk := .first step (answers_of_answersFrom hanswers) hselected entered }
      else none
  else none

end Walked

section Witness

open Eval Interpreter

/-- A program leaves a sound state. -/
theorem sound_of_program {config : Config} {symbols : SymbolTable} {term : Term} {expr : Expr}
    {state resolved after : Interpreter} {env value : Ref} {budget : Nat}
    (hstart : start config symbols = .ok state) (hresolved : resolve term state = .ok expr resolved)
    (hok : perform {} budget (.eval expr env) resolved = .ok value after) : after.Sound := by
  have hsound := sound_start hstart
  have hprepared : resolved.Sound := by
    cases hresolved
    exact ⟨hsound.heap, hsound.null, hsound.symbols⟩
  exact (precedes_of_allows (persistence_perform budget _) (.value hok)).sound hprepared

/-- Two methods of `length` that go on to the next one, and an object with three
classes. -/
def lengthTerm : Term :=
  let method := .function [("x", none)] (.call (.symbol "NextMethod") [])
  .block [.assign .here "length.a" method, .assign .here "length.c" method,
    .call (.symbol "class<-") [(none, .literal (.string "x")), (none, .call (.symbol "c")
      [(none, .literal (.string "a")), (none, .literal (.string "b")),
        (none, .literal (.string "c"))])]]

/-- A call without arguments. -/
def bareCall : Expr := .call 0 (.symbol 0 ⟨0⟩) []

/-- The walk through both methods, of which the second one has less budget left. -/
def lengthWalk : Option (Walked {} "length" ["a", "b", "c"]) :=
  match hstart : start smallConfig .empty with
  | .error _ => none
  | .ok state => do
    let ⟨(expr, resolved), hresolved⟩ ← value? (resolve lengthTerm) state
    let ⟨(object, before), hbefore⟩ ←
      value? (perform {} 40 (.eval expr resolved.fixed.global)) resolved
    let walked ← Walked.first? {} 40 "length" ["a", "b", "c"] object before.fixed.global
      before.fixed.base bareCall (sound_of_program hstart hresolved hbefore)
    walked.next? 38 bareCall

/-- Whether a walk has come to the second method, and `NextMethod` can be called
there once more. -/
def lengthWalked (walked : Walked {} "length" ["a", "b", "c"]) : Bool :=
  (walked.earlier ++ [walked.selection]).map (·.name) = ["length.a", "length.c"] &&
  (methodOrder walked.methods "length" ["a", "b", "c"]).map (·.classes) =
    [["a", "b", "c"], ["c"]] &&
  (NextStep.of? (perform {} 36) walked.selection bareCall walked.env walked.entry).any fun step =>
    answersFrom (lookupMethod (perform {} 36) walked.callEnv walked.defEnv) walked.methods
      (candidates "length" ["a", "b", "c"]) step.ready

set_option maxRecDepth 1000000 in
theorem exists_lengthWalk : ∃ walked, ∃ step : NextStep (perform {} 36) walked.selection walked.env
      walked.entry, lengthWalk = some walked ∧
    (walked.earlier ++ [walked.selection]).map (·.name) = ["length.a", "length.c"] ∧
    (methodOrder walked.methods "length" ["a", "b", "c"]).map (·.classes) =
      [["a", "b", "c"], ["c"]] ∧
    Answers (lookupMethod (perform {} 36) walked.callEnv walked.defEnv) walked.methods
      (candidates "length" ["a", "b", "c"]) step.ready := by
  have hcheck : lengthWalk.any lengthWalked = true := by decide +kernel
  obtain ⟨walked, hwalked, hpasses⟩ := (Option.any_eq_true _ _).mp hcheck
  obtain ⟨hfirst, hlast⟩ := Bool.and_eq_true_iff.mp hpasses
  obtain ⟨hnames, hclasses⟩ := Bool.and_eq_true_iff.mp hfirst
  obtain ⟨step, -, hanswers⟩ := (Option.any_eq_true _ _).mp hlast
  exact ⟨walked, step, hwalked, of_decide_eq_true hnames, of_decide_eq_true hclasses,
    answers_of_answersFrom hanswers⟩

/-- The class between the two methods is passed over, and after the second comes
no other method. -/
theorem methods_selected_in_order_length :
    ∃ walked : Walked {} "length" ["a", "b", "c"],
      ∃ step : NextStep (perform {} 36) walked.selection walked.env walked.entry,
      "default" ∉ ["a", "b", "c"] ∧
      (walked.earlier ++ [walked.selection]).map (·.name) = ["length.a", "length.c"] ∧
      dispatchStrings? walked.env walked.entry.reserved.dotClass walked.entry = .ok (some ["c"]) ∧
      Answers (lookupMethod (perform {} 36) walked.callEnv walked.defEnv) walked.methods
        (candidates "length" ["a", "b", "c"]) step.ready ∧ step.next.generic = "length" ∧
      step.GoesOn walked.methods "length" walked.callEnv walked.defEnv [] := by
  obtain ⟨walked, step, -, hnames, hclasses, hanswers⟩ := exists_lengthWalk
  have hdefault : "default" ∉ ["a", "b", "c"] := by decide
  have hselected := methods_selected_in_order {} (fun _ _ => Hooks.allowed_empty _ _)
    walked.methods "length" hdefault walked.callEnv walked.defEnv
  obtain ⟨done, place, left, horder, htargets, -, hclass, hnext⟩ := hselected.2 walked.walk
  have hlength : done.length = 1 := by
    have htwo := congrArg List.length hnames
    have hsame := congrArg List.length htargets
    simp only [List.length_map, List.length_append, List.length_cons, List.length_nil] at htwo hsame
    omega
  obtain ⟨first, rfl⟩ := List.length_eq_one_iff.mp hlength
  rw [horder] at hclasses
  simp only [List.cons_append, List.nil_append, List.map_cons, List.cons.injEq, List.map_eq_nil_iff]
    at hclasses
  obtain ⟨-, hplace, rfl⟩ := hclasses
  rw [hplace] at hclass
  obtain ⟨hgeneric, hlast⟩ := hnext 35 step hanswers
  exact ⟨walked, step, hdefault, hnames, hclass (List.cons_ne_nil _ _), hanswers, hgeneric, hlast⟩

end Witness

end LazyDispatch
