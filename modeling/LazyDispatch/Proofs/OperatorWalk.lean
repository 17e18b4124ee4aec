import LazyDispatch.Proofs.OperatorPlaces

/-!
# Walking through the methods of an operator

An operator selects a method, which may call `NextMethod` from its frame, and so
on.  The methods that were entered make a walk, and each of them stands at a
place of the operator.  Each call of `NextMethod` comes to the place that
follows: to one further along the classes, or, from an own method that was found
in the group, to the same place again.
-/

namespace LazyDispatch

/-- A method that was entered stands at a place of the operator, and its frame
says so. -/
structure OperatorStands (methods : String → Option Ref)
    (generic group : String) (classes : List String) (callEnv defEnv : Ref)
    (selection : Selection) (env : Ref) (entry : Interpreter)
    (place : OperatorPlace) : Prop where
  of : place.Of methods generic group classes
  target : selection.target = place.target
  poised : ∃ names, Poised callEnv defEnv selection env entry
    ⟨generic, place.classes, names, place.group⟩ place.name

open Eval in
/-- A walk through the methods of an operator for the class vector of an
operand: the operator selects the first method, and each method calls
`NextMethod` from its frame, with whatever budget is left to it.  The answers to
all lookups are those of one table.  The methods that were entered are listed in
order, the last of them apart with its frame and the state in which it starts. -/
inductive OperatorWalk (hooks : Hooks) (methods : String → Option Ref) (builtin : Builtin)
    (group : String) (classes : List String) (callEnv defEnv : Ref) :
    List Selection → Selection → Ref → Interpreter → Prop
  | first {budget : Nat} {selection : Selection} {args : List Arg} {selected after : Interpreter}
      (step : OperatorStep (perform hooks budget) builtin group classes callEnv defEnv)
      (hanswers : OperandsAnswer (perform hooks budget) methods builtin.name group callEnv
        step.operands step.start)
      (hselected : step.select step.decided = .ok selection selected)
      (hargs : forcedPromiseArgs step.call step.args selected = .ok args after)
      (entered : EnteredMethod selection after) :
      OperatorWalk hooks methods builtin group classes callEnv defEnv [] selection entered.env
        entered.entry
  | next {budget : Nat} {earlier : List Selection}
      {selection following : Selection} {env : Ref} {entry after : Interpreter}
      (hwalk : OperatorWalk hooks methods builtin group classes callEnv defEnv
        earlier selection env entry)
      (step : NextStep (perform hooks budget) selection env entry)
      (hanswers : AnswersInGroup
        (lookupMethod (perform hooks budget) callEnv defEnv) methods
        builtin.name group classes step.ready)
      (hselected : step.select step.ready = .ok following after)
      (entered : EnteredMethod following after) : OperatorWalk hooks methods
      builtin group classes callEnv defEnv (earlier ++ [selection]) following
      entered.env entered.entry

section Order

open Eval Interpreter

variable {run : Runner} {methods : String → Option Ref} {builtin : Builtin} {group : String}
  {classes : List String} {callEnv defEnv : Ref} {selection following : Selection} {env : Ref}
  {entry after : Interpreter} {place : OperatorPlace}
  (hrun : ∀ task, persistence.Settled (run task)) (hgroup : group ≠ "")

include hrun hgroup

/-- The method that the operator selects stands first. -/
theorem operatorStands_of_first (step : OperatorStep run builtin group classes callEnv defEnv)
    (hanswers : OperandsAnswer run methods builtin.name group callEnv step.operands step.start)
    {args : List Arg} {selected : Interpreter}
    (hselected : step.select step.decided = .ok selection selected)
    (hargs : forcedPromiseArgs step.call step.args selected = .ok args after)
    (entered : EnteredMethod selection after) :
    ∃ found, classPlace? methods builtin.name (some group) classes = some found ∧
      OperatorStands methods builtin.name group classes callEnv defEnv selection entered.env
        entered.entry (found.first group) := by
  obtain ⟨found, hfound, hmem, hname, hmethod, hmatch, hdrop⟩ := step.exists_place hgroup hanswers
  have hdecided := step.precedes_decided hrun
  have hsound := hdecided.sound step.hstart
  have hplace := of_classPlace? hfound
  have hselect := precedes_of_allows (HeapLaw.protecting_selectOperator _ _ _ _ _ _)
    (.value hselected)
  have hpromised := precedes_of_allows (HeapLaw.protecting_forcedPromiseArgs _ _) (.value hargs)
  have hselectedSound := hselect.sound hsound
  obtain ⟨htarget, hvars, hcallEnv, hdefEnv⟩ := selectOperator_eq_ok hsound.heap hselected
  rw [hdecided.persists.fixed, step.hdefEnv] at hdefEnv
  rw [hname, hmethod] at htarget
  rw [hname, hmatch, hdrop] at hvars
  refine ⟨found, hfound, hplace, htarget, _, poised_of_entered (hpromised.sound hselectedSound)
    (hvars.mono hpromised hselectedSound.heap) ?_ hcallEnv hdefEnv entered⟩
  exact soleName_operandNames hplace.name_ne_empty hmem (mem_of_drop hfound hdrop)

variable (hdistinct : ∀ cls other, methodName group cls ≠ methodName builtin.name other)
  (hstands : OperatorStands methods builtin.name group classes callEnv defEnv selection env entry
    place)
  (step : NextStep run selection env entry)
  (hanswers : AnswersInGroup (lookupMethod run callEnv defEnv) methods builtin.name group classes
    step.ready)

include hdistinct hstands hanswers

theorem exists_findsNext_of_operatorStands :
    ∃ names, Poised callEnv defEnv selection env entry
        ⟨builtin.name, place.classes, names, place.group⟩ place.name ∧
      FindsNext run methods builtin.name step.symbol step.next.method step.ready
        (findNext run builtin.name step.symbol step.next.method (selection.resumePoint
          ⟨builtin.name, place.classes, names, place.group⟩ place.name) step.ready)
        (place.following methods builtin.name) := by
  obtain ⟨names, hpoised⟩ := hstands.poised
  obtain ⟨-, -, hcallEnv, hdefEnv⟩ := step.next_eq hrun hpoised
  rw [← hcallEnv, ← hdefEnv] at hanswers
  exact ⟨names, hpoised,
    findsNext_of_place hgroup hdistinct hstands.of rfl rfl rfl hanswers⟩

/-- The method that `NextMethod` selects stands at the place that follows. -/
theorem operatorStands_of_next (hselected : step.select step.ready = .ok following after)
    (entered : EnteredMethod following after) :
    ∃ nextPlace left, place.following methods builtin.name = nextPlace :: left ∧
      OperatorStands methods builtin.name group classes callEnv defEnv following entered.env
        entered.entry ⟨nextPlace, place.group⟩ := by
  obtain ⟨names, hpoised, hfinds⟩ :=
    exists_findsNext_of_operatorStands hrun hgroup hdistinct hstands step hanswers
  obtain ⟨nextPlace, left, hnext, htarget, hentered⟩ := poised_of_next hrun step hpoised hfinds
    (fun hcons => (hstands.of.following hcons).name_ne_empty) hselected entered
  exact ⟨nextPlace, left, hnext, hstands.of.following hnext, htarget, _, hentered⟩

end Order

/-- The places of a walk.  They are of the group that the first of them finds.
As long as no own method was found in the group they come later and later; once
one was, the walk stays there. -/
structure OperatorCourse (generic : String) (first : OperatorPlace)
    (done : List OperatorPlace) (place : OperatorPlace) : Prop where
  head : (done ++ [place]).head? = some first
  group : ∀ former ∈ done ++ [place], former.group = first.group
  later : (∀ former ∈ done, ¬former.OwnInGroup generic) →
    (done ++ [place]).Pairwise OperatorPlace.Later
  stays : ∀ former ∈ done, former.OwnInGroup generic → place = former

theorem OperatorCourse.start (generic : String) (place : OperatorPlace) :
    OperatorCourse generic place [] place :=
  ⟨rfl, List.forall_mem_singleton.mpr rfl, fun _ => List.pairwise_singleton _ _, nofun⟩

/-- A course goes on to the place that follows. -/
theorem OperatorCourse.following {methods : String → Option Ref} {generic group : String}
    {classes : List String} {first : OperatorPlace} {done : List OperatorPlace}
    {place : OperatorPlace} (hcourse : OperatorCourse generic first done place)
    (hplace : place.Of methods generic group classes) {following : MethodPlace}
    {left : List MethodPlace} (hnext : place.following methods generic = following :: left) :
    OperatorCourse generic first (done ++ [place]) ⟨following, place.group⟩ := by
  have hlast := hcourse.group place (List.mem_append_right _ (List.mem_singleton_self _))
  refine ⟨?_, ?_, ?_, ?_⟩
  · rw [List.head?_append, hcourse.head, Option.some_or]
  · exact List.forall_mem_append.mpr ⟨hcourse.group, List.forall_mem_singleton.mpr hlast⟩
  · intro hnone
    obtain ⟨hformer, hown⟩ := List.forall_mem_append.mp hnone
    have hsofar := hcourse.later hformer
    rw [OperatorPlace.following, if_neg (hown place (List.mem_singleton_self _))] at hnext
    have hlater := hplace.next_later hnext
    refine List.pairwise_append.mpr ⟨hsofar, List.pairwise_singleton _ _, ?_⟩
    refine fun former hmem => List.forall_mem_singleton.mpr ?_
    rcases List.mem_append.mp hmem with hdone | hlast
    · have hplaceLater := (List.pairwise_append.mp hsofar).2.2 former hdone place
        (List.mem_singleton_self _)
      exact Nat.lt_trans hlater hplaceLater
    · cases List.mem_singleton.mp hlast
      exact hlater
  · intro former hmem hown
    have hsame : former = place := by
      rcases List.mem_append.mp hmem with hdone | hlast
      · exact (hcourse.stays former hdone hown).symm
      · exact List.mem_singleton.mp hlast
    subst hsame
    rw [OperatorPlace.following, if_pos hown] at hnext
    cases hnext
    rfl

open Eval in
/-- Along a walk the places follow each other. -/
theorem OperatorWalk.stands {hooks : Hooks} {methods : String → Option Ref}
    {builtin : Builtin} {group : String} {classes : List String}
    {callEnv defEnv : Ref} {earlier : List Selection} {selection : Selection}
    {env : Ref} {entry : Interpreter}
    (hperform : ∀ budget task, persistence.Settled (perform hooks budget task))
    (hgroup : group ≠ "") (hdistinct : ∀ cls other, methodName group cls ≠
    methodName builtin.name other) (hwalk : OperatorWalk hooks methods builtin
    group classes callEnv defEnv earlier selection env entry) :
    ∃ found done place, classPlace? methods builtin.name (some group) classes = some found ∧
      (earlier ++ [selection]).map Selection.target = (done ++ [place]).map (·.target) ∧
      (∀ former ∈ done ++ [place], former.Of methods builtin.name group classes) ∧
      OperatorCourse builtin.name (found.first group) done place ∧
      OperatorStands methods builtin.name group classes callEnv defEnv selection
        env entry place := by
  induction hwalk with
  | first step hanswers hselected hargs entered =>
      obtain ⟨found, hfound, hstands⟩ :=
        operatorStands_of_first (hperform _) hgroup step hanswers hselected hargs entered
      exact ⟨found, [], found.first group, hfound,
        congrArg (fun target => [target]) hstands.target, List.forall_mem_singleton.mpr hstands.of,
        .start _ _, hstands⟩
  | next hwalk step hanswers hselected entered ih =>
      obtain ⟨found, done, place, hfound, htargets, hplaces, hcourse, hstands⟩ := ih
      obtain ⟨nextPlace, left, hnext, hfollowing⟩ :=
        operatorStands_of_next (hperform _) hgroup hdistinct hstands step hanswers hselected entered
      refine ⟨found, done ++ [place], ⟨nextPlace, place.group⟩, hfound, ?_, ?_,
        hcourse.following hstands.of hnext, hfollowing⟩
      · simp only [List.map_append, List.map_singleton] at htargets ⊢
        rw [htargets, hfollowing.target]
      · exact List.forall_mem_append.mpr ⟨hplaces, List.forall_mem_singleton.mpr hfollowing.of⟩

/-- No builtin has a name that begins like that of the group of operators. -/
theorem exists_head_name (builtin : Builtin) :
    ∃ char, builtin.name.toList.head? = some char ∧ char ≠ 'O' := by
  cases builtin <;> exact ⟨_, rfl, by decide⟩

theorem methodName_ops_ne (builtin : Builtin) (cls other : String) :
    methodName "Ops" cls ≠ methodName builtin.name other := by
  intro hname
  obtain ⟨char, hchar, hne⟩ := exists_head_name builtin
  have hhead := congrArg (fun name => name.toList.head?) hname
  simp only [methodName, String.toList_append, List.head?_append, hchar, Option.some_or] at hhead
  exact hne (Option.some.inj hhead).symm

open Eval in
/-- **The methods of an operator are selected in turn, until an own method is
found in the group.**  Let the hooks keep to the law of persistence whenever the
evaluation does that they call.

If an operator dispatches, then it selects and applies the first method along
the classes of an operand; at each class its own method comes before that of the
group.  Let then the operator and, again and again, `NextMethod` have selected
methods by the answers of one table.  Each of them is the operator's own for a
class, or that of the group for a class without an own one, or the default.

As long as none was an own method that finds the group in its frame, which is so
if the first one was an own method or if no own one came after those of the
group, each method is for a class further on than the one before.  No more
methods than classes are then selected, the default apart.  A call of
`NextMethod` selects the first method along the classes after that of its
method, or the default, or else the builtin, or it fails.

But if an own method finds the group in its frame, then each call of
`NextMethod` selects it again. -/
theorem operator_methods_advance_or_stay (hooks : Hooks)
    (hhooks : ∀ budget, (∀ task, persistence.Settled (perform hooks budget task)) →
      hooks.Allowed (persistence.effect .settled) (perform hooks budget))
    (methods : String → Option Ref) (builtin : Builtin) (classes : List String)
    (callEnv defEnv : Ref) :
    (∀ budget, ∀ step : OperatorStep (perform hooks budget) builtin "Ops" classes callEnv defEnv,
      OperandsAnswer (perform hooks budget) methods builtin.name "Ops" callEnv step.operands
        step.start →
      ∃ found, classPlace? methods builtin.name (some "Ops") classes = some found ∧
        step.Selects found.target) ∧
    ∀ {earlier selection env entry},
      OperatorWalk hooks methods builtin "Ops" classes callEnv defEnv earlier selection env entry →
      ∃ found done place, classPlace? methods builtin.name (some "Ops") classes = some found ∧
        (earlier ++ [selection]).map Selection.target = (done ++ [place]).map (·.target) ∧
        (∀ former ∈ done ++ [place], former.Of methods builtin.name "Ops" classes) ∧
        (done ++ [place]).head? = some (found.first "Ops") ∧
        (∀ former ∈ done ++ [place], former.group = (found.first "Ops").group) ∧
        ((∀ former ∈ done, ¬former.OwnInGroup builtin.name) →
          (done ++ [place]).Pairwise OperatorPlace.Later ∧
          ((done ++ [place]).filter (·.classes ≠ [])).length ≤ classes.length) ∧
        (∀ former ∈ done, former.OwnInGroup builtin.name → place = former) ∧
        ∀ budget, ∀ step : NextStep (perform hooks (budget + 1)) selection env entry,
          AnswersInGroup (lookupMethod (perform hooks (budget + 1)) callEnv defEnv) methods
            builtin.name "Ops" classes step.ready →
          step.next.generic = builtin.name ∧
          (¬place.OwnInGroup builtin.name →
            step.GoesOn methods builtin.name callEnv defEnv (place.next methods builtin.name)) ∧
          (place.OwnInGroup builtin.name → step.Selects place.target) := by
  have hperform := HeapLaw.settled_perform hhooks
  have hgroup : "Ops" ≠ "" := by decide
  have hdistinct := methodName_ops_ne builtin
  constructor
  · intro budget step hanswers
    exact step.exists_selects (hperform budget) hgroup hanswers
  · intro earlier selection env entry hwalk
    obtain ⟨found, done, place, hfound, htargets, hplaces, hcourse, hstands⟩ :=
      hwalk.stands hperform hgroup hdistinct
    refine ⟨found, done, place, hfound, htargets, hplaces, hcourse.head, hcourse.group, ?_,
      hcourse.stays, ?_⟩
    · intro hnone
      have hlater := hcourse.later hnone
      exact ⟨hlater, length_le_of_later
        (fun former hformer => (hplaces former hformer).suffix.length_le) hlater⟩
    · intro budget step hanswers
      have hrun := hperform (budget + 1)
      obtain ⟨names, hpoised, hfinds⟩ :=
        exists_findsNext_of_operatorStands hrun hgroup hdistinct hstands step hanswers
      have hgoesOn := goesOn_of_findsNext (hperform budget) hrun hpoised step hfinds
      refine ⟨(step.next_eq hrun hpoised).1, fun hnot => ?_, fun hown => ?_⟩
      · rw [OperatorPlace.following, if_neg hnot] at hgoesOn
        exact hgoesOn
      · rw [OperatorPlace.following, if_pos hown] at hgoesOn
        cases hgoesOn with
        | following hselects => exact hselects

/-! ## Computing a walk -/

namespace Eval

/-- Whether the methods for the operands are found by the answers of a table. -/
def operandsAnswerAs (run : Runner) (methods : String → Option Ref) (operator group : String)
    (env : Ref) : List (Option (List String)) → Interpreter → Bool
  | [], _ => true
  | operand :: rest, state =>
    (operand.all fun classes => answersFrom (lookupMethod run env state.fixed.base) methods
      (groupCandidates operator (some group) classes) state) &&
    match operandMethod run operator group env operand state with
    | .ok _ next => operandsAnswerAs run methods operator group env rest next
    | .error _ _ => true

theorem operandsAnswer_of_eq_true {run : Runner} {methods : String → Option Ref}
    {operator group : String} {env : Ref} {operands : List (Option (List String))}
    {state : Interpreter}
    (hanswers : operandsAnswerAs run methods operator group env operands state = true) :
    OperandsAnswer run methods operator group env operands state := by
  induction operands generalizing state with
  | nil => trivial
  | cons operand rest ih =>
      obtain ⟨hfirst, hrest⟩ := Bool.and_eq_true_iff.mp hanswers
      refine ⟨fun classes hclasses => ?_, fun found next hok => ?_⟩
      · rw [hclasses] at hfirst
        exact answers_of_answersFrom hfirst
      · rw [hok] at hrest
        exact ih hrest

/-- Whether the answers are those of a table, with the group and without it. -/
def answersInGroupAs (lookup : String → Eval (Option Ref))
    (methods : String → Option Ref) (generic group : String)
    (classes : List String) (state : Interpreter) : Bool :=
  answersFrom lookup methods (groupCandidates generic none classes) state &&
    answersFrom lookup methods (groupCandidates generic (some group) classes) state

theorem answersInGroup_of_eq_true {lookup : String → Eval (Option Ref)}
    {methods : String → Option Ref} {generic group : String} {classes : List String}
    {state : Interpreter}
    (hanswers : answersInGroupAs lookup methods generic group classes state = true) :
    AnswersInGroup lookup methods generic group classes state := by
  obtain ⟨hnone, hsome⟩ := Bool.and_eq_true_iff.mp hanswers
  exact ⟨answers_of_answersFrom hnone, answers_of_answersFrom hsome⟩

end Eval

/-- A walk with its methods. -/
structure OperatorWalked (hooks : Hooks) (builtin : Builtin) (classes : List String) where
  methods : String → Option Ref
  callEnv : Ref
  defEnv : Ref
  earlier : List Selection
  selection : Selection
  env : Ref
  entry : Interpreter
  walk : OperatorWalk hooks methods builtin "Ops" classes callEnv defEnv earlier selection env entry

namespace OperatorWalked

open Eval

variable {hooks : Hooks} {builtin : Builtin} {classes : List String}

/-- The names under which the methods were selected. -/
def names (walked : OperatorWalked hooks builtin classes) : List String :=
  (walked.earlier ++ [walked.selection]).map (·.name)

/-- Goes on by a call of `NextMethod`. -/
def next? (walked : OperatorWalked hooks builtin classes) (budget : Nat) (call : Expr) :
    Option (OperatorWalked hooks builtin classes) := do
  let run := perform hooks budget
  let step ← NextStep.of? run walked.selection call walked.env walked.entry
  if hanswers : answersInGroupAs (lookupMethod run walked.callEnv walked.defEnv) walked.methods
      builtin.name "Ops" classes step.ready = true then
    let ⟨(following, after), hselected⟩ ← value? step.select step.ready
    let entered ← EnteredMethod.of? following step.next.method.call step.args
      step.next.method.callEnv after
    return {
      walked with
      earlier := walked.earlier ++ [walked.selection], selection := following, env := entered.env,
      entry := entered.entry,
      walk := .next walked.walk step (answersInGroup_of_eq_true hanswers) hselected entered }
  else none

/-- Begins by a call of an operator.  The table answers as the lookups do at the
start. -/
def first? (hooks : Hooks) (budget : Nat) (builtin : Builtin) (classes : List String) (call : Expr)
    (args : List Arg) (callEnv : Ref) {start : Interpreter} (hstart : start.Sound) :
    Option (OperatorWalked hooks builtin classes) := do
  let run := perform hooks budget
  let methods := fun name =>
    match lookupMethod run callEnv start.fixed.base name start with
    | .ok found _ => found
    | .error _ _ => none
  let ⟨operands, hoperands⟩ ← answer? (args.mapM operandClasses) start
  let ⟨(found, middle), hfound⟩ ←
    value? (operands.mapM (operandMethod run builtin.name "Ops" callEnv)) start
  match ← value? (chooseMethod builtin.name (operands.zip found)) middle with
  | ⟨(none, _), _⟩ => none
  | ⟨(some (dispatched, chosen), decided), hchosen⟩ =>
    if hvalid : dispatched = classes ∧ ¬(args.isEmpty || 2 < args.length) ∧
        ¬operands.all Option.isNone ∧
        operandsAnswerAs run methods builtin.name "Ops" callEnv operands start = true then
      let step : OperatorStep run builtin "Ops" classes callEnv start.fixed.base := {
        call, args, hcount := hvalid.2.1, start, hstart, hdefEnv := rfl, operands, hoperands,
        hclassed := hvalid.2.2.1, found, middle, hfound, chosen, decided,
        hchosen := hvalid.1 ▸ hchosen }
      let ⟨(selection, selected), hselected⟩ ← value? step.select step.decided
      let ⟨(promised, after), hpromised⟩ ← value? (forcedPromiseArgs call args) selected
      let entered ← EnteredMethod.of? selection call promised callEnv after
      return {
        methods, callEnv, defEnv := start.fixed.base, earlier := [], selection, env := entered.env,
        entry := entered.entry,
        walk := .first step (operandsAnswer_of_eq_true hvalid.2.2.2) hselected hpromised entered }
    else none

end OperatorWalked

section Witness

open Eval Interpreter

/-- Defines two methods that go on to the next one: that of the group for `B`,
and one of some name. -/
def methodTerms (name : String) : List Term :=
  let method := .function [("e1", none), ("e2", none)] (.call (.symbol "NextMethod") [])
  [.assign .here "Ops.B" method, .assign .here name method]

/-- A number with the classes `B` and `A`. -/
def classedTerm : Term :=
  .call (.symbol "class<-") [(none, .literal (.integer 1)), (none, .call (.symbol "c")
    [(none, .literal (.string "B")), (none, .literal (.string "A"))])]

/-- A walk from `+` on such a number through the first methods. -/
def sumWalk (name : String) (count : Nat) :
    Option (OperatorWalked {} .add ["B", "A"]) :=
  match hstart : start smallConfig .empty with
  | .error _ => none
  | .ok state => do
    let ⟨(expr, resolved), hresolved⟩ ←
      value? (resolve (.block (methodTerms name ++ [classedTerm]))) state
    let ⟨(object, before), hbefore⟩ ←
      value? (perform {} 40 (.eval expr resolved.fixed.global)) resolved
    let walked ← OperatorWalked.first? {} 40 .add ["B", "A"] bareCall
      [⟨none, some object⟩] before.fixed.global (sound_of_program hstart hresolved hbefore)
    (fun walked? => walked?.bind (·.next? 38 bareCall))^[count] (some walked)

/-- Whether a walk has come to the second method of the group, and `NextMethod`
can be called there once more. -/
def sumWalked (walked : OperatorWalked {} .add ["B", "A"]) : Bool :=
  walked.names = ["Ops.B", "Ops.A"] &&
  (NextStep.of? (perform {} 36) walked.selection bareCall walked.env walked.entry).any fun step =>
    answersInGroupAs (lookupMethod (perform {} 36) walked.callEnv walked.defEnv) walked.methods "+"
      "Ops" ["B", "A"] step.ready

set_option maxRecDepth 1000000 in
theorem exists_sumWalk : ∃ walked, ∃ step : NextStep (perform {} 36) walked.selection walked.env
      walked.entry, sumWalk "Ops.A" 1 = some walked ∧ walked.names = ["Ops.B", "Ops.A"] ∧
    AnswersInGroup (lookupMethod (perform {} 36) walked.callEnv walked.defEnv) walked.methods "+"
      "Ops" ["B", "A"] step.ready := by
  have hcheck : (sumWalk "Ops.A" 1).any sumWalked = true := by decide +kernel
  obtain ⟨walked, hwalked, hpasses⟩ := (Option.any_eq_true _ _).mp hcheck
  obtain ⟨hnames, hlast⟩ := Bool.and_eq_true_iff.mp hpasses
  obtain ⟨step, -, hanswers⟩ := (Option.any_eq_true _ _).mp hlast
  exact ⟨walked, step, hwalked, of_decide_eq_true hnames, answersInGroup_of_eq_true hanswers⟩

/-- A method of the group is no own one. -/
theorem not_ownInGroup_of_name {place : OperatorPlace} {cls : String}
    (hname : place.name = methodName "Ops" cls) (builtin : Builtin) :
    ¬place.OwnInGroup builtin.name := by
  intro hown
  obtain ⟨other, -, hother⟩ := Option.map_eq_some_iff.mp hown.2
  exact methodName_ops_ne builtin cls other (hname.symm.trans hother.symm)

/-- Two methods of the group come one after the other, and what comes next is in
turn, too. -/
theorem operator_methods_advance_or_stay_sumWalk :
    ∃ walked : OperatorWalked {} .add ["B", "A"],
      ∃ step : NextStep (perform {} 36) walked.selection walked.env walked.entry,
      ∃ former place : OperatorPlace, walked.names = ["Ops.B", "Ops.A"] ∧
      AnswersInGroup (lookupMethod (perform {} 36) walked.callEnv walked.defEnv) walked.methods "+"
        "Ops" ["B", "A"] step.ready ∧
      former.name = "Ops.B" ∧ place.name = "Ops.A" ∧ former.Later place ∧
      step.next.generic = "+" ∧
      step.GoesOn walked.methods "+" walked.callEnv walked.defEnv
        (place.next walked.methods "+") := by
  obtain ⟨walked, step, -, hnames, hanswers⟩ := exists_sumWalk
  have hselected := operator_methods_advance_or_stay {} (fun _ _ => Hooks.allowed_empty _ _)
    walked.methods .add ["B", "A"] walked.callEnv walked.defEnv
  obtain ⟨found, done, place, -, htargets, -, -, -, hadvance, -, hnext⟩ := hselected.2 walked.walk
  have hplaces : (done ++ [place]).map (·.name) = ["Ops.B", "Ops.A"] := by
    rw [← hnames]
    simpa [Selection.target, MethodPlace.target, Function.comp_def, OperatorWalked.names] using
      (congrArg (List.map Prod.fst) htargets).symm
  have hfirst : "Ops.B" = methodName "Ops" "B" := by decide
  have hsecond : "Ops.A" = methodName "Ops" "A" := by decide
  cases done with
  | nil => simp at hplaces
  | cons former rest =>
      cases rest with
      | cons => simp at hplaces
      | nil =>
          simp only [List.cons_append, List.nil_append, List.map_cons, List.map_nil,
            List.cons.injEq, and_true] at hplaces
          obtain ⟨hformer, hplace⟩ := hplaces
          have hlater := (hadvance (List.forall_mem_singleton.mpr
            (not_ownInGroup_of_name (hformer.trans hfirst) .add))).1
          obtain ⟨hgeneric, hgoesOn, -⟩ := hnext 35 step hanswers
          exact ⟨walked, step, former, place, hnames, hanswers, hformer, hplace,
            List.rel_of_pairwise_cons hlater (List.mem_singleton_self _), hgeneric,
            hgoesOn (not_ownInGroup_of_name (hplace.trans hsecond) .add)⟩

/-- Adds to such a number. -/
def sumProgram (name : String) : Term :=
  .block (methodTerms name ++ [.assign .here "x" classedTerm,
    .call (.symbol "+") [(none, .symbol "x"), (none, .literal (.integer 2))]])

/-- Whether a frame has certain classes. -/
def hasClasses (env : Ref) (classes : List String) (state : Interpreter) :
    Bool :=
  match dispatchStrings? env state.reserved.dotClass state with
  | .ok found => found = some classes
  | .error _ => false

theorem dispatchStrings?_of_hasClasses {env : Ref} {classes : List String} {state : Interpreter}
    (hclasses : hasClasses env classes state = true) :
    dispatchStrings? env state.reserved.dotClass state = .ok (some classes) := by
  unfold hasClasses at hclasses
  split at hclasses
  · next found hfound => rw [hfound, of_decide_eq_true hclasses]
  · cases hclasses

set_option maxRecDepth 1000000 in
/-- An own method after one of the group is selected again for the same class,
and so the program does not come to an end. -/
theorem own_method_repeats_after_group :
    (∃ walked, sumWalk "+.A" 2 = some walked ∧ walked.names = ["Ops.B", "+.A", "+.A"] ∧
      dispatchStrings? walked.env walked.entry.reserved.dotClass walked.entry = .ok (some ["A"])) ∧
    ∃ state expr before after,
      start smallConfig .empty = .ok state ∧ resolve (sumProgram "+.A") state = .ok expr before ∧
      perform {} 40 (.eval expr before.fixed.global) before = .error (.error .tooDeep) after := by
  constructor
  · have hcheck : ((sumWalk "+.A" 2).any fun walked => walked.names = ["Ops.B", "+.A", "+.A"] &&
        hasClasses walked.env ["A"] walked.entry) = true := by decide +kernel
    obtain ⟨walked, hwalked, hpasses⟩ := (Option.any_eq_true _ _).mp hcheck
    obtain ⟨hnames, hclasses⟩ := Bool.and_eq_true_iff.mp hpasses
    exact ⟨walked, hwalked, of_decide_eq_true hnames, dispatchStrings?_of_hasClasses hclasses⟩
  · have hcheck : startPasses (sumProgram "+.A") (fun expr before =>
        tooDeep (perform {} 40 (.eval expr before.fixed.global) before)) = true := by decide +kernel
    obtain ⟨state, expr, before, hstart, hresolve, htest⟩ := exists_of_startPasses hcheck
    unfold tooDeep at htest
    split at htest
    · next after hrun => exact ⟨state, expr, before, after, hstart, hresolve, hrun⟩
    · cases htest

end Witness

end LazyDispatch
