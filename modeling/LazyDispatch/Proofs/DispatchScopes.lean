import LazyDispatch.Proofs.BindingShapes
import LazyDispatch.Proofs.CreationOrder

/-!
# Methods are looked up in environments

A method finds in its frame the environments that its dispatch looked methods up
from, and `NextMethod` looks them up from there again.  But a method may bind
these variables to anything, and a lookup in what is no environment is a fault.
*Scoped evaluation* gives up right before: where `NextMethod` is called by a
method that has something else than an environment there.  As long as it does
not give up, it is evaluation, and nothing is ever looked up in what is no
environment.
-/

namespace LazyDispatch

/-! ## Scoped evaluation -/

/-- Whether what the frame of an environment binds a symbol to, if anything, is
an environment. -/
def Interpreter.bindsScope (state : Interpreter) (env : Ref) (symbol : Symbol) :
    Bool :=
  match Eval.frameValue? env symbol state with
  | .ok (some ref) => (state.heap.get? ref).any (·.payload.isEnvironment)
  | _ => true

/-- Whether a method finds environments where it expects those of its dispatch. -/
def Interpreter.findsScopes (state : Interpreter) (env : Ref) : Bool :=
  [state.reserved.dotGenericCallEnv, state.reserved.dotGenericDefEnv].all (state.bindsScope env)

namespace Eval

/-- The builtins, but `NextMethod` gives up where a method does not find its
environments. -/
def scopedBuiltin : Builtins := fun run invocation => do
  if invocation.builtin = .nextMethod ∧ (← get).findsScopes invocation.env = false then
    throw .outOfFuel
  else runBuiltin {} run invocation

/-- Carries out a task with a nesting budget. -/
def performScoped : Nat → Runner :=
  performVia (overrideDispatch {}) scopedBuiltin

/-- A top-level evaluation that scoped evaluation does not give up. -/
def Scoped (budget : Nat) (expr : Expr) (state : Interpreter) : Prop :=
  ∀ after, evalTopLevel (performScoped budget) expr state ≠ .error .outOfFuel after

end Eval

open Eval

namespace RefLaw

variable {law : RefLaw} {state after : Interpreter} {env : Ref} {run twin : Runner}

/-- What a method finds serves as environments if it is environments. -/
theorem findsScopes_of_environments (hstate : law.Sound state)
    (henv : law.Kept .environment state env)
    (hfinds : state.findsScopes env = true) :
    law.FindsScopes state env := by
  intro symbol hsymbol
  have hvalue := answers_frameValue? hstate henv symbol
  refine ⟨fun hfound ref href => ?_, hvalue.error, hvalue.fault⟩
  have hkept := hvalue.value hfound ref href
  have hbinds := List.all_eq_true.mp hfinds symbol hsymbol
  cases href
  unfold Interpreter.bindsScope at hbinds
  rw [hfound] at hbinds
  obtain ⟨object, hget, hobject⟩ := (Option.any_eq_true _ _).mp hbinds
  exact law.has_admits hstate.inv hkept hget hobject

/-- Scoped builtins do what builtins do unless they give up. -/
theorem builtinsRun_scopedBuiltin (hstalls : law.stalls)
    (hrun : law.Runs run twin) :
    law.BuiltinsRun scopedBuiltin (runBuiltin {}) run twin := by
  intro state invocation hstate hinvocation
  refine Coincide.of_eq (bind_of_ok rfl) rfl ?_
  by_cases hlost : invocation.builtin = .nextMethod ∧ state.findsScopes invocation.env = false
  · rw [if_pos hlost]
    exact .of_outOfFuel rfl (Or.inr hstalls)
  · rw [if_neg hlost]
    refine agree_runBuiltin hrun (genericRuns_nil _ _ _) hstate hinvocation fun hbuiltin => ?_
    refine findsScopes_of_environments hstate hinvocation.env ?_
    cases hfinds : state.findsScopes invocation.env with
    | true => rfl
    | false => exact absurd ⟨hbuiltin, hfinds⟩ hlost

/-- **Scoped evaluation keeps to every law** that lets steps give up, and
evaluation does what it does unless it gives up. -/
theorem runs_performScoped
    (hcache : ∀ state, law.inv state → state.cache = .empty)
    (hstalls : law.stalls) (budget : Nat) :
    law.Runs (performScoped budget) (perform {} budget) := by
  rw [← performWith_overrideDispatch]
  exact runs_performVia (fun _ hrun =>
    ⟨overrides_nil hcache _ _, builtinsRun_scopedBuiltin hstalls hrun⟩) budget

end RefLaw

/-! ## Sessions -/

/-- The law that tells environments from other values. -/
abbrev scopeLaw (origin : Heap) : RefLaw := shapeLaw origin true

namespace RefLaw

variable {origin : Heap} {start state : Interpreter}

theorem agree_evalScoped (hstate : (scopeLaw origin).Sound state) (budget : Nat) (expr : Expr) :
    (scopeLaw origin).Agree .settled ((scopeLaw origin).Now .value) state
      (evalTopLevel (performScoped budget) expr) (evalTopLevel (perform {} budget) expr) := by
  have hcache : ∀ state, (scopeLaw origin).inv state → state.cache = .empty :=
    fun _ hinv => hinv.cache
  exact agree_evalTopLevel (runs_performScoped hcache rfl budget) hstate trivial

/-- Every state of a session of scoped evaluations is sound. -/
theorem sound_of_visits_scoped (hstart : (scopeLaw origin).Sound start)
    (hvisits : start.Visits Scoped state) : (scopeLaw origin).Sound state :=
  sound_of_visits_of (fun hstate hscoped hfinishes =>
    ((agree_evalScoped hstate _ _).reach_twin (fun _ => hscoped) hfinishes).sound) hstart hvisits

end RefLaw

/-- A state in which what serves as an environment, if it resolves, is one. -/
structure Interpreter.WellScoped (state : Interpreter) : Prop where
  fixed : ∀ ref ∈ state.fixed.scopes, state.heap.OfKind .environment ref
  closure : ∀ {ref fn attributes}, state.heap.get? ref = some ⟨.closure fn, attributes⟩ →
    state.heap.OfKind .environment fn.env
  enclosing : ∀ {ref env attributes}, state.heap.get? ref = some ⟨.environment env, attributes⟩ →
    ∀ parent ∈ env.parent, state.heap.OfKind .environment parent
  promise : ∀ {ref deferred attributes}, state.heap.get? ref =
    some ⟨.promise deferred, attributes⟩ →
    ∀ env ∈ deferred.scope?, state.heap.OfKind .environment env

/-- A sound state is well scoped as long as no generation has come round. -/
theorem RefLaw.Sound.wellScoped {origin : Heap} {state : Interpreter}
    (hstate : (scopeLaw origin).Sound state)
    (hwraps : origin.NeverWraps state.heap) :
    state.WellScoped := by
  have hobjects := @hstate.inv.heap.objects
  refine ⟨fun ref href => (hstate.inv.scopes ref href).ofKind hwraps,
    fun hget => Heap.HasKind.ofKind (hobjects hget).payload.1 hwraps,
    fun hget parent hparent => Heap.HasKind.ofKind
      ((hobjects hget).payload.1 parent hparent) hwraps,
    fun {ref deferred attributes} hget env henv => ?_⟩
  have hedge := (hobjects hget).edge deferred rfl
  cases deferred with
  | pending expr scope =>
      cases henv
      exact Heap.HasKind.ofKind hedge hwraps
  | underEvaluation expr scope =>
      cases henv
      exact Heap.HasKind.ofKind hedge hwraps
  | forced expr value => cases henv

/-- **Methods are looked up in environments.**  In a session without a host,
take evaluations in which no method calls `NextMethod` while it has something
else than environments where it finds those of its dispatch; whatever else it
assigns to the variables of dispatch, or has as its formals.  In every state of
the session, as long as no generation has come round since the heap was made,
functions, promises and frames have environments around them.  From there,
scoped evaluation comes to the same end as evaluation, and it does not stop at a
lookup in what is no environment. -/
theorem scoped_sessions_look_up_in_environments {config : Config} {symbols : SymbolTable}
    {origin : Heap} {start state : Interpreter} (hcreate : Heap.create config.heap = .ok origin)
    (hstart : Interpreter.start config symbols = .ok start) (hvisits : start.Visits Scoped state) :
    (origin.NeverWraps state.heap → state.WellScoped) ∧
    ∀ budget expr, Scoped budget expr state →
      evalTopLevel (performScoped budget) expr state = evalTopLevel (perform {} budget) expr state ∧
      ∀ cause after, evalTopLevel (perform {} budget) expr state = .error (.fault cause) after →
        origin.NeverWraps after.heap → ¬cause.OfScope after.heap := by
  have hstate := RefLaw.sound_of_visits_scoped
    (Interpreter.sound_shapeLaw_start hcreate true hstart) hvisits
  refine ⟨hstate.wellScoped, fun budget expr hscoped => ?_⟩
  have hagree := RefLaw.agree_evalScoped hstate budget expr
  have hsame := hagree.twin_of_ne fun _ => hscoped
  refine ⟨hsame.symm, fun cause after hfault hwraps hscope => ?_⟩
  exact hagree.fault (hsame.symm.trans hfault) (Or.inr ⟨rfl, hscope⟩) hwraps

section Witness

/-- A method that assigns to the variables of its dispatch before it goes on to
the next method: what is an environment to the one that has to be, and other
values to others. -/
def reassigningTerm : Term :=
  .block [
    .assign .here "g" (.function [("x", none)]
      (.call (.symbol "UseMethod") [(none, .literal (.string "g"))])),
    .assign .here "g.a" (.function [("x", none)] (.block [
      .assign .here ".GenericCallEnv" (.call (.symbol "environment") []),
      .assign .here ".Class" (.literal .null),
      .assign .here ".Group" (.literal (.integer 1)),
      .call (.symbol "NextMethod") []])),
    .assign .here "g.default" (.function [("x", none)] (.literal (.integer 7))),
    .call (.symbol "g") [(none, .call (.symbol "class<-")
      [(none, .literal (.integer 1)), (none, .literal (.string "a"))])]]

/-- Whether scoped evaluation comes to a value and no generation came round. -/
def staysScoped (expr : Expr) (before : Interpreter) : Bool :=
  match Heap.create smallConfig.heap with
  | .ok origin => (evalTopLevel (performScoped 40) expr).passes
      (fun _ after => decide (origin.NeverWraps after.heap)) before
  | .error _ => false

set_option maxRecDepth 1000000 in
theorem exists_reassigningTerm : ∃ origin start expr before value after,
    Heap.create smallConfig.heap = .ok origin ∧
    Interpreter.start smallConfig .empty = .ok start ∧
    resolve reassigningTerm start = .ok expr before ∧ Scoped 40 expr before ∧
    evalTopLevel (performScoped 40) expr before = .ok value after ∧
      origin.NeverWraps after.heap := by
  have hcheck : startPasses reassigningTerm staysScoped = true := by
    decide +kernel
  obtain ⟨start, expr, before, hstart, hresolve, hscoped⟩ := exists_of_startPasses hcheck
  unfold staysScoped at hscoped
  split at hscoped
  · next origin hcreate =>
      obtain ⟨value, after, heval, hwraps⟩ := exists_of_passes hscoped
      refine ⟨origin, start, expr, before, value, after, hcreate, hstart, hresolve,
        fun other hstop => ?_, heval, of_decide_eq_true hwraps⟩
      cases heval.symm.trans hstop
  · cases hscoped

/-- The session goes on after the call, and its functions and frames have
environments around them. -/
theorem scoped_sessions_look_up_in_environments_reassigningTerm :
    ∃ origin start expr before value after,
      Heap.create smallConfig.heap = .ok origin ∧ Interpreter.start smallConfig .empty = .ok start ∧
      resolve reassigningTerm start = .ok expr before ∧ Scoped 40 expr before ∧
      evalTopLevel (perform {} 40) expr before = .ok value after ∧ origin.NeverWraps after.heap ∧
      after.WellScoped := by
  obtain ⟨origin, start, expr, before, value, after, hcreate, hstart, hresolve, hscoped, hvalue,
    hwraps⟩ := exists_reassigningTerm
  have hbefore : start.Visits Scoped before := .resolve .start hresolve
  have heval : evalTopLevel (perform {} 40) expr before = .ok value after :=
    ((scoped_sessions_look_up_in_environments hcreate hstart hbefore).2 40 expr
      hscoped).1.symm.trans hvalue
  have hafter : start.Visits Scoped after := .eval hbefore hscoped (.value heval)
  exact ⟨origin, start, expr, before, value, after, hcreate, hstart, hresolve,
    hscoped, heval, hwraps,
    (scoped_sessions_look_up_in_environments hcreate hstart hafter).1 hwraps⟩

end Witness

/-! ## A method that is not scoped -/

/-- A method that assigns a number to the environment of its call, and goes on
to the next method. -/
def unscopedTerm : Term :=
  .block [
    .assign .here "g" (.function [("x", none)]
      (.call (.symbol "UseMethod") [(none, .literal (.string "g"))])),
    .assign .here "g.a" (.function [("x", none)] (.block [
      .assign .here ".GenericCallEnv" (.literal (.integer 1)),
      .call (.symbol "NextMethod") []])),
    .assign .here "g.default" (.function [("x", none)] (.literal (.integer 7))),
    .call (.symbol "g") [(none, .call (.symbol "class<-")
      [(none, .literal (.integer 1)), (none, .literal (.string "a"))])]]

/-- Whether something stopped at a lookup in a number. -/
def isUnscoped {α : Type} : EStateM.Result Stop Interpreter α → Bool
  | .error (.fault (.notAnEnvironment name)) _ => name == "integer"
  | _ => false

set_option maxRecDepth 1000000 in
/-- **The next method may be looked up in a number.** -/
theorem next_method_looked_up_in_number : ∃ start expr before after,
    Interpreter.start smallConfig .empty = .ok start ∧
    resolve unscopedTerm start = .ok expr before ∧
    evalTopLevel (perform {} 40) expr before =
      .error (.fault (.notAnEnvironment "integer")) after := by
  have hcheck : startPasses unscopedTerm (fun expr before =>
      isUnscoped (evalTopLevel (perform {} 40) expr before)) = true := by
    decide +kernel
  obtain ⟨start, expr, before, hstart, hresolve, hunscoped⟩ := exists_of_startPasses hcheck
  unfold isUnscoped at hunscoped
  split at hunscoped
  · next name after heval =>
      cases eq_of_beq hunscoped
      exact ⟨start, expr, before, after, hstart, hresolve, heval⟩
  · cases hunscoped

end LazyDispatch
