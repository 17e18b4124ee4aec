import LazyDispatch.Proofs.ChainsEnd

/-!
# The call stack

Every call of a closure works in an environment that is new when the call
begins.  So no call that was in progress before works there, or was made from
there: the closure call that works in the environment of a caller is further out
than the call itself.  This holds however the caller came about, be it where a
promise was made, where a generic was called from or in a function that has
returned long ago.  The way up the callers therefore passes each call at most
once, and `parent.frame` gets out of all calls.
-/

namespace LazyDispatch

open Eval

/-! ## Calls in progress -/

/-- Where a call works, another call neither works nor was it made from there. -/
def CallContext.Apart (upper lower : CallContext) : Prop :=
  ∀ env, upper.worksIn env = true → lower.worksIn env = false ∧ lower.caller ≠ env

/-- The calls in progress are apart from those further out, and none was made
from where it works. -/
structure Stacked (contexts : List CallContext) : Prop where
  apart : contexts.Pairwise CallContext.Apart
  own : ∀ context ∈ contexts, context.worksIn context.caller = false

namespace Stacked

variable {contexts rest : List CallContext} {context other : CallContext} {env : Ref}

theorem nil : Stacked [] := ⟨.nil, nofun⟩

theorem suffix (hstacked : Stacked contexts) (hrest : rest <:+ contexts) :
    Stacked rest := by
  refine ⟨hstacked.apart.sublist hrest.sublist, ?_⟩
  intro context hcontext
  exact hstacked.own context (hrest.subset hcontext)

theorem cons (hstacked : Stacked rest) (hapart : ∀ other ∈ rest, context.Apart other)
    (hown : context.worksIn context.caller = false) : Stacked (context :: rest) :=
  ⟨List.pairwise_cons.mpr ⟨hapart, hstacked.apart⟩, List.forall_mem_cons.mpr ⟨hown, hstacked.own⟩⟩

/-- A call that does not work anywhere yet is apart from all others. -/
theorem begin (hstacked : Stacked rest)
    (hplace : context.kind = .internal ∨ context.env = none) :
    Stacked (context :: rest) := by
  have hnowhere := CallContext.worksIn_of_begun hplace
  refine hstacked.cons (fun _ _ env hworks => ?_) (hnowhere _)
  rw [hnowhere env] at hworks
  cases hworks

/-- The innermost call comes to work in an environment that no call knows of. -/
theorem enter (hstacked : Stacked (context :: rest))
    (hfresh : ∀ other ∈ context :: rest, other.env ≠ some env ∧ other.caller ≠ env) :
    Stacked ({ context with env := some env } :: rest) := by
  refine (hstacked.suffix (List.suffix_cons _ _)).cons (fun lower hlower place hworks => ?_) ?_
  · obtain ⟨henv, hcaller⟩ := hfresh lower (List.mem_cons_of_mem _ hlower)
    simp only [CallContext.worksIn, Bool.and_eq_true, decide_eq_true_eq,
      Option.some.injEq] at hworks
    obtain ⟨-, rfl⟩ := hworks
    exact ⟨by simp [CallContext.worksIn, henv], hcaller⟩
  · have hcaller := (hfresh context List.mem_cons_self).2
    simp [CallContext.worksIn, hcaller.symm]

/-- A closure call that works where another call was made is further out. -/
theorem lt_of_worksIn (hstacked : Stacked contexts) {index place : Nat}
    (hcontext : contexts[index]? = some context)
    (hother : contexts[place]? = some other)
    (hworks : other.worksIn context.caller = true) : index < place := by
  obtain ⟨hindex, rfl⟩ := List.getElem?_eq_some_iff.mp hcontext
  obtain ⟨hplace, rfl⟩ := List.getElem?_eq_some_iff.mp hother
  rcases Nat.lt_trichotomy index place with hlt | rfl | hgt
  · exact hlt
  · rw [hstacked.own _ (List.getElem_mem hindex)] at hworks
    cases hworks
  · have hapart := List.pairwise_iff_getElem.mp hstacked.apart place index hplace hindex hgt
    exact absurd rfl (hapart _ hworks).2

end Stacked

/-! ## The way up the callers -/

namespace Interpreter

/-- The closure calls that are met on the way from an environment up the
callers, in so many steps. -/
def callersMet (state : Interpreter) : Nat → Ref → List CallContext
  | 0, _ => []
  | count + 1, env =>
    match state.functionWithEnv? env with
    | some context => context :: callersMet state count context.caller
    | none => []

variable {state : Interpreter}

/-- The way goes further out with every step. -/
theorem callersMet_sublist_lower (hstacked : Stacked state.contexts)
    (count : Nat) {env : Ref} {upper lower : List CallContext}
    (hcontexts : state.contexts = upper ++ lower)
    (hupper : ∀ context ∈ upper, context.worksIn env = false) :
    (state.callersMet count env).Sublist lower := by
  induction count generalizing env upper lower with
  | zero => exact List.nil_sublist _
  | succ count ih =>
      unfold callersMet
      split
      · next context hfound =>
          have hlower : lower.find? (CallContext.worksIn env) = some context := by
            have hnone : upper.find? (CallContext.worksIn env) = none :=
              List.find?_eq_none.mpr fun other hother => by simp [hupper other hother]
            rw [functionWithEnv?, hcontexts, List.find?_append, hnone] at hfound
            exact hfound
          obtain ⟨-, passed, rest, rfl, hpassed⟩ := List.find?_eq_some_iff_append.mp hlower
          have hsplit : state.contexts = (upper ++ passed ++ [context]) ++ rest := by
            rw [hcontexts]
            simp
          -- No call up to this one works where it was made.
          have hbefore : ∀ other ∈ upper ++ passed ++ [context],
              other.worksIn context.caller = false := by
            have happart := hstacked.apart
            rw [hsplit] at happart
            intro other hother
            rcases List.mem_append.mp hother with hearlier | hself
            · have hrelated := (List.pairwise_append.mp (List.pairwise_append.mp happart).1).2.2
                other hearlier context (List.mem_singleton.mpr rfl)
              by_contra hworks
              exact (hrelated _ (Bool.eq_true_of_not_eq_false hworks)).2 rfl
            · rw [List.mem_singleton.mp hself]
              refine hstacked.own context ?_
              rw [hsplit]
              exact List.mem_append_left _ (List.mem_append_right _ (List.mem_singleton.mpr rfl))
          exact ((ih hsplit hbefore).cons_cons context).trans (List.sublist_append_right _ _)
      · exact List.nil_sublist _

theorem callersMet_sublist (hstacked : Stacked state.contexts) (count : Nat)
    (env : Ref) :
    (state.callersMet count env).Sublist state.contexts :=
  callersMet_sublist_lower hstacked count (List.nil_append _).symm fun _ hcontext =>
    absurd hcontext List.not_mem_nil

theorem exists_worksIn_of_mem_callersMet {count : Nat} {env : Ref}
    {context : CallContext} (hmet : context ∈ state.callersMet count env) :
    ∃ place, context.worksIn place = true := by
  induction count generalizing env with
  | zero => exact absurd hmet List.not_mem_nil
  | succ count ih =>
      unfold callersMet at hmet
      split at hmet
      · next found hfound =>
          rcases List.mem_cons.mp hmet with rfl | hlater
          · exact ⟨env, List.find?_some hfound⟩
          · exact ih hlater
      · exact absurd hmet List.not_mem_nil

/-- No call is met twice. -/
theorem callersMet_nodup (hstacked : Stacked state.contexts) (count : Nat)
    (env : Ref) :
    (state.callersMet count env).Nodup := by
  refine (hstacked.apart.sublist (callersMet_sublist hstacked count env)).imp_of_mem ?_
  intro upper lower hupper _ hapart heq
  obtain ⟨place, hworks⟩ := exists_worksIn_of_mem_callersMet hupper
  have hfalse := (hapart place hworks).1
  rw [← heq, hworks] at hfalse
  cases hfalse

/-- So many callers up is where the last call on the way was made, unless the
way ends before. -/
theorem callerEnv_eq (count : Nat) (env : Ref) :
    callerEnv state count env = if (state.callersMet count env).length = count
      then ((state.callersMet count env).getLast?.map (·.caller)).getD env
      else state.fixed.global := by
  induction count generalizing env with
  | zero => rfl
  | succ count ih =>
      cases hfound : state.functionWithEnv? env with
      | none => simp [callersMet, callerEnv, hfound]
      | some context =>
          simp only [callersMet, callerEnv, hfound, ih, List.length_cons, List.getLast?_cons,
            Nat.add_right_cancel_iff, Option.map_some, Option.getD_some]
          cases (state.callersMet count context.caller).getLast? <;> rfl

/-- Beyond all calls is the global environment. -/
theorem callerEnv_of_stacked (hstacked : Stacked state.contexts) {count : Nat}
    (hcount : state.contexts.length < count) (env : Ref) :
    callerEnv state count env = state.fixed.global := by
  have hlength := (callersMet_sublist hstacked count env).length_le
  rw [callerEnv_eq, if_neg (by omega)]

theorem parentFrame_of_stacked (hstacked : Stacked state.contexts)
    {invocation : Invocation} {tag : Option Symbol} {ref : Ref} {number : Int64}
    (hargs : invocation.args = [⟨tag, some ref⟩])
    (hnumber : asInteger? ref state = .ok (some number))
    (hlarge : (state.contexts.length : Int) < number.toInt) :
    parentFrame invocation state = .ok state.fixed.global state := by
  have hcount : invocation.requireCount 0 1 state = .ok () := by
    simp [Invocation.requireCount, hargs]
    rfl
  have harg : invocation.arg? 0 = some ref := by simp [Invocation.arg?, hargs]
  have hpositive : (some number).filter (1 ≤ ·) = some number := by
    refine Option.filter_eq_some_iff.mpr ⟨rfl, decide_eq_true ?_⟩
    rw [Int64.le_iff_toInt_le]
    have : (1 : Int64).toInt = 1 := by decide
    omega
  have hglobal : callerEnv state number.toInt.toNat invocation.env = state.fixed.global :=
    callerEnv_of_stacked hstacked (by omega) _
  refine (bind_of_ok (lift_of_ok hcount)).trans ?_
  rw [harg]
  refine (bind_of_ok (lift_of_ok hnumber)).trans ?_
  rw [hpositive]
  exact (bind_of_ok rfl).trans (congrArg (EStateM.Result.ok · state) hglobal)

/-- What `parent.frame` relies on: closure calls work in different environments,
those that work where other calls were made are further out, no call is met
twice on the way up the callers, and with a number larger than that of the calls
in progress the way ends in the global environment. -/
structure FramesDescend (state : Interpreter) (invocation : Invocation) :
    Prop where
  distinct : state.contexts.Pairwise fun upper lower =>
    ∀ env, upper.worksIn env = true → lower.worksIn env = false
  outwards : ∀ {index place : Nat} {context other : CallContext},
    state.contexts[index]? = some context → state.contexts[place]? = some other →
    other.worksIn context.caller = true → index < place
  met : ∀ count, (state.callersMet count invocation.env).Sublist state.contexts ∧
    (state.callersMet count invocation.env).Nodup
  beyond : ∀ {tag : Option Symbol} {ref : Ref} {number : Int64},
    invocation.args = [⟨tag, some ref⟩] → asInteger? ref state = .ok (some number) →
    (state.contexts.length : Int) < number.toInt →
    parentFrame invocation state = .ok state.fixed.global state

theorem framesDescend_of_stacked (hstacked : Stacked state.contexts)
    (invocation : Invocation) :
    state.FramesDescend invocation where
  distinct := hstacked.apart.imp fun hapart env hworks => (hapart env hworks).1
  outwards := hstacked.lt_of_worksIn
  met count := ⟨callersMet_sublist hstacked count _, callersMet_nodup hstacked count _⟩
  beyond := parentFrame_of_stacked hstacked

end Interpreter

/-! ## The law -/

/-- Whatever is handed around was issued, and the calls in progress are stacked. -/
def stackLaw (origin : Heap) : RefLaw :=
  { orderLaw origin with
    calls := fun state => origin.NeverWraps state.heap → Stacked state.contexts
    unbalanced := fun hfree => absurd trivial hfree
    calls_step := fun hinv hcalls hstep _ hsuffix hwraps =>
      (hcalls (hinv.heap.neverWraps hstep.heap hwraps)).suffix hsuffix
    calls_amend := fun _ hcalls _ _ hwraps =>
      hcalls ((Heap.neverWraps_update _ _ _ _).mp hwraps)
    calls_begin := fun hcalls hplace hwraps => (hcalls hwraps).begin hplace
    calls_enter := by
      intro state context rest parent env heap hinv hcalls hcontexts hcons _ hok hstep hwraps
      have hstacked := hcalls (hinv.heap.neverWraps hstep.heap hwraps)
      rw [hcons] at hcontexts hstacked
      show Stacked (Interpreter.workingIn { state with heap } env).contexts
      simp only [Interpreter.workingIn, hcons]
      refine hstacked.enter fun other hother => ⟨fun henv => ?_, ?_⟩
      · exact hinv.heap.ne_of_allocate hok hwraps ((hcontexts other hother).env env henv) rfl
      · exact hinv.heap.ne_of_allocate hok hwraps (hcontexts other hother).caller
    calls_supply := fun _ _ hcalls _ _ _ _ _ _ hwraps =>
      hcalls ((Heap.neverWraps_update _ _ _ _).mp hwraps)
    resumes_start := fun _ _ _ _ _ => trivial }

namespace Interpreter

variable {config : Config} {symbols : SymbolTable} {origin : Heap} {start state : Interpreter}

/-- An interpreter starts without calls in progress. -/
theorem sound_stackLaw_start (hcreate : Heap.create config.heap = .ok origin)
    (hstart : Interpreter.start config symbols = .ok state) :
    (stackLaw origin).Sound state := by
  obtain ⟨fixed, made, hordered, hbase⟩ := exists_ordered_withFixed hcreate hstart
  have hsound : (stackLaw origin).Sound (withFixed config (Reserved.intern.run symbols).2
      (Reserved.intern.run symbols).1 fixed made) := ⟨hordered, nofun, nofun, fun _ => Stacked.nil⟩
  exact ((RefLaw.coincide_installBase
    (fun _ _ => ⟨trivial, fun _ _ _ => trivial⟩) hsound).value hbase).1

theorem sound_stackLaw_of_visits (hcreate : Heap.create config.heap = .ok origin)
    (hstart : Interpreter.start config symbols = .ok start)
    (hvisits : start.Visits (fun _ _ _ => True) state) : (stackLaw origin).Sound state :=
  RefLaw.sound_of_visits (cache_of_ordered origin) (fun hhas => hhas)
    (sound_stackLaw_start hcreate hstart) hvisits

end Interpreter

/-! ## Calls of a builtin -/

namespace Eval

/-- The builtins, but every call of one of them is put to a test first. -/
def probedBuiltin (builtin : Builtin) (test : Invocation → Interpreter → Bool)
    (alarm : Stop) :
    Builtins :=
  fun run invocation => do
    if invocation.builtin = builtin ∧ test invocation (← get) = false then throw alarm
    else runBuiltin {} run invocation

/-- Carries out a task with a nesting budget, and puts every call of a builtin
to a test. -/
def performProbed (builtin : Builtin) (test : Invocation → Interpreter → Bool)
    (alarm : Stop) :
    Nat → Runner :=
  performVia (overrideDispatch {}) (probedBuiltin builtin test alarm)

end Eval

namespace RefLaw

variable {law : RefLaw} {builtin : Builtin} {test : Invocation → Interpreter → Bool} {alarm : Stop}
  (htest : ∀ invocation state, law.Sound state → test invocation state = true) (hlax : law.Lax)

include htest hlax

/-- No call raises the alarm if all sound states pass the test. -/
theorem builtinsRun_probedBuiltin {run twin : Runner} (hrun : law.Runs run twin) :
    law.BuiltinsRun (probedBuiltin builtin test alarm) (runBuiltin {}) run twin := by
  intro state invocation hstate hinvocation
  refine Coincide.of_eq (bind_of_ok rfl) rfl ?_
  have hpasses := htest invocation state hstate
  rw [if_neg fun halarm => Bool.false_ne_true (halarm.2.symm.trans hpasses)]
  exact builtinsRun_of_lax hrun (genericRuns_nil _ _ _) hlax state invocation hstate hinvocation

theorem runs_performProbed
    (hcache : ∀ state, law.inv state → state.cache = .empty) (budget : Nat) :
    law.Runs (performProbed builtin test alarm budget) (perform {} budget) := by
  rw [← performWith_overrideDispatch]
  exact runs_performVia (fun _ hrun =>
    ⟨overrides_nil hcache _ _, builtinsRun_probedBuiltin htest hlax hrun⟩) budget

end RefLaw

/-- **The way up the callers leads out of all calls.**  Whenever `parent.frame`
is called in the course of an evaluation in a session without a host, as long as
no generation has come round since the heap was made, the calls in progress are
as `Interpreter.FramesDescend` says: the evaluation goes on in the same way if
all calls of `parent.frame` are put to a test that such states pass. -/
theorem parent_frames_lead_outwards {config : Config} {symbols : SymbolTable}
    {origin : Heap} {start state : Interpreter}
    (hcreate : Heap.create config.heap = .ok origin)
    (hstart : Interpreter.start config symbols = .ok start)
    (hvisits : start.Visits (fun _ _ _ => True) state)
    (test : Invocation → Interpreter → Bool) (alarm : Stop)
    (htest : ∀ invocation reached,
      (origin.NeverWraps reached.heap → reached.FramesDescend invocation) →
      test invocation reached = true) (budget : Nat) (expr : Expr) :
    evalTopLevel (performProbed .parentFrame test alarm budget) expr state =
      evalTopLevel (perform {} budget) expr state := by
  have hstate := Interpreter.sound_stackLaw_of_visits hcreate hstart hvisits
  have hexpr : (stackLaw origin).expr expr := trivial
  have hpasses : ∀ invocation reached, (stackLaw origin).Sound reached →
      test invocation reached = true := by
    intro invocation reached hsound
    exact htest invocation reached fun hwraps =>
      Interpreter.framesDescend_of_stacked (hsound.calls hwraps) invocation
  have hruns : (stackLaw origin).Runs (performProbed .parentFrame test alarm budget)
      (perform {} budget) :=
    RefLaw.runs_performProbed hpasses (fun hhas => hhas) (cache_of_ordered origin) budget
  rcases (RefLaw.agree_evalTopLevel hruns hstate hexpr).same with hsame | ⟨hstalls, -⟩
  · exact hsame.symm
  · exact hstalls.elim

section Witness

/-- A method of a generic that a function calls: it passes `parent.frame(9)` on
as a promise. -/
def distantParentTerm : Term :=
  .block [
    .assign .here "g" (.function [("e", none)] (.symbol "e")),
    .assign .here "f" (.function [("x", none)]
      (.call (.symbol "UseMethod") [(none, .literal (.string "f"))])),
    .assign .here "f.default" (.function [("x", none)] (.call (.symbol "g")
      [(none, .call (.symbol "parent.frame") [(none, .literal (.integer 9))])])),
    .assign .here "h" (.function [] (.call (.symbol "f") [(none, .literal (.integer 1))])),
    .call (.symbol "h") []]

/-- Whether a call does not meet two of four calls on the way up the callers, or
a generation has come round. -/
def meetsOtherCalls (invocation : Invocation) (state : Interpreter) : Bool :=
  match Heap.create smallConfig.heap with
  | .ok origin => !decide (state.contexts.length = 4 ∧
      (state.callersMet 9 invocation.env).length = 2 ∧ origin.NeverWraps state.heap)
  | .error _ => true

set_option maxRecDepth 1000000 in
theorem exists_distantParentTerm : ∃ start expr before value after stopped,
    Interpreter.start smallConfig .empty = .ok start ∧
    resolve distantParentTerm start = .ok expr before ∧
    evalTopLevel (perform {} 40) expr before = .ok value after ∧ value = after.fixed.global ∧
    evalTopLevel (performProbed .parentFrame meetsOtherCalls .outOfFuel 40) expr before =
      .error .outOfFuel stopped := by
  have hcheck : startPasses distantParentTerm (fun expr before =>
      (evalTopLevel (perform {} 40) expr).passes (fun value after => value = after.fixed.global)
        before &&
      runsOut (evalTopLevel (performProbed .parentFrame meetsOtherCalls .outOfFuel 40) expr)
        before) = true := by
    decide +kernel
  obtain ⟨start, expr, before, hstart, hresolve, hboth⟩ := exists_of_startPasses hcheck
  obtain ⟨hpasses, hout⟩ := Bool.and_eq_true_iff.mp hboth
  obtain ⟨value, after, heval, hglobal⟩ := exists_of_passes hpasses
  obtain ⟨stopped, hstopped⟩ := exists_of_runsOut hout
  exact ⟨start, expr, before, value, after, stopped, hstart, hresolve, heval,
    of_decide_eq_true hglobal, hstopped⟩

open Classical in
/-- The promise is forced in a call that is inside its own one.  Its way up the
callers meets two of the four calls in progress, and it ends in the global
environment. -/
theorem parent_frames_lead_outwards_distantParentTerm :
    ∃ origin start expr before value after stopped,
      Heap.create smallConfig.heap = .ok origin ∧ Interpreter.start smallConfig .empty = .ok start ∧
      resolve distantParentTerm start = .ok expr before ∧
      evalTopLevel (perform {} 40) expr before = .ok value after ∧ value = after.fixed.global ∧
      evalTopLevel (performProbed .parentFrame meetsOtherCalls .outOfFuel 40) expr before =
        .error .outOfFuel stopped ∧
      evalTopLevel (performProbed .parentFrame (fun invocation reached => decide
        (origin.NeverWraps reached.heap → reached.FramesDescend invocation))
          .outOfFuel 40) expr before =
          .ok value after := by
  obtain ⟨start, expr, before, value, after, stopped, hstart, hresolve, heval, hglobal, hstopped⟩ :=
    exists_distantParentTerm
  obtain ⟨origin, -, -, hcreate, -, -⟩ := Interpreter.start_eq_ok hstart
  have hbefore : start.Visits (fun _ _ _ => True) before := .resolve .start hresolve
  exact ⟨origin, start, expr, before, value, after, stopped, hcreate, hstart,
    hresolve, heval, hglobal, hstopped,
    (parent_frames_lead_outwards hcreate hstart hbefore _ .outOfFuel
      (fun _ _ hdescend => decide_eq_true hdescend) 40 expr).trans heval⟩

end Witness

end LazyDispatch
