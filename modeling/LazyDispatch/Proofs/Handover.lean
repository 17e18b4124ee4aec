import LazyDispatch.Proofs.ChainsEnd
import LazyDispatch.Proofs.PassedArguments
import LazyDispatch.Proofs.Resumption

/-!
# Calls of NextMethod in a session

A call of `NextMethod` that comes to apply a function is recorded step by step
(`Handover`).  What the steps say about the arguments is put together in
`Handover.HandsOn`: position by position for the arguments that share their
reference with no other one, and by counting for all others.  All that this
takes is that the heap issued the frame and the arguments of the method, so that
no new promise is mistaken for one of them.  In a session this is so at every
call, since evaluation keeps to the order of creation.
-/

namespace LazyDispatch

open Eval

/-! ## Arguments that share no reference -/

/-- No other argument has the reference that the argument at an index has. -/
def Unshared (args : List Arg) (index : Nat) : Prop :=
  ∀ other value, args[index]?.bind (·.value) = some value →
    args[other]?.bind (·.value) = some value → other = index

section Unshared

variable {args : List Arg} {index place : Nat} {value : Ref} {formals : List Formal}
  {matched : List Matched} {state : Interpreter} {formal : Formal}
  (hunshared : Unshared args index) (hvalue : args[index]?.bind (·.value) = some value)

include hunshared hvalue

theorem Unshared.before_eq_zero : Replaced.before args index value = 0 := by
  refine List.countP_eq_zero.mpr fun arg harg heq => ?_
  obtain ⟨other, hother⟩ := List.mem_iff_getElem?.mp harg
  rw [List.getElem?_take] at hother
  split at hother
  · next hlt =>
      have hheld : args[other]?.bind (·.value) = some value :=
        Option.bind_eq_some_iff.mpr ⟨arg, hother, of_decide_eq_true heq⟩
      exact absurd (hunshared other value hvalue hheld) (Nat.ne_of_lt hlt)
  · cases hother

/-- A formal receives the reference exactly if it takes the argument. -/
theorem Unshared.getElem?_outcome_iff
    (hok : (state.setting formals args).outcome = .ok matched) :
    matched[place]? = some (.supplied value) ↔
      (state.setting formals args).Assigns index place := by
  rw [Matching.Setting.getElem?_outcome_iff hok]
  refine ⟨fun hassigns => ?_, fun hassigns => ⟨index, hassigns, hvalue⟩⟩
  obtain ⟨other, hassigns, hheld⟩ := hassigns
  cases hunshared other value hvalue hheld
  exact hassigns

theorem Unshared.count_pos_iff
    (hok : (state.setting formals args).outcome = .ok matched) :
    0 < matched.count (.supplied value) ↔
      ∃ place, (state.setting formals args).Assigns index place := by
  rw [List.count_pos_iff, List.mem_iff_getElem?]
  exact exists_congr fun place => hunshared.getElem?_outcome_iff hvalue hok

/-- The formal that the reference is found for takes the argument. -/
theorem Unshared.assigns_of_formalOf? (hok : (state.setting formals args).outcome = .ok matched)
    (hformal : formalOf? (formals.zip matched) value = some formal) :
    ∃ place, (state.setting formals args).Assigns index place ∧ formals[place]? = some formal := by
  obtain ⟨⟨found, received⟩, hfound, rfl⟩ := Option.map_eq_some_iff.mp hformal
  obtain ⟨place, hplace⟩ := List.mem_iff_getElem?.mp (List.mem_of_find?_eq_some hfound)
  obtain ⟨hleft, hright⟩ := List.getElem?_zip_eq_some.mp hplace
  have hreceived := List.find?_some hfound
  simp only [decide_eq_true_eq] at hreceived
  exact ⟨place, (hunshared.getElem?_outcome_iff hvalue hok).mp (hreceived ▸ hright), hleft⟩

/-- The reference is found for a formal with the name of the one that takes the
argument. -/
theorem Unshared.exists_formalOf? (hok : (state.setting formals args).outcome = .ok matched)
    (hassigns : (state.setting formals args).Assigns index place)
    (hformal : formals[place]? = some formal) :
    ∃ found, formalOf? (formals.zip matched) value = some found ∧ found.name = formal.name := by
  have hreceived := (hunshared.getElem?_outcome_iff hvalue hok).mpr hassigns
  have hzip : (formals.zip matched)[place]? = some (formal, .supplied value) :=
    List.getElem?_zip_eq_some.mpr ⟨hformal, hreceived⟩
  have hsome : (formalOf? (formals.zip matched) value).isSome := by
    rw [formalOf?, Option.isSome_map, List.find?_isSome]
    exact ⟨_, List.mem_of_getElem? hzip, decide_eq_true rfl⟩
  obtain ⟨found, hfound⟩ := Option.isSome_iff_exists.mp hsome
  obtain ⟨other, hother, hfoundAt⟩ := hunshared.assigns_of_formalOf? hvalue hok hfound
  have hname := hother.nameAt_eq hassigns
  have hnames : some found.name = some formal.name := by
    simpa [Matching.Setting.nameAt, Interpreter.setting, hfoundAt, hformal] using hname
  exact ⟨found, hfound, Option.some.inj hnames⟩

end Unshared

/-! ## Calls of NextMethod -/

/-- A call of `NextMethod` in a state that comes to apply a function. -/
structure Handover (run : Runner) (call : Expr) (env : Ref) (state : Interpreter) where
  next : NextCall
  checked : Interpreter
  hchecked : callingGeneric run call env state = .ok next checked
  symbol : Symbol
  named : Interpreter
  hnamed : intern next.generic checked = .ok symbol named
  /-- The formals of the generic. -/
  formals : List Formal
  /-- The state in which the arguments are handed on. -/
  prepared : Interpreter
  hprepared : genericFormals run symbol next.method named = .ok formals prepared
  /-- The arguments that are handed on, before others are merged in. -/
  handed : List Arg
  passed : Interpreter
  hpassed : rebindArgs next.method formals prepared = .ok handed passed
  selection : Selection
  /-- The state in which the function is applied. -/
  ready : Interpreter
  hready : selectNext run next.generic symbol next.method passed = .ok selection ready

/-- The method that a call of `NextMethod` goes on from is the one that works in
the environment. -/
theorem method_of_callingGeneric {run : Runner} {call : Expr} {env : Ref}
    {state after : Interpreter} {next : NextCall}
    (hok : callingGeneric run call env state = .ok next after) :
    ∃ context, state.functionWithEnv? env = some context ∧ next.method.fn = context.fn ∧
      next.method.args = context.args ∧ next.method.env = env := by
  obtain ⟨hmethod, -⟩ := callingGeneric_cases hok
  obtain ⟨context, head, callEnv, defEnv, hcontext, -, -, -, hnext⟩ :=
    methodInProgress_cases hmethod
  rw [hnext]
  exact ⟨context, hcontext, rfl, rfl, rfl⟩

/-- A pending promise that is protected stays a promise of the same expression. -/
theorem Interpreter.Precedes.get?_pending {state later : Interpreter}
    (hprecedes : state.Precedes later) (hheap : state.heap.Coherent)
    {ref env : Ref} {expr : Expr} {attributes : List (Symbol × Ref)}
    (hroot : ref ∈ state.roots.edges) (hget : state.heap.get? ref =
    some ⟨.promise (.pending expr env), attributes⟩) :
    later.heap.get? ref = some ⟨.promise (.pending expr env), attributes⟩ ∨
      ∃ value, later.heap.get? ref = some ⟨.promise (.forced expr value), attributes⟩ := by
  obtain ⟨found, hfound, hpersists⟩ := (hprecedes.persists.heap hheap).exists_persists_of_mem hheap
    (List.mem_append_right state.fixed.edges hroot) hget
  cases hpersists with
  | same => exact .inl hfound
  | environment hobject => cases hobject
  | forced hobject =>
      cases hobject
      exact .inr ⟨_, hfound⟩

namespace Handover

variable {run : Runner} {call : Expr} {env : Ref} {state : Interpreter}
  (step : Handover run call env state)

/-- The arguments of the method. -/
def args : List Arg := step.next.method.args

/-- The arguments as they are matched to the formals of the generic. -/
def generic : Matching.Setting := step.prepared.setting step.formals step.args

/-- The arguments as they are matched to the formals of the method. -/
def own : Matching.Setting :=
  step.prepared.setting (ownFormals step.next.method step.formals step.prepared) step.args

/-- Formals of the generic and of the method take the argument at an index, and
that of the method is not missing in its frame. -/
def Rereads (index : Nat) (formal : Formal) : Prop :=
  (∃ place, step.generic.Assigns index place) ∧
    ∃ place, step.own.Assigns index place ∧ step.own.formals[place]? = some formal ∧
      isMissingFormal env formal step.prepared = .ok false

/-- A reference is handed on that is a new promise of a formal in the frame of
the method, and still is a promise of that when the function is applied. -/
def Promises (formal : Formal) (promise : Ref) : Prop :=
  step.passed.heap.get? promise = some ⟨.promise (.pending (.symbol 0 formal.name) env), []⟩ ∧
    (step.ready.heap.get? promise = some ⟨.promise (.pending (.symbol 0 formal.name) env), []⟩ ∨
      ∃ value, step.ready.heap.get? promise =
        some ⟨.promise (.forced (.symbol 0 formal.name) value), []⟩)

/-- Of the arguments with the same reference the first ones are handed on as the
first formal of the method that received it, as many as formals of the generic
received it, and the others unchanged. -/
def SharesOut (matched ownMatched : List Matched) : Prop :=
  ∀ index tag value, step.args[index]? = some ⟨tag, some value⟩ →
    (∀ formal, reread? env (step.own.formals.zip ownMatched) step.prepared value = some formal →
      Replaced.before step.args index value < matched.count (.supplied value) →
      ∃ promise, step.handed[index]? = some ⟨tag, some promise⟩ ∧ step.Promises formal promise) ∧
    (reread? env (step.own.formals.zip ownMatched) step.prepared value = none ∨
        matched.count (.supplied value) ≤ Replaced.before step.args index value →
      step.handed[index]? = some ⟨tag, some value⟩)

/-- What a call of `NextMethod` does with the arguments of its method. -/
structure HandsOn : Prop where
  /-- The arguments are those of the call in progress in the environment. -/
  context : ∃ context, state.functionWithEnv? env = some context ∧ context.args = step.args ∧
    context.fn = step.next.method.fn
  /-- The function is applied to what is handed on, with the further arguments
  merged in. -/
  applies : resumeDispatch run call env state =
    applyMethod run step.selection step.next.method.call (Args.merge step.handed step.next.extras)
      step.next.method.callEnv step.ready
  length : step.handed.length = step.args.length
  /-- An argument that shares no reference is handed on as the method's formal
  for it, -/
  reread : ∀ index tag value formal, step.args[index]? = some ⟨tag, some value⟩ →
    Unshared step.args index → step.Rereads index formal →
    ∃ promise, step.handed[index]? = some ⟨tag, some promise⟩ ∧ step.Promises formal promise
  /-- and unchanged if not both have a formal for it. -/
  unchanged : ∀ index, Unshared step.args index → (∀ formal, ¬ step.Rereads index formal) →
    step.handed[index]? = step.args[index]?
  /-- An empty argument is handed on unchanged, whatever the method assigned to
  its formal. -/
  empty : ∀ (index : Nat) tag, step.args[index]? = some ⟨tag, none⟩ →
    step.handed[index]? = some ⟨tag, none⟩
  shared : ∃ matched ownMatched, step.generic.outcome = .ok matched ∧
    step.own.outcome = .ok ownMatched ∧ step.SharesOut matched ownMatched

theorem applies_eq : resumeDispatch run call env state =
    applyMethod run step.selection step.next.method.call (Args.merge step.handed step.next.extras)
      step.next.method.callEnv step.ready := by
  have hargs : passedArgs run step.symbol step.next step.named =
      .ok (Args.merge step.handed step.next.extras) step.passed :=
    (bind_of_ok step.hprepared).trans (bind_of_ok step.hpassed)
  exact (bind_of_ok step.hchecked).trans ((bind_of_ok step.hnamed).trans
    ((bind_of_ok hargs).trans (bind_of_ok step.hready)))

/-- A call that comes to a value came to apply a function. -/
theorem nonempty_of_ok {value : Ref} {after : Interpreter}
    (hok : resumeDispatch run call env state = .ok value after) :
    Nonempty (Handover run call env state) := by
  obtain ⟨next, checked, hchecked, hinterns⟩ := bind_eq_ok hok
  obtain ⟨symbol, named, hnamed, hpasses⟩ := bind_eq_ok hinterns
  obtain ⟨args, passed, hargs, hselects⟩ := bind_eq_ok hpasses
  obtain ⟨selection, ready, hready, -⟩ := bind_eq_ok hselects
  obtain ⟨formals, prepared, hprepared, hrebinds⟩ := bind_eq_ok hargs
  obtain ⟨handed, last, hpassed, hmerged⟩ := bind_eq_ok hrebinds
  cases hmerged
  exact ⟨⟨next, checked, hchecked, symbol, named, hnamed, formals, prepared,
    hprepared, handed, passed, hpassed, selection, ready, hready⟩⟩

section SharesOut

variable {step} {matched ownMatched : List Matched} {index : Nat}
  {tag : Option Symbol} {value : Ref} {formal : Formal}
  (hgeneric : step.generic.outcome = .ok matched)
  (hown : step.own.outcome = .ok ownMatched) (hshares : step.SharesOut matched ownMatched)

include hgeneric hown hshares

/-- An argument that shares no reference is handed on as the method's formal for
it. -/
theorem SharesOut.reread (hactual : step.args[index]? = some ⟨tag, some value⟩)
    (hunshared : Unshared step.args index) (hrereads : step.Rereads index formal) :
    ∃ promise, step.handed[index]? = some ⟨tag, some promise⟩ ∧ step.Promises formal promise := by
  have hvalue : step.args[index]?.bind (·.value) = some value :=
    Option.bind_eq_some_iff.mpr ⟨_, hactual, rfl⟩
  obtain ⟨hreceived, place, hassigns, hformal, hmissing⟩ := hrereads
  obtain ⟨found, hfound, hname⟩ := hunshared.exists_formalOf? hvalue hown hassigns hformal
  have hpresent : isMissingFormal env found step.prepared = .ok false := by
    rw [isMissingFormal, hname]
    exact hmissing
  have hreread : reread? env (step.own.formals.zip ownMatched) step.prepared value = some found :=
    Option.filter_eq_some_iff.mpr ⟨hfound, isPresent_iff.mpr hpresent⟩
  have hcount := (hunshared.count_pos_iff hvalue hgeneric).mpr hreceived
  rw [← hunshared.before_eq_zero hvalue] at hcount
  obtain ⟨promise, hhanded, hpromises⟩ := (hshares index tag value hactual).1 found hreread hcount
  rw [Promises, hname] at hpromises
  exact ⟨promise, hhanded, hpromises⟩

/-- An argument that shares no reference is handed on unchanged if not both have
a formal for it. -/
theorem SharesOut.unchanged (hactual : step.args[index]? = some ⟨tag, some value⟩)
    (hunshared : Unshared step.args index) (hrereads : ∀ formal, ¬ step.Rereads index formal) :
    step.handed[index]? = some ⟨tag, some value⟩ := by
  have hvalue : step.args[index]?.bind (·.value) = some value :=
    Option.bind_eq_some_iff.mpr ⟨_, hactual, rfl⟩
  refine (hshares index tag value hactual).2 ?_
  cases hreread : reread? env (step.own.formals.zip ownMatched) step.prepared value with
  | none => exact .inl rfl
  | some formal =>
      refine .inr (Nat.not_lt.mp fun hlt => hrereads formal ?_)
      obtain ⟨hfound, hpresent⟩ := Option.filter_eq_some_iff.mp hreread
      obtain ⟨place, hassigns, hformal⟩ := hunshared.assigns_of_formalOf? hvalue hown hfound
      have hreceived := (hunshared.count_pos_iff hvalue hgeneric).mp (Nat.zero_lt_of_lt hlt)
      exact ⟨hreceived, place, hassigns, hformal, isPresent_iff.mp hpresent⟩

end SharesOut

/-- What is handed on, if the heap issued the frame and the arguments of the
method. -/
theorem exists_sharesOut {origin : Heap} (hissues : Issues origin env step.args step.prepared)
    (hwraps : origin.NeverWraps step.passed.heap) (hprecedes : step.passed.Precedes step.ready)
    (hheap : step.passed.heap.Coherent) :
    ∃ matched ownMatched, step.generic.outcome = .ok matched ∧ step.own.outcome = .ok ownMatched ∧
      step.SharesOut matched ownMatched ∧ step.handed.length = step.args.length ∧
      ∀ (index : Nat) tag, step.args[index]? = some ⟨tag, none⟩ →
        step.handed[index]? = some ⟨tag, none⟩ := by
  obtain ⟨context, -, -, -, henv⟩ := method_of_callingGeneric step.hchecked
  have hmethod : Issues origin step.next.method.env step.next.method.args step.prepared := by
    rw [henv]
    exact hissues
  obtain ⟨matched, ownMatched, hgeneric, hown, hall⟩ :=
    replaced_of_rebindArgs hmethod step.hpassed hwraps
  have hreplaced : Replaced (Promised env (step.own.formals.zip ownMatched) step.args step.prepared
      step.passed) (owed env (step.own.formals.zip ownMatched) step.prepared matched) step.args
      step.handed := by
    rw [henv] at hall
    exact hall
  refine ⟨matched, ownMatched, hgeneric, hown, ?_, hreplaced.length_eq, ?_⟩
  · intro index tag value harg
    rcases hreplaced.getElem? harg with ⟨hsame, hle⟩ | ⟨other, new, hvalue, hlt, hpromised, hgot⟩
    · refine ⟨fun formal hreread hlt => ?_, fun _ => hsame⟩
      have howed := hle value rfl
      rw [owed_of_some hreread] at howed
      exact absurd hlt (Nat.not_lt.mpr howed)
    · cases hvalue
      obtain ⟨found, hfound, hget⟩ := hpromised.content
      refine ⟨fun formal hreread _ => ?_, fun hkept => ?_⟩
      · cases hreread.symm.trans hfound
        exact ⟨new, hgot, hget, hprecedes.get?_pending hheap hpromised.root hget⟩
      · rw [owed_of_some hfound] at hlt
        rcases hkept with hnone | hle
        · cases hnone.symm.trans hfound
        · exact absurd hlt (Nat.not_lt.mpr hle)
  · intro index tag harg
    rcases hreplaced.getElem? harg with ⟨hsame, -⟩ | ⟨value, new, hvalue, -⟩
    · exact hsame
    · cases hvalue

/-- **What a call hands on**, if the heap issued the frame and the arguments of
the method. -/
theorem handsOn {origin : Heap} (hissues : Issues origin env step.args step.prepared)
    (hwraps : origin.NeverWraps step.passed.heap) (hprecedes : step.passed.Precedes step.ready)
    (hheap : step.passed.heap.Coherent) : step.HandsOn := by
  obtain ⟨context, hcontext, hfn, hargs, -⟩ := method_of_callingGeneric step.hchecked
  obtain ⟨matched, ownMatched, hgeneric, hown, hshares, hlength, hempty⟩ :=
    step.exists_sharesOut hissues hwraps hprecedes hheap
  refine ⟨⟨context, hcontext, hargs.symm, hfn.symm⟩, step.applies_eq, hlength,
    fun index tag value formal => hshares.reread hgeneric hown, fun index hunshared hrereads => ?_,
    hempty, matched, ownMatched, hgeneric, hown, hshares⟩
  cases harg : step.args[index]? with
  | none =>
      rw [List.getElem?_eq_none_iff] at harg ⊢
      exact hlength ▸ harg
  | some arg =>
      obtain ⟨tag, held⟩ := arg
      cases held with
      | none => exact hempty index tag harg
      | some value => exact hshares.unchanged hgeneric hown harg hunshared hrereads

end Handover

/-! ## Sessions -/

/-- A call of `NextMethod` in a state, with any nesting budget, hands the
arguments of its method on. -/
structure Interpreter.HandsOn (origin : Heap) (call : Expr) (env : Ref)
    (state : Interpreter) : Prop where
  /-- If it comes to a value, then it came to apply a function. -/
  recorded : ∀ budget value after, resumeDispatch (perform {} budget) call env
    state = .ok value after →
    Nonempty (Handover (perform {} budget) call env state)
  /-- If it comes to apply a function and no generation has come round, then to
  these arguments. -/
  handsOn : ∀ budget (step : Handover (perform {} budget) call env state),
    origin.NeverWraps step.passed.heap → step.HandsOn

/-- In a sound state the arguments of the method in progress were issued. -/
theorem RefLaw.Sound.handsOn {origin : Heap} {call : Expr} {env : Ref}
    {state : Interpreter} (hstate : (orderLaw origin).Sound state)
    (henv : (orderLaw origin).Kept .environment state env) :
    state.HandsOn origin call env := by
  refine ⟨fun budget value after hok => Handover.nonempty_of_ok hok, fun budget step hwraps => ?_⟩
  have hrun := runs_orderLaw origin budget
  have hcall : (orderLaw origin).expr call := trivial
  have hscopes := RefLaw.findsScopes_of_lax (fun hhas => hhas) hstate henv
  obtain ⟨hchecked, hnext⟩ :=
    (RefLaw.agree_callingGeneric hrun hstate hcall henv hscopes).value step.hchecked
  have hintern : (orderLaw origin).Agree .settled _ step.checked _ _ :=
    RefLaw.agree_intern hchecked.sound step.next.generic
  have hnamed := (hintern.value step.hnamed).1
  have hmethod := (orderLaw origin).lasting_methodMeets _ _ _ _ hchecked.sound hnamed hnext.method
  obtain ⟨hprepared, -⟩ :=
    (RefLaw.agree_genericFormals hrun hnamed.sound step.symbol hmethod).value step.hprepared
  have hready := (orderLaw origin).lasting_methodMeets _ _ _ _ hnamed.sound hprepared hmethod
  obtain ⟨hpassed, -⟩ :=
    (RefLaw.agree_rebindArgs hprepared.sound hready step.formals).value step.hpassed
  obtain ⟨born, hordered⟩ := hprepared.sound.inv.heap.order
  obtain ⟨context, -, -, -, hsame⟩ := method_of_callingGeneric step.hchecked
  have hframe : origin.IssuedSince step.prepared.heap step.next.method.env := hready.env
  rw [hsame] at hframe
  have hissues : Issues origin env step.args step.prepared :=
    ⟨hordered.vacant, ⟨born, hordered.chronicle⟩, hframe, hready.args⟩
  have hprecedes : step.passed.Precedes step.ready := Interpreter.precedes_of_allows
    (HeapLaw.protecting_selectNext (persistence_perform budget) _ _ _) (.value step.hready)
  exact step.handsOn hissues hwraps hprecedes hpassed.sound.inv.heap.coherent

namespace Eval

/-- The builtins, but every call of `NextMethod` is put to a test first. -/
def observedBuiltin (test : Expr → Ref → Interpreter → Bool) (alarm : Stop) :
    Builtins :=
  fun run invocation => do
    if invocation.builtin = .nextMethod ∧ test invocation.call invocation.env (← get) = false then
      throw alarm
    else runBuiltin {} run invocation

/-- Carries out a task with a nesting budget, and puts every call of
`NextMethod` to a test. -/
def performObserved (test : Expr → Ref → Interpreter → Bool) (alarm : Stop) :
    Nat → Runner :=
  performVia (overrideDispatch {}) (observedBuiltin test alarm)

end Eval

namespace RefLaw

variable {origin : Heap} {test : Expr → Ref → Interpreter → Bool} {alarm : Stop}
  (htest : ∀ call env reached, reached.HandsOn origin call env → test call env reached = true)

include htest

/-- No call raises the alarm. -/
theorem builtinsRun_observedBuiltin {run twin : Runner} (hrun : (orderLaw origin).Runs run twin) :
    (orderLaw origin).BuiltinsRun (observedBuiltin test alarm) (runBuiltin {}) run twin := by
  intro state invocation hstate hinvocation
  refine Coincide.of_eq (bind_of_ok rfl) rfl ?_
  have hpasses := htest invocation.call invocation.env state (hstate.handsOn hinvocation.env)
  rw [if_neg fun halarm => Bool.false_ne_true (halarm.2.symm.trans hpasses)]
  exact builtinsRun_of_lax hrun (genericRuns_nil _ _ _) (fun hhas => hhas) state invocation hstate
    hinvocation

theorem runs_performObserved (budget : Nat) :
    (orderLaw origin).Runs (performObserved test alarm budget) (perform {} budget) := by
  rw [← performWith_overrideDispatch]
  exact runs_performVia (fun _ hrun =>
    ⟨overrides_nil (cache_of_ordered origin) _ _, builtinsRun_observedBuiltin htest hrun⟩) budget

end RefLaw

/-- **Arguments are handed on as the method's formals.**  In the course of every
evaluation in a session without a host, every call of `NextMethod` that comes to
apply a function hands the arguments of its method on as `Handover.HandsOn`
says, as long as no generation has come round: the evaluation goes on in the
same way if all calls of `NextMethod` are put to a test that such calls pass. -/
theorem next_methods_get_formals_of_method {config : Config} {symbols : SymbolTable} {origin : Heap}
    {start state : Interpreter} (hcreate : Heap.create config.heap = .ok origin)
    (hstart : Interpreter.start config symbols = .ok start)
    (hvisits : start.Visits (fun _ _ _ => True) state) (test : Expr → Ref → Interpreter → Bool)
    (alarm : Stop)
    (htest : ∀ call env reached, reached.HandsOn origin call env → test call env reached = true)
    (budget : Nat) (expr : Expr) :
    evalTopLevel (performObserved test alarm budget) expr state =
      evalTopLevel (perform {} budget) expr state := by
  have hstate := Interpreter.sound_orderLaw_of_visits hcreate hstart hvisits
  have hexpr : (orderLaw origin).expr expr := trivial
  have hruns : (orderLaw origin).Runs (performObserved test alarm budget) (perform {} budget) :=
    RefLaw.runs_performObserved htest budget
  rcases (RefLaw.agree_evalTopLevel hruns hstate hexpr).same with hsame | ⟨hstalls, -⟩
  · exact hsame.symm
  · exact hstalls.elim

section Witness

/-- A method whose formals have other names than those of its generic, and which
assigns to the second one before it goes on to the next method. -/
def reassigningFormalTerm : Term :=
  .block [
    .assign .here "g" (.function [("x", none), ("y", none)]
      (.call (.symbol "UseMethod") [(none, .literal (.string "g"))])),
    .assign .here "g.a" (.function [("object", none), ("number", none)] (.block [
      .assign .here "number" (.literal (.integer 5)),
      .call (.symbol "NextMethod") []])),
    .assign .here "g.default" (.function [("x", none), ("y", none)] (.symbol "y")),
    .call (.symbol "g") [(none, .call (.symbol "class<-")
      [(none, .literal (.integer 1)), (none, .literal (.string "a"))]),
      (none, .literal (.integer 2))]]

/-- Whether something is a number. -/
def isNumber (number : Int64) (ref : Ref) (state : Interpreter) : Bool :=
  match asInteger? ref state with
  | .ok (some found) => found = number
  | _ => false

/-- The arguments of a method and those that its call of `NextMethod` hands on. -/
def handedOn (run : Runner) (call : Expr) (env : Ref) : Eval (List Arg × List Arg) := do
  let next ← callingGeneric run call env
  let symbol ← intern next.generic
  let formals ← genericFormals run symbol next.method
  let handed ← rebindArgs next.method formals
  let _ ← selectNext run next.generic symbol next.method
  return (next.method.args, handed)

/-- Whether a call of `NextMethod` does not hand the argument at an index on as
a promise of a formal. -/
def keepsArgument (index : Nat) (call : Expr) (env : Ref) (state : Interpreter)
    : Bool :=
  !(handedOn (perform {} 20) call env).passes
    (fun lists _ => lists.1[index]? ≠ lists.2[index]?) state

set_option maxRecDepth 1000000 in
theorem exists_reassigningFormalTerm : ∃ start expr before value after stopped,
    Interpreter.start smallConfig .empty = .ok start ∧
    resolve reassigningFormalTerm start = .ok expr before ∧
    evalTopLevel (perform {} 40) expr before = .ok value after ∧
    isNumber 5 value after = true ∧
    evalTopLevel (performObserved (keepsArgument 1) .outOfFuel 40) expr before =
      .error .outOfFuel stopped := by
  have hcheck : startPasses reassigningFormalTerm (fun expr before =>
      (evalTopLevel (perform {} 40) expr).passes (isNumber 5) before && runsOut
        (evalTopLevel (performObserved (keepsArgument 1) .outOfFuel 40) expr)
        before) = true := by
    decide +kernel
  obtain ⟨start, expr, before, hstart, hresolve, hboth⟩ := exists_of_startPasses hcheck
  obtain ⟨hpasses, hout⟩ := Bool.and_eq_true_iff.mp hboth
  obtain ⟨value, after, heval, hnumber⟩ := exists_of_passes hpasses
  obtain ⟨stopped, hstopped⟩ := exists_of_runsOut hout
  exact ⟨start, expr, before, value, after, stopped, hstart, hresolve, heval, hnumber, hstopped⟩

open Classical in
/-- The next method sees what was assigned to the second formal.  There is a
call of `NextMethod` that does not keep its second argument, and all calls hand
their arguments on as they should. -/
theorem next_methods_get_formals_of_method_reassigningFormalTerm :
    ∃ origin start expr before value after stopped,
      Heap.create smallConfig.heap = .ok origin ∧ Interpreter.start smallConfig .empty = .ok start ∧
      resolve reassigningFormalTerm start = .ok expr before ∧
      evalTopLevel (perform {} 40) expr before = .ok value after ∧ isNumber 5 value after = true ∧
      evalTopLevel (performObserved (keepsArgument 1) .outOfFuel 40) expr before =
        .error .outOfFuel stopped ∧
      evalTopLevel (performObserved
        (fun call env reached => decide (reached.HandsOn origin call env))
        .outOfFuel 40) expr before = .ok value after := by
  obtain ⟨start, expr, before, value, after, stopped, hstart, hresolve, heval, hnumber, hstopped⟩ :=
    exists_reassigningFormalTerm
  obtain ⟨origin, -, -, hcreate, -, -⟩ := Interpreter.start_eq_ok hstart
  have hbefore : start.Visits (fun _ _ _ => True) before := .resolve .start hresolve
  exact ⟨origin, start, expr, before, value, after, stopped, hcreate, hstart,
    hresolve, heval, hnumber, hstopped,
    (next_methods_get_formals_of_method hcreate hstart hbefore _
      .outOfFuel (fun _ _ _ hhands => decide_eq_true hhands) 40 expr).trans
      heval⟩

/-- A method that assigns to its third formal, called with `NULL` for the second
and the third one. -/
def sharedNullTerm : Term :=
  .block [
    .assign .here "g" (.function [("x", none), ("y", none), ("z", none)]
      (.call (.symbol "UseMethod") [(none, .literal (.string "g"))])),
    .assign .here "g.a" (.function [("x", none), ("y", none), ("z", none)] (.block [
      .assign .here "z" (.literal (.integer 5)),
      .call (.symbol "NextMethod") []])),
    .assign .here "g.default" (.function [("x", none), ("y", none), ("z", none)] (.symbol "z")),
    .call (.symbol "g") [(none, .call (.symbol "class<-")
      [(none, .literal (.integer 1)), (none, .literal (.string "a"))]), (none, .literal .null),
      (none, .literal .null)]]

set_option maxRecDepth 1000000 in
/-- **Arguments with the same reference are taken for each other.**  Both are
handed on as promises of the second formal, so the next method does not see the
number that was assigned to the third one. -/
theorem next_method_gets_other_formal : ∃ start expr before value after,
    Interpreter.start smallConfig .empty = .ok start ∧
    resolve sharedNullTerm start = .ok expr before ∧
    evalTopLevel (perform {} 40) expr before = .ok value after ∧ value = after.fixed.null := by
  have hcheck : startPasses sharedNullTerm (fun expr before =>
      (evalTopLevel (perform {} 40) expr).passes
      (fun value after => value = after.fixed.null) before) = true := by
    decide +kernel
  obtain ⟨start, expr, before, hstart, hresolve, hpasses⟩ := exists_of_startPasses hcheck
  obtain ⟨value, after, heval, hnull⟩ := exists_of_passes hpasses
  exact ⟨start, expr, before, value, after, hstart, hresolve, heval, of_decide_eq_true hnull⟩

end Witness

end LazyDispatch
