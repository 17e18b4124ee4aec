import LazyDispatch.Proofs.DispatchFrame
import LazyDispatch.Proofs.EvalLaw

/-!
# Going on from a frame

Where dispatch stands is not stored as a place: a call of `NextMethod` finds it
again from the texts in the frame of its method.  If the frame binds the
dispatch variables and they describe a method, then the call goes on from that
method.  After the last method comes the builtin of the generic's name; it is
applied under the name of the default, and so it does not dispatch again.
-/

namespace LazyDispatch

namespace Eval

open Interpreter

variable {method : MethodInProgress} {name : String}

variable {state after : Interpreter} {env : Ref} {vars : DispatchVars} {generic : String}

/-! ## Reading the dispatch variables -/

theorem dispatchStrings?_of_protects {symbol : Symbol} {ref : Ref}
    {texts : List String}
    (hvalue : frameValue? env symbol state = .ok (some ref))
    (hprotects : state.Protects ref texts) :
    dispatchStrings? env symbol state = .ok (some texts) :=
  (Query.bind_of_ok hvalue).trans (asStrings?_of_protects hprotects)

/-- The method in progress is that of the call which works in the environment.
The environments of its dispatch are those that its frame has, or else its own
and the global one. -/
theorem methodInProgress_cases
    (hok : methodInProgress env state = .ok method) :
    ∃ context head callEnv defEnv, state.functionWithEnv? env = some context ∧
      context.call.callHead? = some head ∧
      frameValue? env state.reserved.dotGenericCallEnv state = .ok callEnv ∧
      frameValue? env state.reserved.dotGenericDefEnv state = .ok defEnv ∧
      method = ⟨context.call, state.symbolName head, context.fn, context.args, env,
        callEnv.getD env, defEnv.getD state.fixed.global⟩ := by
  obtain ⟨_, hread, hok⟩ := Query.bind_eq_ok hok
  cases hread
  cases hcontext : state.functionWithEnv? env with
  | none =>
      simp only [hcontext] at hok
      cases hok
  | some context =>
      cases hhead : context.call.callHead? with
      | none =>
          simp only [hcontext, hhead] at hok
          cases hok
      | some head =>
          simp only [hcontext, hhead] at hok
          obtain ⟨callEnv, hcallEnv, hrest⟩ := Query.bind_eq_ok hok
          obtain ⟨defEnv, hdefEnv, hlast⟩ := Query.bind_eq_ok hrest
          cases hlast
          exact ⟨context, head, callEnv, defEnv, rfl, hhead, hcallEnv, hdefEnv, rfl⟩

/-- A call of `NextMethod` goes on from the method in progress.  The name of the
generic is read last. -/
theorem callingGeneric_cases {run : Runner} {call : Expr} {next : NextCall}
    (hok : callingGeneric run call env state = .ok next after) :
    methodInProgress env state = .ok next.method ∧
      ∃ given, genericName env given after = .ok next.generic := by
  obtain ⟨method, _, hread, hargs⟩ := bind_eq_ok hok
  obtain ⟨hmethod, rfl⟩ := Query.toEval_eq_ok hread
  obtain ⟨⟨given, extras⟩, matched, -, hasked⟩ := bind_eq_ok hargs
  obtain ⟨found, asked, -, hrest⟩ := bind_eq_ok hasked
  cases found with
  | none => cases hrest
  | some fn =>
      obtain ⟨name, last, hnamed, hlast⟩ := bind_eq_ok hrest
      cases hlast
      obtain ⟨hname, rfl⟩ := Query.toEval_eq_ok hnamed
      exact ⟨hmethod, given, hname⟩

/-- The method in progress works where its frame says. -/
theorem methodInProgress_eq_ok (hbinds : state.Binds env vars)
    (hok : methodInProgress env state = .ok method) :
    method.env = env ∧ method.callEnv = vars.callEnv ∧ method.defEnv = vars.defEnv := by
  obtain ⟨context, head, callEnv, defEnv, -, -, hcallEnv, hdefEnv, rfl⟩ :=
    methodInProgress_cases hok
  cases hbinds.callEnv.symm.trans hcallEnv
  cases hbinds.defEnv.symm.trans hdefEnv
  exact ⟨rfl, rfl, rfl⟩

theorem genericName_eq_ok {given : Option String}
    (hbinds : state.Binds env vars)
    (hprotects : state.Protects vars.generic [generic])
    (hok : genericName env given state = .ok name) : name = generic := by
  obtain ⟨_, hread, hok⟩ := Query.bind_eq_ok hok
  cases hread
  obtain ⟨value, hvalue, hok⟩ := Query.bind_eq_ok hok
  cases hbinds.generic.symm.trans hvalue
  obtain ⟨found, hfound, hok⟩ := Query.bind_eq_ok hok
  have hstring : asString? vars.generic state = .ok (if generic = "" then none else some generic) :=
    Query.bind_of_ok (asStrings?_of_protects hprotects)
  cases hstring.symm.trans hfound
  by_cases hempty : generic = ""
  · rw [if_pos hempty] at hok
    cases hok
  · rw [if_neg hempty] at hok
    cases hok
    rfl

/-- The classes that dispatch goes on with are those from the method on. -/
theorem remainingClasses_of_binds {run : Runner} {classes : List String}
    (hsound : state.Sound) (hbinds : state.Binds method.env vars)
    (hclasses : state.HoldsClasses vars.classes classes) :
    remainingClasses run method state = .ok classes state := by
  refine (bind_of_ok rfl).trans ((bind_of_ok (lift_of_ok hbinds.classes)).trans ?_)
  rcases hclasses with hprotects | ⟨hnull, hnone⟩
  · exact bind_of_ok (lift_of_ok (asStrings?_of_protects hprotects))
  · obtain ⟨attributes, hget⟩ := hsound.null
    rw [← hnull] at hget
    have hstrings : asStrings? vars.classes state = .ok none :=
      Query.bind_of_ok (payload_of_get? hget)
    rw [hnone]
    exact bind_of_ok (lift_of_ok hstrings)

/-- Dispatch stands where the frame says. -/
theorem resumePoint_of_binds {run : Runner} {texts : DispatchTexts}
    (hsound : state.Sound) (hbinds : state.Binds method.env vars)
    (hvars : vars.Describe state texts) (hnames : SoleName name texts.names) :
    resumePoint run method state = .ok
      ⟨texts.classes, some vars.group, texts.group, some texts.names, name⟩ state := by
  refine (bind_of_ok (remainingClasses_of_binds hsound hbinds hvars.classes)).trans
    ((bind_of_ok rfl).trans ?_)
  refine (bind_of_ok (lift_of_ok hbinds.group)).trans ?_
  have hgroup := dispatchStrings?_of_protects hbinds.group hvars.group
  refine (bind_of_ok (lift_of_ok hgroup)).trans ?_
  have hmethod := dispatchStrings?_of_protects hbinds.method hvars.method
  refine (bind_of_ok (lift_of_ok hmethod)).trans ?_
  simp only [Option.getD_some, hnames.namesDiffer_eq, hnames.runningName_eq]
  rfl

/-- A call of `NextMethod` goes on with the generic that the frame names. -/
theorem callingGeneric_eq_ok {run : Runner} {call : Expr} {next : NextCall}
    (hbinds : state.Binds env vars) (hafter : after.Binds env vars)
    (hprotects : after.Protects vars.generic [generic])
    (hok : callingGeneric run call env state = .ok next after) :
    next.generic = generic ∧ next.method.env = env ∧
    next.method.callEnv = vars.callEnv ∧
      next.method.defEnv = vars.defEnv := by
  obtain ⟨hmethod, given, hname⟩ := callingGeneric_cases hok
  exact ⟨genericName_eq_ok hafter hprotects hname, methodInProgress_eq_ok hbinds hmethod⟩

/-! ## The function of the generic's name -/

theorem isFunction_of_functionInFrame? {run : Runner} {symbol : Symbol}
    {frame : Frame} {fn : Ref}
    (hok : functionInFrame? run symbol frame state = .ok (some fn) after) :
    ∃ object, payload fn after = .ok object ∧ object.isFunction = true := by
  unfold functionInFrame? at hok
  cases hfind : frame.find? symbol with
  | none =>
      rw [hfind] at hok
      cases hok
  | some binding =>
      rw [hfind] at hok
      obtain ⟨value, middle, -, hvalue⟩ := bind_eq_ok hok
      cases value with
      | none => cases hvalue
      | some value =>
          obtain ⟨object, _, hread, hlast⟩ := bind_eq_ok hvalue
          obtain ⟨hobject, rfl⟩ := Query.toEval_eq_ok hread
          by_cases hfunction : object.isFunction = true
          · rw [if_pos hfunction] at hlast
            cases hlast
            exact ⟨object, hobject, hfunction⟩
          · rw [if_neg hfunction] at hlast
            cases hlast

theorem isFunction_of_findFunFrom {run : Runner} {symbol : Symbol} {fn : Ref}
    {budget : Nat} {cursor : Option Ref}
    (hok : findFunFrom run symbol budget cursor state = .ok (some fn) after) :
    ∃ object, payload fn after = .ok object ∧ object.isFunction = true := by
  induction budget generalizing cursor state with
  | zero => cases cursor <;> cases hok
  | succ budget ih =>
      cases cursor with
      | none => cases hok
      | some ref =>
          obtain ⟨found, _, -, hok⟩ := bind_eq_ok hok
          obtain ⟨value, middle, hvalue, hok⟩ := bind_eq_ok hok
          cases value with
          | none => exact ih hok
          | some value =>
              cases hok
              exact isFunction_of_functionInFrame? hvalue

/-- What is found as a function is one. -/
theorem isFunction_of_findFun? {run : Runner} {symbol : Symbol} {fn : Ref}
    (hok : findFun? run symbol env state = .ok (some fn) after) :
    ∃ object, payload fn after = .ok object ∧ object.isFunction = true := by
  obtain ⟨budget, _, -, hfrom⟩ := bind_eq_ok hok
  exact isFunction_of_findFunFrom hfrom

section Builtin

variable {run : Runner} {symbol : Symbol} {fn : Ref}

theorem genericBuiltin_of_none (hok : findFun? run symbol env state = .ok none after) :
    genericBuiltin run generic symbol env state = .error (.error (.noMoreMethods generic)) after :=
  bind_of_ok hok

theorem genericBuiltin_of_builtin
    (hok : findFun? run symbol env state = .ok (some fn) after)
    {builtin : Builtin} (hpayload : payload fn after = .ok (.builtin builtin)) :
    genericBuiltin run generic symbol env state = .ok fn after :=
  (bind_of_ok hok).trans (bind_of_ok (lift_of_ok hpayload))

theorem genericBuiltin_of_closure (hok : findFun? run symbol env state = .ok (some fn) after)
    {closure : Closure} (hpayload : payload fn after = .ok (.closure closure)) :
    genericBuiltin run generic symbol env state = .error (.error .noMethodToInvoke) after :=
  (bind_of_ok hok).trans (bind_of_ok (lift_of_ok hpayload))

/-- What comes after the last method is a builtin. -/
theorem genericBuiltin_eq_ok
    (hok : genericBuiltin run generic symbol env state = .ok fn after) :
    ∃ builtin, payload fn after = .ok (.builtin builtin) := by
  obtain ⟨resolved, found, hresolved, hrest⟩ := bind_eq_ok hok
  cases resolved with
  | none => cases hrest
  | some resolved =>
      obtain ⟨object, _, hread, hlast⟩ := bind_eq_ok hrest
      obtain ⟨hobject, rfl⟩ := Query.toEval_eq_ok hread
      cases object with
      | builtin builtin =>
          cases hlast
          exact ⟨builtin, hobject⟩
      | _ => cases hlast

end Builtin

/-! ## Builtins under the name of a default -/

theorem ends_methodName_default (generic : String) :
    Text.ends ".default" (methodName generic "default") = true := by
  unfold Text.ends methodName
  rw [List.isSuffixOf_iff_suffix, String.append_assoc, String.toList_append]
  exact List.suffix_append _ _

variable {hooks : Hooks} {run : Runner} {call : Expr} {builtin : Builtin}

/-- A builtin that is called by the name of a default does not dispatch. -/
theorem applyBuiltin_of_default {head : Symbol} (hhead : call.callHead? = some head)
    (hname : state.naming.symbols.name? head = some (methodName generic "default"))
    (args : List Arg) :
    applyBuiltin hooks run call builtin args env state =
      runBuiltin hooks run { builtin, call, args, env } state := by
  have hsymbol : symbolName head state = .ok (methodName generic "default") := by
    refine (Query.bind_of_ok rfl).trans ?_
    rw [hname]
    rfl
  have hdefault : isDefaultCall call state = .ok true := by
    unfold isDefaultCall
    rw [hhead]
    refine (Query.bind_of_ok hsymbol).trans ?_
    rw [ends_methodName_default]
    rfl
  have hmethod : methodDispatch hooks run call builtin args env state = .ok none state :=
    bind_of_ok (lift_of_ok hdefault)
  exact bind_of_ok hmethod

/-- A builtin itself, run on its forced arguments, without dispatch. -/
def runForced (hooks : Hooks) (run : Runner) (builtin : Builtin) (call : Expr)
    (args : List Arg) (env : Ref) : Eval Ref :=
  withRoots do
    let args ← args.mapM (forceArg run)
    runBuiltin hooks run { builtin, call, args, env }

theorem name?_of_intern {symbol : Symbol}
    (hok : intern name state = .ok symbol after) :
    after.naming.symbols.name? symbol = some name := by
  cases hok
  exact SymbolTable.name?_intern _ _

theorem symbolName_of_name? {symbol : Symbol}
    (hname : state.naming.symbols.name? symbol = some name) :
    state.symbolName symbol = name := by
  rw [Interpreter.symbolName, hname]
  rfl

/-- An eager builtin that is selected as a default is applied under the name of
the default, so that it runs itself. -/
theorem applyMethod_of_builtin {budget : Nat}
    (hrun : ∀ task, persistence.Settled (perform hooks budget task)) {selection : Selection}
    (hname : selection.name = methodName generic "default")
    {attributes : List (Symbol × Ref)}
    (hget : state.heap.get? selection.method = some ⟨.builtin builtin, attributes⟩)
    (hrole : builtin.role ≠ .special) (call : Expr) (args : List Arg) (caller : Ref) :
    ∃ (renamed : Expr) (called : Interpreter),
      renamed.callHead?.map called.symbolName = some selection.name ∧
      applyMethod (perform hooks (budget + 1)) selection call args caller state =
        runForced hooks (perform hooks budget) builtin renamed args caller called := by
  obtain ⟨head, named, hnamed⟩ : ∃ head named, intern selection.name state = .ok head named :=
    ⟨_, _, rfl⟩
  obtain ⟨renamed, called, hcalled⟩ : ∃ renamed called, renamedCall head call named =
    .ok renamed called := ⟨_, _, rfl⟩
  have hprecedes : named.Precedes called :=
    precedes_of_allows (HeapLaw.settled_renamedCall head call) (.value hcalled)
  have hhead : renamed.callHead? = some head := by
    cases hcalled
    rfl
  have hheadName : called.naming.symbols.name? head = some selection.name :=
    hprecedes.persists.names.name? (name?_of_intern hnamed)
  have hpayload : payload selection.method called = .ok (.builtin builtin) := by
    cases hnamed
    cases hcalled
    exact payload_of_get? hget
  refine ⟨renamed, called, ?_, ?_⟩
  · rw [hhead, Option.map_some, symbolName_of_name? hheadName]
  · refine (bind_of_ok hnamed).trans ((bind_of_ok hcalled).trans ((bind_of_ok rfl).trans ?_))
    refine (bind_of_ok (lift_of_ok hpayload)).trans ?_
    dsimp only
    rw [if_neg hrole]
    apply withRoots_congr
    apply bind_congr_of_ok
    intro forced middle hforced
    -- Whatever forcing the arguments does, the head keeps its name.
    have hforcing := precedes_of_allows (Effect.Allows.mapM (HeapLaw.protecting_forceArg hrun))
      (.value hforced)
    have hstill := hforcing.persists.names.name? hheadName
    rw [hname] at hstill
    exact applyBuiltin_of_default hhead hstill forced

end Eval

end LazyDispatch
