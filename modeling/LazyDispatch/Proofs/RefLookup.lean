import LazyDispatch.Proofs.RefSteps

/-!
# Variables and arguments under a reference law

What is looked up from a kept environment is kept.  A promise that is kept keeps
its value once it is forced.  The arguments of a call are kept as soon as they
are made.
-/

namespace LazyDispatch

/-- The state while a promise is evaluated. -/
def Interpreter.evaluating (state : Interpreter) (ref : Ref) (expr : Expr)
    (env : Ref) :
    Interpreter :=
  state.amend ref (.become (.promise (.underEvaluation expr env)))

namespace RefLaw

open Eval

variable {law : RefLaw} {state : Interpreter} {scope : Scope} {kind : Kind} {ref env : Ref}

/-- What has to be known of a task. -/
def Admissible (law : RefLaw) (state : Interpreter) : Task → Prop
  | .eval expr env => law.expr expr ∧ law.Kept .environment state env
  | .apply call fn args env supplied => law.expr call ∧ law.Kept .value state fn ∧
      law.ArgsKept .operand state args ∧ law.Kept .environment state env ∧
      (∀ entry ∈ supplied, law.Kept .value state entry.2) ∧
      law.Supplies state call supplied

/-- Two runners carry out every admissible task in the same way, and keep to the
law. -/
def Runs (law : RefLaw) (run twin : Runner) : Prop :=
  ∀ state task, law.Sound state → law.Admissible state task →
    law.Agree .settled (law.Now .value) state (run task) (twin task)

/-! ## Promises -/

/-- A promise is changed in place, and nothing else is. -/
theorem coincide_setPromise {reach : Interpreter → Prop}
    (hnow : law.Now .promise state ref) (deferred : Promise)
    (hreach : ∀ former attributes, state.heap.get? ref =
      some ⟨.promise former, attributes⟩ →
      reach (state.amend ref (.become (.promise deferred)))) :
    law.Coincide reach (fun after _ =>
        (∀ kind other, law.Now kind state other → law.Now kind after other) ∧
        after.Shows ref (.promise deferred)) state
      (setPromise ref deferred) (setPromise ref deferred) := by
  cases hget : state.heap.get? ref with
  | none =>
      have hstale : promiseAt ref state = .error (.fault (.staleReference ref)) := by
        show ((fetch ref state).bind _).bind _ = _
        unfold fetch
        rw [hget]
        rfl
      have hfails : setPromise ref deferred state = _ := bind_of_error (lift_of_error hstale)
      exact .of_fault hfails hfails (law.fault_missing hnow hget).1
  | some object =>
      obtain ⟨found, attributes⟩ := object
      by_cases hpromise : ∃ former, found = .promise former
      · obtain ⟨former, rfl⟩ := hpromise
        have hset := setPromise_of_get? hget deferred
        refine .of_ok hset hset (hreach former attributes hget)
          ⟨fun _ _ hother => law.has_amend hother hget ⟨rfl, rfl, rfl⟩, attributes, ?_⟩
        exact (Heap.get?_update hget ref _).trans (congrArg some (if_pos rfl))
      · have hother : promiseAt ref state = .error (.fault (.notAPromise found.typeName)) := by
          show (payload ref state).bind _ = _
          rw [payload_of_get? hget]
          cases found with
          | promise former => exact absurd ⟨former, rfl⟩ hpromise
          | _ => rfl
        have hfails : setPromise ref deferred state = _ := bind_of_error (lift_of_error hother)
        refine .of_fault hfails hfails (law.fault_promise hnow hget ?_)
        cases found with
        | promise former => exact absurd ⟨former, rfl⟩ hpromise
        | _ => rfl

section Evaluating

variable {expr deferred : Expr} {attributes : List (Symbol × Ref)} (hstate : law.Sound state)
  (hkept : law.Kept .promise state ref)
  (hget : state.heap.get? ref = some ⟨.promise (.pending expr env), attributes⟩)

include hget in
/-- A promise under evaluation is seen as such. -/
theorem shows_evaluating :
    (state.evaluating ref expr env).Shows ref (.promise (.underEvaluation expr env)) :=
  ⟨attributes, (Heap.get?_update hget ref _).trans (congrArg some (if_pos rfl))⟩

include hkept hget in
/-- It is still the promise that it was. -/
theorem has_evaluating :
    law.has (.held (ref :: law.held state)) .promise (state.evaluating ref expr env) ref :=
  law.has_root (law.has_amend (law.has_now hkept) hget ⟨rfl, rfl, rfl⟩) List.mem_cons_self

include hstate hkept hget

/-- A promise may be put under evaluation. -/
theorem Sound.evaluating : law.Sound (state.evaluating ref expr env) := by
  have hexpr : law.expr expr := hstate.holds hkept ⟨attributes, hget⟩
  have henv : law.Now .environment state env := law.holds_edge hstate.inv hget
  exact hstate.amend hget ⟨rfl, rfl, rfl⟩ (law.inv_evaluate hstate.inv hget hexpr henv)
    (law.calls_amend hstate.inv hstate.calls hget (.promise _ _))

/-- While a promise is evaluated it is protected, and its environment is reached
from it. -/
theorem coincide_deferred {run twin : Runner} (hrun : law.Runs run twin) :
    law.Coincide (fun after => law.Reaches .settled (state.evaluating ref expr env) after ∧
        law.step (ref :: law.held state) (state.evaluating ref expr env) after) (law.Now .value)
      (state.evaluating ref expr env)
      (withRoots do
        let _ ← protect ref
        run (.eval expr env))
      (withRoots do
        let _ ← protect ref
        twin (.eval expr env)) := by
  have hself := law.has_now (has_evaluating hkept hget)
  have hprotected := (Sound.evaluating hstate hkept hget).protecting hself
  obtain ⟨hexpr, henv⟩ := hprotected.holds (kept_protecting hself) (shows_evaluating hget)
  exact coincide_protected (hrun _ _ hprotected ⟨hexpr, henv⟩) (law.rootless_now .value)

/-- The promise gets its value, or becomes pending again. -/
theorem coincide_settled {middle : Interpreter} {settled : Promise}
    (hreach : law.Reaches .settled (state.evaluating ref expr env) middle)
    (hstep : law.step (ref :: law.held state) (state.evaluating ref expr env) middle)
    (hsettled : settled = .pending expr env ∨ ∃ value, settled = .forced expr value)
    (hmeets : Object.Meets (law.Now · middle) law.loose law.expr middle.reserved.dots
      (.promise settled))
    (hedge : law.Now settled.edgeKind middle settled.edge) :
    law.Coincide (law.Reaches .settled state)
      (fun after _ => (∀ kind other, law.Now kind middle other → law.Now kind after other) ∧
        after.Shows ref (.promise settled)) middle (setPromise ref settled)
      (setPromise ref settled) := by
  have hnow : law.Now .promise middle ref := law.has_now
    (law.has_step (Sound.evaluating hstate hkept hget).inv hstep (has_evaluating hkept hget))
  refine coincide_setPromise hnow settled fun former attributes hformer => ?_
  obtain ⟨hsettles, hinv⟩ := law.on_settle settled hstate.inv hget hstep hreach.sound.inv hformer
    hsettled hmeets hedge
  refine ⟨fun hbalanced => ?_, hsettles, hreach.sound.amend hformer ⟨rfl, rfl, rfl⟩ hinv
    (law.calls_amend hreach.sound.inv hreach.sound.calls hformer (.promise _ _))⟩
  obtain ⟨hkeeps, hcalls⟩ := hreach.keeps hbalanced
  exact ⟨⟨hkeeps.calls, hkeeps.roots, hkeeps.preserved⟩, hcalls⟩

end Evaluating

section Variables

variable {run twin : Runner} (hrun : law.Runs run twin)

include hrun

/-- A kept promise keeps its value. -/
theorem agree_force (hstate : law.Sound state) (hkept : law.Kept .promise state ref) :
    law.Agree .settled (law.Kept .value) state (force run ref) (force twin ref) := by
  refine .lift_bind hstate (answers_promiseAt (law.has_now hkept)) fun deferred hshows => ?_
  cases deferred with
  | forced expr value => exact .pure hstate (hstate.holds hkept hshows)
  | underEvaluation expr env => exact .raise hstate nofun
  | pending expr env =>
    have hexpr : law.expr expr := hstate.holds hkept hshows
    obtain ⟨attributes, hget⟩ := hshows
    have hset := setPromise_of_get? hget (.underEvaluation expr env)
    refine .of_eq (bind_of_ok hset) (bind_of_ok hset)
      ((coincide_deferred hstate hkept hget hrun).attempt_bind
        fun outcome middle hmiddle houtcome => ?_)
    obtain ⟨hreach, hstep⟩ := hmiddle
    cases outcome with
    | ok value =>
        refine (coincide_settled hstate hkept hget hreach hstep (Or.inr ⟨value, rfl⟩) houtcome
          houtcome).bind_of (fun _ hafter => hafter) fun _ after hafter hshown => ?_
        exact .of_ok rfl rfl hafter (hafter.sound.holds (hafter.kept hstate hkept) hshown.2)
    | error err =>
        have hbegun := Sound.evaluating hstate hkept hget
        have henv : law.Now .environment middle env := law.has_now (law.has_step hbegun.inv hstep
          (hbegun.holds (has_evaluating hkept hget) (shows_evaluating hget)).2)
        refine (coincide_settled hstate hkept hget hreach hstep (Or.inl rfl) hexpr henv).bind_of
          (fun _ hafter => hafter) fun _ after hafter hshown => ?_
        exact .of_error rfl rfl hafter fun value target herr =>
          hshown.1 _ _ (houtcome value target herr)

/-- An operand that is no promise is its own value; a promise is forced. -/
theorem agree_forceValue (hstate : law.Sound state) (hkept : law.Kept .operand state ref) :
    law.Agree .settled (law.Kept .value) state (forceValue run ref) (forceValue twin ref) := by
  refine .lift_bind hstate (answers_payload (law.has_now hkept)) fun found hshows => ?_
  cases found with
  | promise deferred => exact agree_force hrun hstate (hstate.sharpen hkept hshows rfl)
  | _ => exact .pure hstate (hstate.operand hkept hshows rfl)

/-! ## Variables -/

/-- A binding that is looked at is bound to a value, or there is nothing to see. -/
theorem agree_bindingValue? (hstate : law.Sound state) {binding : Binding}
    (hbinding : binding.Meets (law.Kept · state) law.loose kind)
    (hvalue : Kind.value.Within kind) :
    law.Agree .settled (fun after found => law.EachKept kind after found ∧
        (found = none → binding.origin = .unbound ∨ binding.value = none)) state
      (bindingValue? run binding) (bindingValue? twin binding) := by
  obtain ⟨origin, value⟩ := binding
  have hforce : ∀ ref, law.Kept .promise state ref → law.Agree .settled
      (fun after found => law.EachKept kind after found ∧
        (found = none → origin = .unbound ∨ some ref = none)) state
      (do return some (← force run ref)) (do return some (← force twin ref)) := fun ref hkept =>
    (agree_force hrun hstate hkept).bind fun _ _ hreach hforced =>
      .pure hreach.sound ⟨eachKept_some (law.has_within hvalue hforced), nofun⟩
  cases origin with
  | unbound => exact .pure hstate ⟨law.eachKept_none kind state, fun _ => Or.inl rfl⟩
  | bound => exact .pure hstate ⟨hbinding.value, Or.inr⟩
  | missing =>
      cases value with
      | none => exact .pure hstate ⟨law.eachKept_none kind state, Or.inr⟩
      | some ref => exact hforce ref (hbinding.value ref rfl)
  | promise =>
      cases value with
      | none => exact .of_fault rfl rfl (law.fault_loose (hbinding.shape rfl) _).1
      | some ref => exact hforce ref (hbinding.value ref rfl)

/-- A variable is looked up along the scopes, and forced. -/
theorem agree_getVar (hstate : law.Sound state) {symbol : Symbol}
    (hsymbol : symbol ≠ state.reserved.dots)
    (henv : law.Kept .environment state env) :
    law.Agree .settled (law.Kept .value) state (getVar run symbol env)
      (getVar twin symbol env) := by
  refine .lift_bind hstate (answers_findVar hstate symbol henv) fun binding hvisible => ?_
  have hunbound : ∀ {err : String → EvalError}, (∀ name, law.Carries state (err name)) →
      law.Obeys .settled (law.Kept .value) state
        (do raise (err (← symbolName symbol))) := by
    intro err hcarries
    exact .lift_bind hstate (answers_symbolName symbol) fun name _ =>
      .raise hstate (hcarries name)
  rcases hvisible with rfl | hmeets
  · exact hunbound fun _ => nofun
  rw [Kind.ofSymbol, if_neg hsymbol] at hmeets
  -- What is neither unbound nor plainly missing has a value, or is out of
  -- shape.
  have hvalue : (binding.origin = .unbound ∨ binding.value = none → law.loose) →
      ∀ next : Option Ref → Eval Ref, (∀ value, next (some value) = pure value) →
      next none = fail .boundBindingEmpty → law.Agree .settled (law.Kept .value) state
        (bindingValue? run binding >>= next) (bindingValue? twin binding >>= next) := by
    intro hloose next hsome hnone
    refine (agree_bindingValue? hrun hstate hmeets fun _ hvalue => hvalue).bind
      fun found middle hreach hfound => ?_
    cases found with
    | some value =>
        rw [hsome]
        exact .pure hreach.sound (hfound.1 value rfl)
    | none =>
        rw [hnone]
        exact .of_fault rfl rfl (law.fault_loose (hloose (hfound.2 rfl)) _).2
  obtain ⟨origin, value⟩ := binding
  cases origin with
  | unbound => exact hunbound fun _ => nofun
  | missing =>
      cases value with
      | none => exact hunbound fun _ => nofun
      | some ref => exact hvalue (fun hempty => hempty.elim nofun nofun) _ (fun _ => rfl) rfl
  | bound =>
      cases value with
      | none => exact hvalue (fun _ => hmeets.shape rfl) _ (fun _ => rfl) rfl
      | some ref => exact hvalue (fun hempty => hempty.elim nofun nofun) _ (fun _ => rfl) rfl
  | promise =>
      cases value with
      | none => exact hvalue (fun _ => hmeets.shape rfl) _ (fun _ => rfl) rfl
      | some ref => exact hvalue (fun hempty => hempty.elim nofun nofun) _ (fun _ => rfl) rfl

/-- A function is looked for in one frame; a promise there is forced to see
whether it is one. -/
theorem agree_functionInFrame? (hstate : law.Sound state) (symbol : Symbol) {frame : Frame}
    (hframe : frame.Meets (law.Kept · state) law.loose state.reserved.dots) :
    law.Agree .settled (law.EachKept .value) state (functionInFrame? run symbol frame)
      (functionInFrame? twin symbol frame) := by
  unfold functionInFrame?
  cases hfind : frame.find? symbol with
  | none => exact .pure hstate (law.eachKept_none _ _)
  | some binding =>
      refine (agree_bindingValue? hrun hstate (hframe _ (mem_of_lookup hfind))
        (Kind.value_within_ofSymbol _ symbol)).bind fun found middle hreach hfound => ?_
      cases found with
      | none => exact .pure hreach.sound (law.eachKept_none _ _)
      | some value =>
          have hkept := hfound.1 value rfl
          refine .lift_bind hreach.sound (answers_payload (law.has_now hkept))
            fun object hshows => ?_
          refine .pure hreach.sound ?_
          split
          · next hfunction => exact eachKept_some (hreach.sound.function hkept hshows hfunction)
          · exact law.eachKept_none _ _

/-- The search for a function goes outward from frame to frame. -/
theorem agree_findFunFrom (hstate : law.Sound state) (symbol : Symbol) (budget : Nat)
    {cursor : Option Ref} (hcursor : law.EachKept .environment state cursor) :
    law.Agree .settled (law.EachKept .value) state (findFunFrom run symbol budget cursor)
      (findFunFrom twin symbol budget cursor) := by
  induction budget generalizing state cursor with
  | zero =>
      cases cursor with
      | none => exact .pure hstate (law.eachKept_none _ _)
      | some env => exact .outOfFuel
  | succ budget ih =>
      cases cursor with
      | none => exact .pure hstate (law.eachKept_none _ _)
      | some env =>
          have henv := hcursor env rfl
          refine .lift_bind hstate (answers_environmentAt (law.has_now henv)) fun found hshows => ?_
          obtain ⟨hparent, hframe⟩ := hstate.holds henv hshows
          refine (agree_functionInFrame? hrun hstate symbol hframe).bind
            fun fn middle hreach hfn => ?_
          cases fn with
          | some fn => exact .pure hreach.sound hfn
          | none => exact ih hreach.sound (law.lasting_eachKept _ _ _ _ _ hstate hreach hparent)

/-- From an environment the search finds a function that is kept, or none. -/
theorem agree_findFun? (hstate : law.Sound state) (symbol : Symbol)
    (henv : law.Kept .environment state env) :
    law.Agree .settled (law.EachKept .value) state (findFun? run symbol env)
      (findFun? twin symbol env) :=
  .lift_bind hstate answers_walkBudget fun budget _ =>
    agree_findFunFrom hrun hstate symbol budget (eachKept_some henv)

/-- A function that is not found is an error. -/
theorem agree_findFun (hstate : law.Sound state) (symbol : Symbol)
    (henv : law.Kept .environment state env) :
    law.Agree .settled (law.Kept .value) state (findFun run symbol env)
      (findFun twin symbol env) := by
  refine (agree_findFun? hrun hstate symbol henv).bind fun found middle hreach hfound => ?_
  cases found with
  | some fn => exact .pure hreach.sound (hfound fn rfl)
  | none =>
      exact .lift_bind hreach.sound (answers_symbolName symbol) fun _ _ => .raise hreach.sound nofun

end Variables

/-! ## Arguments -/

section Arguments

/-- The arguments of a call that may be evaluated. -/
def Evaluable (law : RefLaw) (env : Ref) (state : Interpreter) (arg : ExprArg) :
    Prop :=
  law.expr arg.value ∧ law.Kept .environment state env

/-- An argument can be evaluated as long as its environment is kept. -/
theorem lasting_evaluable (law : RefLaw) (env : Ref) :
    law.Lasting (law.Evaluable env) :=
  fun _ _ _ _ hstate hreach harg => ⟨harg.1, hreach.kept hstate harg.2⟩

/-- An argument becomes a promise, a missing one stays missing, and dots become
what they hold. -/
theorem agree_promiseArg (hstate : law.Sound state) {arg : ExprArg}
    (harg : law.Evaluable env state arg) :
    law.Obeys .protecting (law.ArgsKept .operand) state (promiseArg env arg) := by
  obtain ⟨hexpr, henv⟩ := harg
  obtain ⟨tag, expr⟩ := arg
  have hpromise : law.expr expr → law.Obeys .protecting (law.ArgsKept .operand) state
      (do return [← protectedArg tag (← allocPromise expr env)]) := fun hexpr =>
    (agree_allocPromise hstate hexpr (law.has_now henv)).bind fun _ _ hreach hnow =>
      (agree_protectedArg hreach.sound tag (law.has_within Kind.promise_within_operand hnow)).bind
        fun _ _ hlater hkept => .pure hlater.sound (argsKept_singleton hkept)
  unfold promiseArg
  cases expr with
  | missing site => exact .pure hstate (argsKept_singleton (law.eachKept_none _ _))
  | literal site value =>
      exact (agree_allocLiteral hstate value).bind fun _ _ hreach hnow =>
        (agree_protectedArg hreach.sound tag (law.has_within Kind.value_within_operand hnow)).bind
          fun _ _ hlater hkept => .pure hlater.sound (argsKept_singleton hkept)
  | symbol site name =>
      refine .get_bind ?_
      dsimp only
      split
      · exact .lift hstate (answers_dotsArgs hstate henv)
      · exact hpromise hexpr
  | _ => exact hpromise hexpr

/-- All arguments of a call become promises, in their order. -/
theorem agree_promiseArgs (hstate : law.Sound state) {args : List ExprArg}
    (hargs : ∀ arg ∈ args, law.expr arg.value) (henv : law.Kept .environment state env) :
    law.Obeys .protecting (law.ArgsKept .operand) state (promiseArgs args env) := by
  have hlists := Agree.mapM (law.lasting_evaluable env)
    (law.lasting_argsKept .operand)
    (fun _ _ hstate harg => agree_promiseArg hstate harg) hstate
    fun arg harg => ⟨hargs arg harg, henv⟩
  refine hlists.bind fun _ _ hreach hkept => ?_
  exact .pure hreach.sound (argsKept_flatten hkept)

/-- Forced arguments become promises for their values. -/
theorem agree_forcedPromiseArgs (hstate : law.Sound state) (call : Expr) {args : List Arg}
    (hargs : law.ArgsKept .value state args) :
    law.Obeys .protecting (law.ArgsKept .operand) state (forcedPromiseArgs call args) := by
  have hlasting : law.Lasting fun state (item : Arg × Expr) => law.ArgKept .value state item.1 :=
    fun _ _ _ _ hstate hreach hitem => law.lasting_argKept _ _ _ _ _ hstate hreach hitem
  refine Agree.mapM hlasting (law.lasting_argKept .operand)
    (fun state item hstate hitem => ?_) hstate fun item hitem => ?_
  · obtain ⟨⟨tag, value⟩, expr⟩ := item
    cases value with
    | none => exact .pure hstate (law.eachKept_none _ _)
    | some value =>
        have hvalue := law.has_now (hitem value rfl)
        have hmeets : (Object.promise (.forced expr value)).Meets (law.Now · state) law.loose
            law.expr state.reserved.dots := hvalue
        refine (agree_allocPayload hstate hmeets fun deferred hdeferred => ?_).bind
          fun _ _ hreach hfresh => agree_protectedArg hreach.sound tag (hfresh _ rfl)
        cases hdeferred
        exact hvalue
  · exact hargs item.1 (List.of_mem_zip hitem).1

variable {run twin : Runner} (hrun : law.Runs run twin)

include hrun

/-- An argument is forced and then protected. -/
theorem agree_forceArg (hstate : law.Sound state) {arg : Arg}
    (harg : law.ArgKept .operand state arg) :
    law.Agree .protecting (law.ArgKept .value) state (forceArg run arg) (forceArg twin arg) := by
  obtain ⟨tag, value⟩ := arg
  cases value with
  | none => exact .pure hstate (law.eachKept_none _ _)
  | some ref =>
      exact (agree_forceValue hrun hstate (harg ref rfl)).within.bind fun _ _ hreach hkept =>
        agree_protectedArg hreach.sound tag (law.has_now hkept)

/-- All arguments are forced, in their order. -/
theorem agree_forceArgs (hstate : law.Sound state) {args : List Arg}
    (hargs : law.ArgsKept .operand state args) :
    law.Agree .protecting (law.ArgsKept .value) state (args.mapM (forceArg run))
      (args.mapM (forceArg twin)) :=
  Agree.mapM (law.lasting_argKept .operand) (law.lasting_argKept .value)
    (fun _ _ hstate harg => agree_forceArg hrun hstate harg) hstate hargs

/-- An argument is evaluated and then protected; dots become the values of what
they hold. -/
theorem agree_evalArg (hstate : law.Sound state) {arg : ExprArg}
    (harg : law.Evaluable env state arg) :
    law.Agree .protecting (law.ArgsKept .value) state (evalArg run env arg)
      (evalArg twin env arg) := by
  obtain ⟨hexpr, henv⟩ := harg
  obtain ⟨tag, expr⟩ := arg
  have hvalue : law.expr expr → law.Agree .protecting (law.ArgsKept .value) state
      (do return [← protectedArg tag (← run (.eval expr env))])
      (do return [← protectedArg tag (← twin (.eval expr env))]) := fun hexpr =>
    (hrun state (.eval expr env) hstate ⟨hexpr, henv⟩).within.bind fun _ _ hreach hnow =>
      (agree_protectedArg hreach.sound tag hnow).bind
        fun _ _ hlater hkept => .pure hlater.sound (argsKept_singleton hkept)
  unfold evalArg
  cases expr with
  | missing site => exact .pure hstate (argsKept_singleton (law.eachKept_none _ _))
  | symbol site name =>
      refine .get_bind ?_
      dsimp only
      split
      · exact .lift_bind hstate (answers_dotsArgs hstate henv) fun args hargs =>
          agree_forceArgs hrun hstate hargs
      · exact hvalue hexpr
  | _ => exact hvalue hexpr

/-- All arguments of a call are evaluated, in their order. -/
theorem agree_evalArgs (hstate : law.Sound state) {args : List ExprArg}
    (hargs : ∀ arg ∈ args, law.expr arg.value)
    (henv : law.Kept .environment state env) :
    law.Agree .protecting (law.ArgsKept .value) state (evalArgs run args env)
      (evalArgs twin args env) := by
  have hlists := Agree.mapM (law.lasting_evaluable env)
    (law.lasting_argsKept .value)
    (fun _ _ hstate harg => agree_evalArg hrun hstate harg) hstate
    fun arg harg => ⟨hargs arg harg, henv⟩
  refine hlists.bind fun _ _ hreach hkept => ?_
  exact .pure hreach.sound (argsKept_flatten hkept)

end Arguments

end RefLaw

end LazyDispatch
