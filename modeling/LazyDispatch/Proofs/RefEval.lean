import LazyDispatch.Proofs.RefBuiltins

/-!
# Evaluation under a reference law

The methods of a host get the first chance at a call of a builtin.  To compare
evaluations that ask the host in different ways, or that let builtins do
different things, evaluation is stated for an arbitrary way to ask and arbitrary
builtins (`performVia`); with `overrideDispatch` and `runBuiltin` it is
evaluation itself.  The circle is closed by induction on the nesting budget
(`runs_performVia`).
-/

namespace LazyDispatch

namespace Eval

/-- A way to ask a host for the value of a call of a builtin. -/
abbrev Dispatcher := Runner → Expr → Builtin → List Arg → Ref → Eval (Option Ref)

/-- What builtins do. -/
abbrev Builtins := Runner → Invocation → Eval Ref

section Dispatchers

variable (override : Dispatcher) (builtins : Builtins) (hooks : Hooks) (run : Runner)

/-- The value of a call of a builtin that a method takes over, if one does. -/
def methodDispatchWith (call : Expr) (builtin : Builtin) (args : List Arg) (env : Ref) :
    Eval (Option Ref) := do
  if ← isDefaultCall call then return none
  else
    match ← override run call builtin args env with
    | some value => return some value
    | none => roleDispatch run call builtin args env

/-- Applies a builtin to evaluated arguments. -/
def applyBuiltinWith (call : Expr) (builtin : Builtin) (args : List Arg)
    (env : Ref) : Eval Ref := do
  match ← methodDispatchWith override run call builtin args env with
  | some value => return value
  | none => builtins run { builtin, call, args, env }

/-- Applies a function. -/
def applyFunctionWith (call : Expr) (fn : Ref) (args : List Arg) (env : Ref)
    (supplied : List (Symbol × Ref)) : Eval Ref := do
  match ← payload fn with
  | .closure _ => applyClosure run call fn args env supplied
  | .builtin builtin =>
    if builtin.role = .special then builtins run { builtin, call, args := [], env }
    else
      withRoots do
        let args ← args.mapM (forceArg run)
        applyBuiltinWith override builtins run call builtin args env
  | _ => raise .notAFunction

/-- Evaluates a call. -/
def evalCallWith (call head : Expr) (args : List ExprArg) (env : Ref) : Eval Ref := do
  let fn ← calledFunction run head env
  match ← payload fn with
  | .closure _ =>
    withRoots do
      let _ ← protect fn
      applyClosure run call fn (← promiseArgs args env) env []
  | .builtin builtin =>
    withRoots do
      let _ ← protect fn
      if builtin.role = .special then builtins run { builtin, call, args := [], env }
      else applyBuiltinWith override builtins run call builtin (← evalArgs run args env) env
  | _ => raise .notAFunction

/-- Evaluates an expression. -/
def evalExprWith (expr : Expr) (env : Ref) : Eval Ref :=
  match expr with
  | .call _ head args => evalCallWith override builtins run expr head args env
  | _ => evalExpr {} run expr env

/-- Carries out a task with a nesting budget. -/
def performVia : Nat → Runner
  | 0, _ => throw .outOfFuel
  | budget + 1, .eval expr env => do
    tick
    evalExprWith override builtins (performVia budget) expr env
  | budget + 1, .apply call fn args env supplied =>
    applyFunctionWith override builtins (performVia budget) call fn args env supplied

/-- The same with the builtins as they are. -/
def performWith : Nat → Runner :=
  performVia override (runBuiltin hooks)

/-- The evaluator is the case of the host's own dispatch. -/
theorem evalExprWith_overrideDispatch :
    evalExprWith (overrideDispatch hooks) (runBuiltin hooks) run = evalExpr hooks run := by
  funext expr env
  cases expr <;> rfl

/-- Evaluation asks the host through its methods. -/
theorem performWith_overrideDispatch (budget : Nat) :
    performWith (overrideDispatch hooks) hooks budget = perform hooks budget := by
  induction budget with
  | zero => rfl
  | succ budget ih =>
      funext task
      cases task with
      | eval expr env =>
          unfold performWith performVia perform
          rw [← ih, ← evalExprWith_overrideDispatch]
          rfl
      | apply call fn args env supplied =>
          unfold performWith performVia perform
          rw [← ih]
          rfl

end Dispatchers

end Eval

namespace RefLaw

open Eval

variable {call : Expr}

variable {law : RefLaw} {state : Interpreter} {scope : Scope} {kind : Kind} {ref env : Ref}

/-- The standard generic of a host, called with one of two runners, keeps to the
law. -/
def GenericRuns (law : RefLaw) (hooks : Hooks) (run twin : Runner) : Prop :=
  ∀ hook, hooks.standardGeneric = some hook → ∀ state name env fn, law.Sound state →
    law.Kept .environment state env → law.Kept .value state fn →
    law.Agree .settled (law.Now .value) state (hook run name env fn) (hook twin name env fn)

/-- Two ways to ask a host, each with its runner, coincide and keep to the law. -/
def Overrides (law : RefLaw) (override other : Dispatcher) (run twin : Runner) :
    Prop :=
  ∀ state call builtin args env, law.Sound state → law.expr call → law.ArgsKept .value state args →
    law.Kept .environment state env → law.Agree .settled (law.EachNow .value) state
      (override run call builtin args env) (other twin call builtin args env)

/-- Builtins that do one or the other thing, each with its runner, coincide and
keep to the law. -/
def BuiltinsRun (law : RefLaw) (builtins others : Builtins) (run twin : Runner)
    : Prop :=
  ∀ state invocation, law.Sound state → law.InvocationMeets state invocation →
    law.Agree .settled (law.Now .value) state (builtins run invocation) (others twin invocation)

section Evaluation

variable {hooks : Hooks} {run twin : Runner} (hrun : law.Runs run twin)
  (hgeneric : law.GenericRuns hooks run twin)

include hrun

/-! ## Standard generics -/

/-- The plain function of one frame. -/
theorem agree_plainFunctionIn? (hstate : law.Sound state) {frame : Frame}
    (hframe : frame.Meets (law.Kept · state) law.loose state.reserved.dots) (symbol : Symbol) :
    law.Agree .settled (law.EachKept .value) state (plainFunctionIn? run symbol frame)
      (plainFunctionIn? twin symbol frame) := by
  have hnone : ∀ {after}, law.Sound after → law.Obeys .settled (law.EachKept .value) after
      (pure none) := fun hafter => .pure hafter (law.eachKept_none _ _)
  unfold plainFunctionIn?
  split
  · exact hnone hstate
  · next binding hfind =>
      refine (agree_bindingValue? hrun hstate (hframe _ (mem_of_lookup hfind))
        (Kind.value_within_ofSymbol _ symbol)).bind fun found middle hreach hfound => ?_
      cases found with
      | none => exact hnone hreach.sound
      | some value =>
          have hkept := hfound.1 value rfl
          refine .lift_bind hreach.sound (answers_isPlainClosure hreach.sound (law.has_now hkept))
            fun plain hplain => .pure hreach.sound ?_
          cases plain with
          | false => exact law.eachKept_none _ _
          | true =>
              obtain ⟨closure, hshows⟩ := hplain rfl
              exact eachKept_some (hreach.sound.function hkept hshows rfl)

/-- The search for one along the scopes; the induction is on how many of them
are left to pass. -/
theorem agree_findPlainFrom (symbol : Symbol) (budget : Nat) (hstate : law.Sound state)
    {cursor : Option Ref} (hcursor : law.EachKept .environment state cursor) :
    law.Agree .settled (law.EachKept .value) state (findPlainFrom run symbol budget cursor)
      (findPlainFrom twin symbol budget cursor) := by
  induction budget generalizing state cursor with
  | zero =>
      cases cursor with
      | none => exact .pure hstate (law.eachKept_none _ _)
      | some ref => exact .outOfFuel
  | succ budget ih =>
      cases cursor with
      | none => exact .pure hstate (law.eachKept_none _ _)
      | some ref =>
          have hkept := hcursor ref rfl
          refine .lift_bind hstate (answers_environmentAt (law.has_now hkept)) fun env hshows => ?_
          refine (agree_plainFunctionIn? hrun hstate (hstate.holds hkept hshows).2 symbol).bind
            fun found middle hreach hfound => ?_
          cases found with
          | some fn => exact .pure hreach.sound hfound
          | none =>
              exact ih hreach.sound fun parent hparent =>
                hreach.kept hstate (hstate.parent hkept hshows parent hparent)

/-- The call of a plain function in place of a generic. -/
theorem agree_dispatchPlain (hstate : law.Sound state) (name : String)
    (henv : law.Kept .environment state env) :
    law.Agree .settled (law.Now .value) state (dispatchPlain run name env)
      (dispatchPlain twin name env) := by
  refine (agree_intern hstate name).bind fun symbol named hnamed _ => ?_
  have henv := hnamed.kept hstate henv
  refine .lift_bind hnamed.sound answers_walkBudget fun budget _ =>
    .lift_bind hnamed.sound (answers_environmentAt (law.has_now henv)) fun found hshows => ?_
  refine (agree_findPlainFrom hrun symbol budget hnamed.sound
    (hnamed.sound.parent henv hshows)).bind fun fn middle hreach hfn => ?_
  cases fn with
  | none => exact .raise hreach.sound nofun
  | some fn =>
      refine .get_bind ?_
      split
      · exact .raise hreach.sound nofun
      · next context hcontext =>
          obtain ⟨hmeets, -⟩ := hreach.sound.functionWithEnv? hcontext
          refine (agree_renamedCall hreach.sound symbol hmeets.call).bind
            fun call after hlater hcall => ?_
          have hkept : ∀ kind ref, law.Kept kind middle ref → law.Kept kind after ref :=
            fun _ _ => hlater.kept hreach.sound
          exact hrun _ _ hlater.sound ⟨hcall.1, hkept _ _ (hfn fn rfl), hmeets.args.mono hkept,
            hkept _ _ hmeets.caller, (fun _ hentry => nomatch hentry), fun _ => Or.inl rfl⟩

include hgeneric

/-- The builtin `standardGeneric`, with a hook or without. -/
theorem agree_standardGeneric (hstate : law.Sound state) (name : String)
    (henv : law.Kept .environment state env) :
    law.Agree .settled (law.Now .value) state (standardGeneric run hooks name env)
      (standardGeneric twin hooks name env) := by
  refine .get_bind ?_
  split
  · exact .raise hstate nofun
  · next context hcontext =>
      split
      · next hook hhook =>
          exact hgeneric hook hhook state name env _ hstate henv
            (hstate.functionWithEnv? hcontext).2
      · have hflag : ∀ {state}, law.Sound state → law.Obeys .settled (fun _ _ => True) state
            (modify fun state => { state with plainStandardGeneric := true }) := fun hstate =>
          .quiet hstate (.of_eq rfl rfl rfl rfl rfl) rfl rfl
        refine .get_bind ?_
        split
        · exact agree_dispatchPlain hrun hstate name henv
        · refine (agree_warn hstate _).bind fun _ warned hwarned _ =>
            (hflag hwarned.sound).bind fun _ flagged hflagged _ => ?_
          exact agree_dispatchPlain hrun hflagged.sound name
            ((hwarned.trans hflagged).kept hstate henv)

/-! ## Application -/

/-- Every builtin keeps to the law, `NextMethod` where it finds its scopes. -/
theorem agree_runBuiltin (hstate : law.Sound state) {invocation : Invocation}
    (hinvocation : law.InvocationMeets state invocation)
    (hscopes : invocation.builtin = .nextMethod → law.FindsScopes state invocation.env) :
    law.Agree .settled (law.Now .value) state (runBuiltin hooks run invocation)
      (runBuiltin hooks twin invocation) := by
  unfold runBuiltin
  split
  · exact agree_quote hstate hinvocation
  · exact agree_missing hstate hinvocation
  · exact .lift_bind hstate (answers_exprPair hinvocation) fun _ hpair =>
      agree_callUseMethod hrun hstate _ hpair.1 hpair.2 hinvocation.env
  · next hbuiltin =>
      exact agree_callNextMethod hrun hstate hinvocation.call hinvocation.env (hscopes hbuiltin)
  · refine .lift_bind hstate (answers_exprPair hinvocation) fun pair hpair => ?_
    refine (hrun state (.eval _ _) hstate ⟨hpair.1, hinvocation.env⟩).bind
      fun value middle hreach hvalue =>
      .lift_bind hreach.sound (answers_asString? hvalue) fun name _ => ?_
    cases name with
    | none => exact .raise hreach.sound nofun
    | some name =>
        exact agree_standardGeneric hrun hgeneric hreach.sound name
          (hreach.kept hstate hinvocation.env)
  · exact agree_arithmetic hstate hinvocation _
  · exact agree_arithmetic hstate hinvocation _
  · exact agree_arithmetic hstate hinvocation _
  · exact agree_arithmetic hstate hinvocation _
  · exact agree_comparison hstate hinvocation _
  · exact agree_comparison hstate hinvocation _
  · exact agree_comparison hstate hinvocation _
  · exact agree_comparison hstate hinvocation _
  · exact agree_combine hstate hinvocation
  · exact agree_makeList hstate hinvocation
  · exact agree_lengthOf hstate hinvocation
  · exact agree_classOf hstate hinvocation
  · exact agree_oldClass hstate hinvocation
  · exact agree_setClassOf hstate hinvocation
  · exact agree_unclass hstate hinvocation
  · exact agree_inherits hstate hinvocation
  · exact agree_identical hstate hinvocation
  · exact agree_argOrNull hstate hinvocation
  · exact agree_returnValue hstate hinvocation
  · exact agree_stop hstate hinvocation
  · exact agree_warning hstate hinvocation
  · exact agree_environmentOf hstate hinvocation
  · exact agree_parentFrame hstate hinvocation
  · exact agree_sysCall hstate
  · exact agree_sysFunction hstate
  · exact agree_isFunction hstate hinvocation
  · exact agree_gc hstate

/-- Builtins keep to a law under which any value may serve as an environment. -/
theorem builtinsRun_of_lax (hlax : law.Lax) :
    law.BuiltinsRun (runBuiltin hooks) (runBuiltin hooks) run twin := by
  intro state invocation hstate hinvocation
  have hscopes := findsScopes_of_lax hlax hstate hinvocation.env
  exact agree_runBuiltin hrun hgeneric hstate hinvocation fun _ => hscopes

omit hgeneric in
/-- Dispatch by the role of a builtin. -/
theorem agree_roleDispatch (hstate : law.Sound state) (hcall : law.expr call)
    (builtin : Builtin) {args : List Arg} (hargs : law.ArgsKept .value state args)
    (henv : law.Kept .environment state env) :
    law.Agree .settled (law.EachNow .value) state (roleDispatch run call builtin args env)
      (roleDispatch twin call builtin args env) := by
  unfold roleDispatch
  split
  · exact agree_groupDispatch hrun hstate _ hcall builtin hargs henv
  · exact agree_internalDispatch hrun hstate hcall builtin hargs henv
  · exact .pure hstate (law.eachNow_none _ _)
  · exact .pure hstate (law.eachNow_none _ _)

variable {override other : Dispatcher} (hoverride : law.Overrides override other run twin)
  {builtins others : Builtins} (hbuiltins : law.BuiltinsRun builtins others run twin)

omit hgeneric

include hoverride

/-- The host is asked first, then the role of the builtin. -/
theorem agree_methodDispatchWith (hstate : law.Sound state)
    (hcall : law.expr call) (builtin : Builtin) {args : List Arg}
    (hargs : law.ArgsKept .value state args)
    (henv : law.Kept .environment state env) :
    law.Agree .settled (law.EachNow .value) state
      (methodDispatchWith override run call builtin args env)
      (methodDispatchWith other twin call builtin args env) := by
  refine .lift_bind hstate (answers_isDefaultCall call) fun isDefault _ => ?_
  cases isDefault with
  | true => exact .pure hstate (law.eachNow_none _ _)
  | false =>
      refine (hoverride state call builtin args env hstate hcall hargs henv).bind
        fun found middle hreach hfound => ?_
      cases found with
      | some value => exact .pure hreach.sound hfound
      | none =>
          exact agree_roleDispatch hrun hreach.sound hcall builtin
            (law.lasting_argsKept _ _ _ _ _ hstate hreach hargs) (hreach.kept hstate henv)

include hbuiltins

/-- A builtin runs if no method takes its place. -/
theorem agree_applyBuiltinWith (hstate : law.Sound state)
    (hcall : law.expr call) (builtin : Builtin) {args : List Arg}
    (hargs : law.ArgsKept .value state args)
    (henv : law.Kept .environment state env) :
    law.Agree .settled (law.Now .value) state
      (applyBuiltinWith override builtins run call builtin args env)
      (applyBuiltinWith other others twin call builtin args env) := by
  refine (agree_methodDispatchWith hrun hoverride hstate hcall builtin hargs henv).bind
    fun taken middle hreach htaken => ?_
  cases taken with
  | some value => exact .pure hreach.sound (htaken value rfl)
  | none =>
      exact hbuiltins _ _ hreach.sound ⟨hcall,
        law.lasting_argsKept _ _ _ _ _ hstate hreach hargs, hreach.kept hstate henv⟩

/-- A function is a closure or a builtin that forces its arguments. -/
theorem agree_applyFunctionWith (hstate : law.Sound state)
    (hcall : law.expr call) {fn : Ref} (hfn : law.Kept .value state fn)
    {args : List Arg} (hargs : law.ArgsKept .operand state args)
    (henv : law.Kept .environment state env) {supplied : List (Symbol × Ref)}
    (hsupplied : ∀ entry ∈ supplied, law.Kept .value state entry.2)
    (hgiven : law.Supplies state call supplied) :
    law.Agree .settled (law.Now .value) state
      (applyFunctionWith override builtins run call fn args env supplied)
      (applyFunctionWith other others twin call fn args env supplied) := by
  refine .lift_bind hstate (answers_payload (law.has_now hfn)) fun found _ => ?_
  cases found with
  | closure closure => exact agree_applyClosure hrun hstate hcall hfn hargs henv hsupplied hgiven
  | builtin builtin =>
      dsimp only
      split
      · exact hbuiltins _ _ hstate ⟨hcall, law.argsKept_nil _ _, henv⟩
      · refine Agree.withRoots ((agree_forceArgs hrun hstate hargs).bind
          fun args middle hreach hargs => ?_) (law.rootless_now .value)
        exact (agree_applyBuiltinWith hrun hoverride hbuiltins hreach.sound hcall builtin hargs
          (hreach.kept hstate henv)).within
  | _ => exact .raise hstate nofun

/-! ## Evaluation -/

omit hoverride hbuiltins in
/-- The head of a call is looked up or evaluated. -/
theorem agree_calledFunction (hstate : law.Sound state) {head : Expr}
    (hhead : law.expr head) (henv : law.Kept .environment state env) :
    law.Agree .settled (law.Now .value) state (calledFunction run head env)
      (calledFunction twin head env) := by
  cases head with
  | symbol site name =>
      exact (agree_findFun hrun hstate name henv).weaken fun _ _ _ hkept => law.has_now hkept
  | _ => exact hrun state _ hstate ⟨hhead, henv⟩

/-- A call: its function, its arguments, its application. -/
theorem agree_evalCallWith (hstate : law.Sound state) {head : Expr}
    {args : List ExprArg} (hcall : law.expr call) (hhead : law.expr head)
    (hargs : ∀ arg ∈ args, law.expr arg.value)
    (henv : law.Kept .environment state env) :
    law.Agree .settled (law.Now .value) state
      (evalCallWith override builtins run call head args env)
      (evalCallWith other others twin call head args env) := by
  refine (agree_calledFunction hrun hstate hhead henv).bind fun fn middle hreach hfn =>
    .lift_bind hreach.sound (answers_payload hfn) fun found _ => ?_
  have henv := hreach.kept hstate henv
  cases found with
  | closure closure =>
      have hnothing : ∀ {after}, ∀ entry ∈ ([] : List (Symbol × Ref)), law.Kept
          .value after entry.2 :=
        fun _ hentry => nomatch hentry
      refine Agree.withRoots ((agree_protect hreach.sound hfn).bind fun _ rooted hrooted hfn =>
        (agree_promiseArgs hrooted.sound hargs (hrooted.kept hreach.sound henv)).bind
          fun args after hlater hargs => ?_) (law.rootless_now .value)
      exact (agree_applyClosure hrun hlater.sound hcall (hlater.kept hrooted.sound hfn.1) hargs
        ((hrooted.trans hlater).kept hreach.sound henv) hnothing fun _ => Or.inl rfl).within
  | builtin builtin =>
      refine Agree.withRoots ((agree_protect hreach.sound hfn).bind fun _ rooted hrooted _ => ?_)
        (law.rootless_now .value)
      have henv := hrooted.kept hreach.sound henv
      split
      · exact (hbuiltins _ _ hrooted.sound ⟨hcall, law.argsKept_nil _ _, henv⟩).within
      · exact (agree_evalArgs hrun hrooted.sound hargs henv).bind fun args after hlater hargs =>
          (agree_applyBuiltinWith hrun hoverride hbuiltins hlater.sound hcall builtin hargs
            (hlater.kept hrooted.sound henv)).within
  | _ => exact .raise hreach.sound nofun

omit hoverride hbuiltins in
/-- A block is evaluated to its last value. -/
theorem agree_evalBlock {exprs : List Expr}
    (hexprs : ∀ expr ∈ exprs, law.expr expr) (hstate : law.Sound state)
    (henv : law.Kept .environment state env) :
    law.Agree .settled (law.Now .value) state (evalBlock run env exprs)
      (evalBlock twin env exprs) := by
  induction exprs generalizing state with
  | nil => exact .get_bind (agree_null hstate)
  | cons expr rest ih =>
      have hfirst := hrun state (.eval expr env) hstate ⟨hexprs expr List.mem_cons_self, henv⟩
      cases rest with
      | nil => exact hfirst
      | cons next rest =>
          exact hfirst.bind fun _ middle hreach _ =>
            ih (fun other hother => hexprs other (List.mem_cons_of_mem _ hother)) hreach.sound
              (hreach.kept hstate henv)

/-- Every form of expression keeps to the law. -/
theorem agree_evalExprWith (hstate : law.Sound state) {expr : Expr} (hexpr : law.expr expr)
    (henv : law.Kept .environment state env) :
    law.Agree .settled (law.Now .value) state (evalExprWith override builtins run expr env)
      (evalExprWith other others twin expr env) := by
  have hchild : ∀ {child}, child ∈ expr.children → law.expr child := law.expr_children hexpr
  have heval : ∀ {child after}, child ∈ expr.children → law.Reaches .settled state after →
      law.Agree .settled (law.Now .value) after (run (.eval child env)) (twin (.eval child env)) :=
    fun hmem hreach => hrun _ _ hreach.sound ⟨hchild hmem, hreach.kept hstate henv⟩
  cases expr with
  | literal site value => exact agree_allocLiteral hstate value
  | symbol site name =>
      refine .get_bind ?_
      split
      · exact .raise hstate nofun
      · next hname =>
          exact (agree_getVar hrun hstate hname henv).weaken fun _ _ _ hkept => law.has_now hkept
  | missing site => exact .raise hstate nofun
  | call site head args =>
      exact agree_evalCallWith hrun hoverride hbuiltins hstate hexpr (hchild List.mem_cons_self)
        (fun arg harg => hchild (List.mem_cons_of_mem _ (List.mem_map.mpr ⟨arg, harg, rfl⟩))) henv
  | function site formalsSite formals body =>
      have hmeets : (Object.closure { formals, formalsSite, body, env }).Meets (law.Now · state)
          law.loose law.expr state.reserved.dots := ⟨law.has_now henv, site, hexpr⟩
      exact agree_allocValue hstate ⟨rfl, rfl⟩ hmeets
  | block site exprs => exact agree_evalBlock hrun (fun _ hmem => hchild hmem) hstate henv
  | branch site condition yes no =>
      refine (heval List.mem_cons_self (.refl hstate)).bind fun value middle hreach hvalue =>
        .lift_bind hreach.sound (answers_truth hvalue) fun holds _ => ?_
      cases holds with
      | true => exact heval (List.mem_cons_of_mem _ List.mem_cons_self) hreach
      | false =>
          cases no with
          | none => exact .get_bind (agree_null hreach.sound)
          | some no =>
              exact heval (List.mem_cons_of_mem _
                (List.mem_cons_of_mem _ List.mem_cons_self)) hreach
  | assign site scope name value =>
      refine (heval List.mem_cons_self (.refl hstate)).bind fun value middle hreach hvalue => ?_
      have henv := law.has_now (hreach.kept hstate henv)
      have hmiddle := hreach.sound
      have hbinds : law.binds name := law.expr_binds hexpr List.mem_cons_self
      cases scope with
      | here =>
          have hdefined : law.Obeys .settled _ middle _ :=
            coincide_defineVar hmiddle (.refl hmiddle) (reaches_frame hmiddle)
              henv hbinds hvalue
          exact hdefined.bind fun _ after hlater hsame => .pure hlater.sound (hsame _ _ hvalue)
      | enclosing =>
          have hset : law.Obeys .settled _ middle _ := coincide_setVar hmiddle (.refl hmiddle)
            (reaches_frame hmiddle) henv hbinds hvalue
          exact hset.bind fun _ after hlater hsame => .pure hlater.sound (hsame _ _ hvalue)

end Evaluation

/-- **Evaluation keeps to every reference law**, and two evaluations that ask
the host in different ways, and let builtins do different things, coincide if
these do. -/
theorem runs_performVia {override other : Dispatcher}
    {builtins others : Builtins}
    (hhost : ∀ budget, law.Runs (performVia override builtins budget)
      (performVia other others budget) →
      law.Overrides override other (performVia override builtins budget)
      (performVia other others budget) ∧ law.BuiltinsRun builtins others
      (performVia override builtins budget) (performVia other others budget))
    (budget : Nat) :
    law.Runs (performVia override builtins budget) (performVia other others budget) := by
  induction budget with
  | zero => exact fun state task _ _ => .outOfFuel
  | succ budget ih =>
      obtain ⟨hoverride, hbuiltins⟩ := hhost budget ih
      intro state task hstate htask
      cases task with
      | eval expr env =>
          exact (agree_tick hstate).bind fun _ middle hreach _ =>
            agree_evalExprWith ih hoverride hbuiltins hreach.sound htask.1
              (hreach.kept hstate htask.2)
      | apply call fn args env supplied =>
          obtain ⟨hcall, hfn, hargs, henv, hsupplied, hgiven⟩ := htask
          exact agree_applyFunctionWith ih hoverride hbuiltins hstate hcall hfn hargs henv hsupplied
            hgiven

/-- The same of builtins as they are, under a law under which any value may
serve as an environment. -/
theorem runs_performWith {override other : Dispatcher} {hooks : Hooks}
    (hlax : law.Lax)
    (hhost : ∀ budget, law.Runs (performWith override hooks budget)
      (performWith other hooks budget) →
      law.GenericRuns hooks (performWith override hooks budget)
      (performWith other hooks budget) ∧ law.Overrides override other
      (performWith override hooks budget) (performWith other hooks budget))
    (budget : Nat) :
    law.Runs (performWith override hooks budget) (performWith other hooks budget) := by
  refine runs_performVia (fun budget hrun => ?_) budget
  obtain ⟨hgeneric, hoverrides⟩ := hhost budget hrun
  exact ⟨hoverrides, builtinsRun_of_lax hrun hgeneric hlax⟩

/-- Without hooks there is no generic of the host. -/
theorem genericRuns_nil (law : RefLaw) (run twin : Runner) :
    law.GenericRuns {} run twin :=
  fun _ hhook => nomatch hhook

/-- Without a host there are no methods to consult, as long as none are cached. -/
theorem overrides_nil (hcache : ∀ state, law.inv state → state.cache = .empty)
    (run twin : Runner) :
    law.Overrides (overrideDispatch {}) (overrideDispatch {}) run twin := by
  intro state call builtin args env hstate _ _ _
  have hentry : cacheEntry builtin state = .ok {} := by
    show Except.ok (state.cache.get builtin) = _
    rw [hcache state hstate.inv]
    rfl
  have hnone : ∀ run, overrideDispatch {} run call builtin args env state = .ok none state :=
    fun _ => bind_of_ok (lift_of_ok hentry)
  exact .of_ok (hnone run) (hnone twin) (.refl hstate) (law.eachNow_none _ _)

/-- Under a law that keeps the method cache empty, evaluation without a host
keeps to the law. -/
theorem runs_perform (hcache : ∀ state, law.inv state → state.cache = .empty)
    (hlax : law.Lax) (budget : Nat) :
    law.Runs (perform {} budget) (perform {} budget) := by
  rw [← performWith_overrideDispatch]
  exact runs_performWith hlax
    (fun _ _ => ⟨genericRuns_nil law _ _, overrides_nil hcache _ _⟩) budget

/-- A top-level evaluation keeps to a law that the runner keeps to. -/
theorem agree_evalTopLevel {run twin : Runner} (hrun : law.Runs run twin) (hstate : law.Sound state)
    {expr : Expr} (hexpr : law.expr expr) :
    law.Agree .settled (law.Now .value) state (evalTopLevel run expr) (evalTopLevel twin expr) := by
  have hsite : law.Obeys .settled (fun _ _ => True) state freshSite :=
    .quiet hstate (.of_eq rfl rfl rfl rfl rfl) rfl rfl
  exact hsite.bind fun site middle hreach _ => Agree.withRoots
    (.get_bind (hrun _ (.eval _ _) hreach.sound
      ⟨law.expr_atSite site hexpr, kept_global hreach.sound⟩).within)
    (law.rootless_now .value)

end RefLaw

end LazyDispatch
