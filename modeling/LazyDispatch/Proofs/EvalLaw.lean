import LazyDispatch.Proofs.RefEval

/-!
# Evaluation keeps to every heap law

A heap law is a reference law that asks nothing of references and counts on the
roots alone (`toRefLaw`).  So what holds of evaluation under reference laws says
that the functions of the evaluator are settled, or protecting, under every heap
law and for every runner whose tasks are settled.  A runner that is known to be
settled may be anything; therefore the methods of a host, which may change the
method cache, are followed here.  The circle is closed for all hooks that are
settled themselves (`settled_perform`).
-/

namespace LazyDispatch

/-- The hooks, called with a certain runner, keep to an effect. -/
structure Hooks.Allowed (effect : Effect) (hooks : Hooks) (run : Runner) :
    Prop where
  quickCheck : ∀ check, hooks.quickCheck = some check →
    ∀ args methods builtin, effect.Allows (check run args methods builtin)
  methodProvider : ∀ provider, hooks.methodProvider = some provider →
    ∀ builtin env, effect.Allows (provider run builtin env)
  standardGeneric : ∀ hook, hooks.standardGeneric = some hook →
    ∀ name env fn, effect.Allows (hook run name env fn)

/-- Without hooks there is nothing to allow. -/
theorem Hooks.allowed_empty (effect : Effect) (run : Runner) :
    Hooks.Allowed effect {} run :=
  ⟨nofun, nofun, nofun⟩

namespace HeapLaw

open Eval Effect Query

variable {law : HeapLaw} {scope : Scope} {α : Type} {state : Interpreter}

/-! ## Heap laws as reference laws -/

/-- A heap law asks nothing of references, and of the calls and the roots that
they are left as they were. -/
def toRefLaw (law : HeapLaw) : RefLaw where
  inv _ := True
  step := law.step
  has _ _ _ _ := True
  fault cause _ := cause.Disciplined
  expr _ := True
  loose := True
  balanced := True
  stalls := False
  deep := false
  holds _ _ _ := Object.meets_true _ _
  fault_allocate herror := (Heap.ofHeap_of_allocate herror).disciplined
  inv_same _ _ := trivial
  step_same hsame := law.same hsame.toSameHeap
  step_trans := law.trans
  step_mono := law.mono
  unbalanced hfalse := absurd trivial hfalse
  shallow _ _ _ _ _ := trivial
  on_allocate _ hheld _ hok := ⟨law.allocate hheld hok, trivial, fun _ _ => trivial⟩
  on_collect _ hheld := ⟨law.collect hheld, trivial⟩
  on_complete _ _ _ hheld hok hstep _ := law.complete _ hheld hok hstep
  on_frame frame _ _ _ hstep _ hget _ _ := ⟨law.trans hstep (law.bind frame hget), trivial⟩
  inv_frame _ _ _ _ _ := trivial
  step_frame frame _ hget _ _ := law.bind frame hget
  inv_attribute _ _ _ _ _ := trivial
  step_class cls hget := law.classify cls hget
  inv_evaluate _ _ _ _ := trivial
  on_settle settled _ hget hstep _ _ hsettled _ _ :=
    ⟨law.evaluate settled hget hstep hsettled, trivial⟩

/-- What is held under the law are the protected references. -/
theorem held_toRefLaw (law : HeapLaw) (state : Interpreter) :
    law.toRefLaw.held state = state.roots.edges :=
  List.append_nil _

/-- A law of heaps asks nothing of a state beforehand. -/
theorem sound_toRefLaw (law : HeapLaw) (state : Interpreter) :
    law.toRefLaw.Sound state := by
  refine ⟨trivial, fun _ _ => trivial, ?_, trivial⟩
  intro context _
  exact ⟨trivial, fun _ => trivial, trivial, fun _ _ => trivial,
    fun _ _ _ _ => trivial, trivial⟩

/-- What keeps to the reference law keeps to the heap law. -/
theorem allows_of_agree {action : Eval α} {post : Interpreter → α → Prop}
    (haction : ∀ state, law.toRefLaw.Agree scope post state action action) :
    (law.effect scope).Allows action := by
  intro state
  refine ⟨fun {after} hfinish => ?_, (haction state).fault⟩
  have hreach : law.toRefLaw.Reaches scope state after := by
    cases hfinish with
    | value hvalue => exact ((haction state).value hvalue).1
    | error herror => exact ((haction state).error herror).1
  exact ⟨(hreach.keeps trivial).1, law.held_toRefLaw state ▸ hreach.step⟩

/-- What is settled under the heap law keeps to the reference law. -/
theorem Settled.agree {action : Eval α} (haction : law.Settled action)
    {post : Interpreter → α → Prop} (hpost : ∀ after value, post after value)
    (state : Interpreter) :
    law.toRefLaw.Agree .settled post state action action := by
  have hreach : ∀ {after}, action.Finishes state after →
      law.toRefLaw.Reaches .settled state after := by
    intro after hfinish
    obtain ⟨hkeeps, hstep⟩ := (haction state).finish hfinish
    exact ⟨fun _ => ⟨hkeeps, hkeeps.calls⟩, (law.held_toRefLaw state).symm ▸ hstep,
      law.sound_toRefLaw after⟩
  exact ⟨Or.inl rfl, fun hvalue => ⟨hreach (.value hvalue), hpost _ _⟩,
    fun herror => ⟨hreach (.error herror), fun _ _ _ => trivial⟩, (haction state).fault⟩

/-- It asks nothing of arguments either, since all that it says is about
objects. -/
theorem argsKept_toRefLaw (law : HeapLaw) (kind : Kind) (state : Interpreter)
    (args : List Arg) :
    law.toRefLaw.ArgsKept kind state args :=
  fun _ _ _ _ => trivial

/-- A method in progress meets it. -/
theorem methodMeets_toRefLaw (law : HeapLaw) (state : Interpreter)
    (method : MethodInProgress) :
    law.toRefLaw.MethodMeets state method :=
  ⟨trivial, trivial, law.argsKept_toRefLaw _ _ _, trivial, trivial, trivial, trivial⟩

/-- A scope is found without further conditions. -/
theorem findsScopes_toRefLaw (law : HeapLaw) (state : Interpreter) (env : Ref) :
    law.toRefLaw.FindsScopes state env :=
  RefLaw.findsScopes_of_lax (fun _ => trivial) (law.sound_toRefLaw state) trivial

/-! ## Names and the method cache -/

/-- Interning a name leaves the heap alone. -/
theorem settled_intern (name : String) : law.Settled (intern name) :=
  quiet (fun state => ⟨rfl, rfl, rfl, state.naming.symbols.grows_intern name⟩) (fun _ => rfl)
    fun _ => rfl

/-- Renaming a call leaves the heap alone. -/
theorem settled_renamedCall (head : Symbol) (call : Expr) :
    law.Settled (renamedCall head call) :=
  Allows.bind (quiet (fun _ => .of_eq rfl rfl rfl rfl) (fun _ => rfl) fun _ => rfl)
    fun _ => allows_pure _

/-- A change of the method cache leaves the heap alone. -/
theorem settled_updateCache (builtin : Builtin)
    (change : MethodEntry → MethodEntry) :
    law.Settled (updateCache builtin change) :=
  quiet (fun _ => .of_eq rfl rfl rfl rfl) (fun _ => rfl) fun _ => rfl

/-! ## Variables and arguments -/

/-- Binding a variable is a change that the law permits. -/
theorem settled_defineVar (env : Ref) (symbol : Symbol) (value : Ref) :
    law.Settled (defineVar env symbol value) :=
  settled_updateFrame env _

/-- Texts that are allocated stay protected. -/
theorem protecting_protectedStrings (values : List String) :
    (law.effect .protecting).Allows (protectedStrings values) := by
  apply allows_of_agree
  intro state
  exact RefLaw.agree_protectedStrings (law.sound_toRefLaw state) values

/-- The class vector for a method stays protected. -/
theorem protecting_dispatchClasses (classes : List String) (index : Nat) (keepWhole : Bool) :
    (law.effect .protecting).Allows (dispatchClasses classes index keepWhole) := by
  apply allows_of_agree
  intro state
  exact RefLaw.agree_dispatchClasses (law.sound_toRefLaw state) classes index
    keepWhole

/-- An argument that is passed on stays protected. -/
theorem protecting_protectedArg (tag : Option Symbol) (ref : Ref) :
    (law.effect .protecting).Allows (protectedArg tag ref) :=
  (protecting_protect ref).bind fun _ => allows_pure _

/-- Promises for forced values stay protected. -/
theorem protecting_forcedPromiseArgs (call : Expr) (args : List Arg) :
    (law.effect .protecting).Allows (forcedPromiseArgs call args) := by
  apply allows_of_agree
  intro state
  exact RefLaw.agree_forcedPromiseArgs (law.sound_toRefLaw state) call
    (law.argsKept_toRefLaw _ _ _)

/-! ## Selections -/

/-- The classes for a method that was found stay protected. -/
theorem protecting_foundClasses (found : MethodMatch) (classes : List String) :
    (law.effect .protecting).Allows (foundClasses found classes) := by
  apply allows_of_agree
  intro state
  exact RefLaw.agree_foundClasses (law.sound_toRefLaw state) found classes

/-- The selection of a method that was found leaves its variables protected. -/
theorem protecting_selectFound (generic : String) (found : MethodMatch) (classes : List String)
    (callEnv defEnv : Ref) :
    (law.effect .protecting).Allows (selectFound generic found classes callEnv defEnv) := by
  refine (protecting_protect found.method).bind fun _ => ?_
  refine (protecting_foundClasses found classes).bind fun _ => ?_
  refine (protecting_protectedStrings _).bind fun _ => ?_
  refine (protecting_protectedStrings _).bind fun _ => ?_
  exact (protecting_protectedStrings _).bind fun _ => allows_pure _

/-- The selection of the method that follows leaves its variables protected. -/
theorem protecting_selectFollowing (generic : String) (method : MethodInProgress)
    (point : ResumePoint) (next : Ref) (name : String) (search : MethodSearch) :
    (law.effect .protecting).Allows (selectFollowing generic method point next name search) := by
  refine (protecting_protect _).bind fun _ => (protecting_dispatchClasses _ _ _).bind fun classes =>
    (protecting_protectedStrings _).bind fun names =>
      (protecting_protectedStrings _).bind fun genericValue => ?_
  split
  · exact (allows_pure _).bind fun _ => allows_pure _
  · exact (protecting_protectedStrings _).bind fun _ => allows_pure _

/-- The choice between the methods of two operands settles. -/
theorem settled_chooseMethod (operator : String)
    (found : List (Option (List String) × Option MethodMatch)) :
    law.Settled (chooseMethod operator found) := by
  unfold chooseMethod
  split
  · split
    · exact Allows.bind (quiet (fun _ => .of_eq rfl rfl rfl rfl) (fun _ => rfl) fun _ => rfl)
        fun _ => allows_pure _
    · exact allows_pure _
  all_goals exact allows_pure _

/-- The selection of an operator's method leaves its variables protected. -/
theorem protecting_selectOperator (operator group : String)
    (classes : List (Option (List String))) (dispatched : List String)
    (found : MethodMatch) (env : Ref) :
    (law.effect .protecting).Allows
      (selectOperator operator group classes dispatched found env) := by
  refine (protecting_protect _).bind fun _ => ?_
  refine (protecting_dispatchClasses _ _ _).bind fun _ => ?_
  refine (protecting_protectedStrings _).bind fun _ => ?_
  refine (protecting_protectedStrings _).bind fun _ => ?_
  refine (protecting_protectedStrings _).bind fun _ => ?_
  exact allows_get.bind fun _ => allows_pure _

/-! ## Closures -/

/-- A formal gets its binding lawfully, also when a promise is made for its
default. -/
theorem settled_formalBinding (env : Ref) (formal : Formal) (matched : Matched)
    :
    law.Settled (formalBinding env formal matched) := by
  unfold formalBinding
  split
  · refine (reads (reads_payload _)).bind fun found => ?_
    split <;> exact allows_pure _
  · split
    · exact (settled_allocPayload _).bind fun _ => allows_pure _
    · exact allows_pure _
  · exact allows_pure _
  · exact (settled_allocPayload _).bind fun _ => allows_pure _

/-- So do all formals, one after the other. -/
theorem settled_bindFormals (env : Ref) (formals : List (Formal × Matched)) :
    law.Settled (bindFormals env formals) := by
  refine Allows.forM fun item => ?_
  refine (settled_formalBinding env item.1 item.2).bind fun _ => ?_
  exact settled_updateFrame env _

/-- Where a call works is noted, whether it works elsewhere already or not. -/
theorem entering_enterClosure (fn : Closure) (matched : List Matched)
    (supplied : List (Symbol × Ref)) :
    (law.effect .entering).Allows (enterClosure fn matched supplied) := by
  refine (settled_allocPayload _).within.bind fun env => ?_
  refine (entering_setContextEnv env).bind fun _ => ?_
  refine (settled_bindFormals env _).within.bind fun _ => ?_
  exact (settled_updateFrame env _).within.bind fun _ => allows_pure env

/-! ## Dispatch -/

section Dispatch

variable {run : Runner} (hrun : ∀ task, law.Settled (run task))

include hrun

/-- A lawful evaluation runs lawfully in the sense of the law on references. -/
theorem runs_toRefLaw : law.toRefLaw.Runs run run :=
  fun state task _ _ => (hrun task).agree (fun _ _ => trivial) state

/-- Forcing a promise settles. -/
theorem settled_force (ref : Ref) : law.Settled (force run ref) := by
  apply allows_of_agree
  intro state
  exact RefLaw.agree_force (runs_toRefLaw hrun) (law.sound_toRefLaw state)
    trivial

/-- A forced argument stays protected. -/
theorem protecting_forceArg (arg : Arg) :
    (law.effect .protecting).Allows (forceArg run arg) := by
  apply allows_of_agree
  intro state
  exact RefLaw.agree_forceArg (runs_toRefLaw hrun) (law.sound_toRefLaw state)
    fun _ _ => trivial

/-- A call of a closure settles. -/
theorem settled_applyClosure (call : Expr) (fn : Ref) (args : List Arg)
    (caller : Ref) (supplied : List (Symbol × Ref)) :
    law.Settled (applyClosure run call fn args caller supplied) := by
  apply allows_of_agree
  intro state
  exact RefLaw.agree_applyClosure (runs_toRefLaw hrun)
    (law.sound_toRefLaw state) trivial trivial (law.argsKept_toRefLaw _ _ _)
    trivial (fun _ _ => trivial) False.elim

/-- The search for a method settles. -/
theorem settled_findMethod (search : MethodSearch) (callEnv defEnv : Ref)
    (start : Nat) (allowDefault : Bool) :
    law.Settled (findMethod run search callEnv defEnv start allowDefault) := by
  apply allows_of_agree
  intro state
  exact RefLaw.agree_findMethod (runs_toRefLaw hrun) (law.sound_toRefLaw state)
    search trivial trivial start allowDefault (Nat.le_succ _)
    fun _ => Nat.lt_succ_self _

/-- `UseMethod` settles, whether it finds a method or not. -/
theorem settled_useMethod (generic : String) (object : Ref) (call : Expr)
    (args : List Arg) (callEnv defEnv : Ref) :
    law.Settled (useMethod run generic object call args callEnv defEnv) := by
  apply allows_of_agree
  intro state
  have hobject : law.toRefLaw.Now .any state object := trivial
  exact RefLaw.agree_useMethod (runs_toRefLaw hrun) (law.sound_toRefLaw state)
    generic hobject trivial (law.argsKept_toRefLaw _ _ _) trivial trivial

/-- So does the call of `UseMethod`, with the evaluation of its arguments. -/
theorem settled_callUseMethod (call generic : Expr) (object : Option Expr)
    (env : Ref) :
    law.Settled (callUseMethod run call generic object env) := by
  apply allows_of_agree
  intro state
  exact RefLaw.agree_callUseMethod (runs_toRefLaw hrun)
    (law.sound_toRefLaw state) call trivial (fun _ _ => trivial) trivial

/-- The generic that `NextMethod` goes on with is found lawfully. -/
theorem protecting_callingGeneric (call : Expr) (env : Ref) :
    (law.effect .protecting).Allows (callingGeneric run call env) := by
  apply allows_of_agree
  intro state
  exact RefLaw.agree_callingGeneric (runs_toRefLaw hrun)
    (law.sound_toRefLaw state) trivial trivial
    (law.findsScopes_toRefLaw state env)

/-- The arguments that `NextMethod` passes on stay protected. -/
theorem protecting_passedArgs (symbol : Symbol) (next : NextCall) :
    (law.effect .protecting).Allows (passedArgs run symbol next) := by
  apply allows_of_agree
  intro state
  exact RefLaw.agree_passedArgs (runs_toRefLaw hrun) (law.sound_toRefLaw state)
    symbol ⟨law.methodMeets_toRefLaw _ _, law.argsKept_toRefLaw _ _ _⟩

/-- The search for the next method settles. -/
theorem settled_findNext (generic : String) (symbol : Symbol)
    (method : MethodInProgress) (point : ResumePoint) :
    law.Settled (findNext run generic symbol method point) := by
  apply allows_of_agree
  intro state
  exact RefLaw.agree_findNext (runs_toRefLaw hrun) (law.sound_toRefLaw state)
    generic symbol (law.methodMeets_toRefLaw _ _) point

/-- The selection of the next method leaves its variables protected. -/
theorem protecting_selectNext (generic : String) (symbol : Symbol)
    (method : MethodInProgress) :
    (law.effect .protecting).Allows (selectNext run generic symbol method) := by
  apply allows_of_agree
  intro state
  exact RefLaw.agree_selectNextFrom (runs_toRefLaw hrun)
    (fun _ _ hstate hmethod => RefLaw.agree_resumePoint (runs_toRefLaw hrun) hstate hmethod)
    (law.sound_toRefLaw state) generic symbol (law.methodMeets_toRefLaw _ _)

/-- `NextMethod` goes on lawfully; what it protected is released by its caller. -/
theorem protecting_resumeDispatch (call : Expr) (env : Ref) :
    (law.effect .protecting).Allows (resumeDispatch run call env) := by
  apply allows_of_agree
  intro state
  exact RefLaw.agree_resumeDispatchFrom (runs_toRefLaw hrun)
    (fun _ _ hstate hmethod => RefLaw.agree_resumePoint (runs_toRefLaw hrun) hstate hmethod)
    (law.sound_toRefLaw state) trivial trivial
    (law.findsScopes_toRefLaw state env)

/-- A call of `NextMethod` settles. -/
theorem settled_callNextMethod (call : Expr) (env : Ref) :
    law.Settled (callNextMethod run call env) :=
  settled_withRoots (protecting_resumeDispatch hrun call env)

/-- The search for a method of one operand settles. -/
theorem settled_operandMethod (operator group : String) (env : Ref)
    (classes : Option (List String)) :
    law.Settled (operandMethod run operator group env classes) := by
  apply allows_of_agree
  intro state
  exact RefLaw.agree_operandMethod (runs_toRefLaw hrun)
    (law.sound_toRefLaw state) operator group trivial classes

/-- The dispatch of an operator settles. -/
theorem settled_groupDispatch (group : String) (call : Expr) (builtin : Builtin)
    (args : List Arg) (env : Ref) :
    law.Settled (groupDispatch run group call builtin args env) := by
  apply allows_of_agree
  intro state
  exact RefLaw.agree_groupDispatch (runs_toRefLaw hrun)
    (law.sound_toRefLaw state) group trivial builtin
    (law.argsKept_toRefLaw _ _ _) trivial

/-- The dispatch of a builtin on its first argument settles. -/
theorem settled_internalDispatch (call : Expr) (builtin : Builtin)
    (args : List Arg) (env : Ref) :
    law.Settled (internalDispatch run call builtin args env) := by
  apply allows_of_agree
  intro state
  exact RefLaw.agree_internalDispatch (runs_toRefLaw hrun)
    (law.sound_toRefLaw state) trivial builtin (law.argsKept_toRefLaw _ _ _)
    trivial

end Dispatch

/-! ## Hosts -/

section Hosts

variable {hooks : Hooks} {run : Runner} (hrun : ∀ task, law.Settled (run task))
  (hhooks : hooks.Allowed (law.effect .settled) run)

include hhooks in
/-- The method entry of a builtin is rebuilt lawfully if the hooks are lawful. -/
theorem settled_rebuildMethods (builtin : Builtin) (env : Ref) :
    law.Settled (rebuildMethods hooks run builtin env) := by
  unfold rebuildMethods
  split
  · exact allows_raise _
  · next provider hprovider =>
      refine (settled_updateCache builtin _).bind fun _ =>
        (hhooks.methodProvider provider hprovider builtin env).attempt.bind fun result => ?_
      split
      · exact (settled_updateCache builtin _).bind fun _ => allows_raise _
      · exact settled_updateCache builtin _

include hrun

/-- A method that the host chose leaves the roots as they are, if the mark is
their depth. -/
theorem settledAt_applyQuickMethod {state : Interpreter} {mark : Nat}
    (hmark : state.roots.depth = mark) (call : Expr) (builtin : Builtin)
    (method : Ref) (args : List Arg) (env : Ref) :
    (law.effect .settled).AllowsAt state
      (applyQuickMethod run mark call builtin method args env) := by
  refine settledAt_releasing hmark ((protecting_protect method).bind fun _ =>
    (protecting_forcedPromiseArgs call args).bind fun _ =>
      (protecting_protectedStrings _).bind fun _ => allows_get.bind fun _ => ?_)
  exact (hrun _).within

/-- So does the generic of a builtin. -/
theorem settledAt_applyOverride {state : Interpreter} {mark : Nat}
    (hmark : state.roots.depth = mark) (call : Expr) (builtin : Builtin) (args : List Arg)
    (env : Ref) :
    (law.effect .settled).AllowsAt state (applyOverride run mark call builtin args env) := by
  have hregion : ∀ generic, (law.effect .settled).AllowsAt state (releasing mark do
      let args ← forcedPromiseArgs call args
      setMethodState builtin .suppressed
      let result ← attempt (applyClosure run call generic args env [])
      setMethodState builtin .hasMethods
      settle result) := by
    intro generic
    refine settledAt_releasing hmark ((protecting_forcedPromiseArgs call args).bind fun args =>
      (settled_updateCache builtin _).within.bind fun _ => ?_)
    refine (settled_applyClosure hrun call generic args env []).within.attempt.bind fun result => ?_
    exact (settled_updateCache builtin _).within.bind fun _ => allows_settle result
  refine (reads (reads_cacheEntry builtin) state).bind fun entry middle hentry => ?_
  obtain ⟨-, hsame⟩ := Query.toEval_eq_ok hentry
  rw [hsame]
  split
  · exact allows_raise _ _
  · refine (reads (reads_closureAt? _) state).bind fun closure middle hclosure => ?_
    obtain ⟨-, hsame⟩ := Query.toEval_eq_ok hclosure
    rw [hsame]
    split
    · exact allows_raise _ _
    · exact (hregion _).bind fun _ after _ => (allows_get.bind fun _ => allows_pure _) after

include hhooks

/-- So it is with a look at the methods of a builtin. -/
theorem settled_consultMethods (call : Expr) (builtin : Builtin)
    (args : List Arg) (env : Ref) :
    law.Settled (consultMethods hooks run call builtin args env) := by
  intro state
  refine (reads reads_rootDepth state).bind fun mark middle hmark => ?_
  obtain ⟨hdepth, hsame⟩ := Query.toEval_eq_ok hmark
  cases hdepth
  rw [hsame]
  refine (reads (reads_cacheEntry builtin) state).bind fun entry middle hentry => ?_
  obtain ⟨-, hsame⟩ := Query.toEval_eq_ok hentry
  rw [hsame]
  split
  · next methods check _ hcheck =>
      have hsettled := hhooks.quickCheck check hcheck args methods builtin state
      refine hsettled.bind fun answer middle hanswer => ?_
      -- The check leaves the roots alone, so the mark is still their depth.
      have hkeeps := (hsettled.finish (.value hanswer)).1
      have hdepth : middle.roots.depth = state.roots.depth := congrArg Array.size hkeeps.roots
      split
      · exact allows_pure _ _
      · exact (settledAt_applyQuickMethod hrun hdepth call builtin _ args env).bind
          fun _ after _ => allows_pure _ after
      · exact settledAt_applyOverride hrun hdepth call builtin args env
  · exact settledAt_applyOverride hrun rfl call builtin args env

/-- So it is with the dispatch that precedes a builtin. -/
theorem settled_overrideDispatch (call : Expr) (builtin : Builtin)
    (args : List Arg) (env : Ref) :
    law.Settled (overrideDispatch hooks run call builtin args env) := by
  refine (reads (reads_cacheEntry builtin)).bind fun entry => ?_
  split
  · exact allows_pure _
  · exact allows_pure _
  · exact (settled_rebuildMethods hhooks builtin env).bind fun _ =>
      settled_consultMethods hrun hhooks call builtin args env
  · exact settled_consultMethods hrun hhooks call builtin args env

/-- Lawful hooks override lawfully in the sense of the law on references. -/
theorem overrides_toRefLaw :
    law.toRefLaw.Overrides (overrideDispatch hooks) (overrideDispatch hooks) run run := by
  intro state call builtin args env _ _ _ _
  have hsettled := settled_overrideDispatch hrun hhooks call builtin args env
  exact hsettled.agree (fun _ _ _ _ => trivial) state

omit hrun in
/-- So do generics that hooks handle. -/
theorem genericRuns_toRefLaw : law.toRefLaw.GenericRuns hooks run run := by
  intro hook hhook state name env fn _ _ _
  have hsettled := hhooks.standardGeneric hook hhook name env fn
  exact Settled.agree hsettled (fun _ _ => trivial) state

/-! ## Application and evaluation -/

/-- A call of `standardGeneric` settles. -/
theorem settled_standardGeneric (name : String) (env : Ref) :
    law.Settled (standardGeneric run hooks name env) := by
  apply allows_of_agree
  intro state
  exact RefLaw.agree_standardGeneric (runs_toRefLaw hrun)
    (genericRuns_toRefLaw hhooks) (law.sound_toRefLaw state) name trivial

/-- Builtins run lawfully in the sense of the law on references. -/
theorem builtinsRun_toRefLaw :
    law.toRefLaw.BuiltinsRun (runBuiltin hooks) (runBuiltin hooks) run run :=
  RefLaw.builtinsRun_of_lax (runs_toRefLaw hrun) (genericRuns_toRefLaw hhooks) fun _ => trivial

/-- A builtin settles once its arguments are there. -/
theorem settled_runBuiltin (invocation : Invocation) :
    law.Settled (runBuiltin hooks run invocation) := by
  apply allows_of_agree
  intro state
  exact builtinsRun_toRefLaw hrun hhooks state invocation
    (law.sound_toRefLaw state) ⟨trivial, law.argsKept_toRefLaw _ _ _, trivial⟩

/-- A call of a builtin settles, with the dispatch before it. -/
theorem settled_applyBuiltin (call : Expr) (builtin : Builtin) (args : List Arg)
    (env : Ref) :
    law.Settled (applyBuiltin hooks run call builtin args env) := by
  apply allows_of_agree
  intro state
  exact RefLaw.agree_applyBuiltinWith (runs_toRefLaw hrun)
    (overrides_toRefLaw hrun hhooks) (builtinsRun_toRefLaw hrun hhooks)
    (law.sound_toRefLaw state) trivial builtin (law.argsKept_toRefLaw _ _ _)
    trivial

/-- Every application of a function settles. -/
theorem settled_applyFunction (call : Expr) (fn : Ref) (args : List Arg)
    (env : Ref) (supplied : List (Symbol × Ref)) :
    law.Settled (applyFunction hooks run call fn args env supplied) := by
  apply allows_of_agree
  intro state
  exact RefLaw.agree_applyFunctionWith (runs_toRefLaw hrun)
    (overrides_toRefLaw hrun hhooks) (builtinsRun_toRefLaw hrun hhooks)
    (law.sound_toRefLaw state) trivial trivial (law.argsKept_toRefLaw _ _ _)
    trivial (fun _ _ => trivial) False.elim

/-- The evaluation of an expression settles if that of the tasks does that it
calls. -/
theorem settled_evalExpr (expr : Expr) (env : Ref) :
    law.Settled (evalExpr hooks run expr env) := by
  rw [← evalExprWith_overrideDispatch]
  exact allows_of_agree fun state => RefLaw.agree_evalExprWith (runs_toRefLaw hrun)
    (overrides_toRefLaw hrun hhooks) (builtinsRun_toRefLaw hrun hhooks) (law.sound_toRefLaw state)
    trivial trivial

end Hosts

/-- **Evaluation keeps to every heap law** and leaves the calls and the roots as
they were, whatever the budget, if the hooks do whenever the evaluation does
that they call. -/
theorem settled_perform {hooks : Hooks}
    (hhooks : ∀ budget, (∀ task, law.Settled (perform hooks budget task)) →
      hooks.Allowed (law.effect .settled) (perform hooks budget))
    (budget : Nat) (task : Task) : law.Settled (perform hooks budget task) := by
  induction budget generalizing task with
  | zero => exact allows_outOfFuel
  | succ budget ih =>
      cases task with
      | eval expr env =>
          exact Allows.bind (quiet (fun _ => .of_eq rfl rfl rfl rfl) (fun _ => rfl) fun _ => rfl)
            fun _ => settled_evalExpr ih (hhooks budget ih) expr env
      | apply call fn args env supplied =>
          exact settled_applyFunction ih (hhooks budget ih) call fn args env supplied

end HeapLaw

end LazyDispatch
