import LazyDispatch.Proofs.Balance
import LazyDispatch.Proofs.RefEval

/-!
# The method cache under evaluation

While a host is asked for the methods of a builtin, or while the generic of the
builtin runs, the cached state of the builtin is `suppressed`; afterwards it is
put back.  So an evaluation changes the cache in one way only: methods that had
to be read again were read (`MethodEntry.Follows`).  And while a builtin is
suppressed, nothing else of its entry matters for its calls at any depth
(`runs_answering`).

What is known about the hooks of the host is that they change the cache only
through evaluations (`Hosted`).
-/

namespace LazyDispatch

open Eval

namespace MethodCache

/-- Setting an entry leaves those of other builtins. -/
@[simp]
theorem get_set_of_ne (cache : MethodCache) {builtin other : Builtin}
    (hother : other ≠ builtin) (entry : MethodEntry) :
    (cache.set builtin entry).get other = cache.get other := by
  have hne : (other == builtin) = false := beq_false_of_ne hother
  have hlookup : ∀ entries : List (Builtin × MethodEntry),
      (entries.filter (·.1 ≠ builtin)).lookup other = entries.lookup other := by
    intro entries
    induction entries with
    | nil => rfl
    | cons first rest ih =>
        by_cases hfirst : first.1 = builtin
        · rw [List.filter_cons_of_neg (by simpa using hfirst), ih, List.lookup_cons, hfirst, hne]
        · rw [List.filter_cons_of_pos (by simpa using hfirst), List.lookup_cons,
            List.lookup_cons, ih]
  simp only [get, set, List.lookup_cons, hne, hlookup]

end MethodCache

/-! ## What an evaluation does to the cache -/

/-- The host gave methods for a builtin when it was asked with the entry
suppressed. -/
def Hooks.Provides (hooks : Hooks) (builtin : Builtin) (entry : MethodEntry)
    (methods : Ref) : Prop :=
  ∃ provider, hooks.methodProvider = some provider ∧ ∃ budget env state after,
    state.cache.get builtin = { entry with state := .suppressed } ∧
    provider (perform hooks budget) builtin env state = .ok methods after

/-- What becomes of the entry of a builtin: it is as before, or its methods were
read again. -/
inductive MethodEntry.Follows (hooks : Hooks) (builtin : Builtin) (entry : MethodEntry) :
    MethodEntry → Prop
  | same : Follows hooks builtin entry entry
  | rebuilt {methods : Ref} (hreset : entry.state = .needsReset)
      (hprovided : hooks.Provides builtin entry methods) :
      Follows hooks builtin entry { entry with state := .hasMethods, methods := some methods }

namespace MethodEntry.Follows

variable {hooks : Hooks} {builtin : Builtin} {entry middle after : MethodEntry}

/-- Only methods that have to be read again change. -/
theorem eq_of_ne (hfollows : Follows hooks builtin entry after)
    (hstate : entry.state ≠ .needsReset) :
    after = entry := by
  cases hfollows with
  | same => rfl
  | rebuilt hreset => exact absurd hreset hstate

/-- Changes of an entry compose. -/
theorem trans (hfirst : Follows hooks builtin entry middle)
    (hsecond : Follows hooks builtin middle after) :
    Follows hooks builtin entry after := by
  cases hfirst with
  | same => exact hsecond
  | rebuilt hreset hprovided =>
      rw [hsecond.eq_of_ne nofun]
      exact .rebuilt hreset hprovided

end MethodEntry.Follows

/-- What an evaluation does to the cache. -/
def Interpreter.Caches (hooks : Hooks) (state after : Interpreter) : Prop :=
  ∀ builtin, (state.cache.get builtin).Follows hooks builtin (after.cache.get builtin)

/-- The state with another entry for a builtin. -/
def Interpreter.recache (state : Interpreter) (builtin : Builtin)
    (entry : MethodEntry) :
    Interpreter :=
  { state with cache := state.cache.set builtin entry }

namespace Interpreter.Caches

variable {hooks : Hooks} {builtin : Builtin} {state middle after : Interpreter}

/-- An unchanged cache is an allowed one. -/
theorem of_eq (hcache : after.cache = state.cache) :
    state.Caches hooks after := by
  intro builtin
  rw [hcache]
  exact .same

/-- Changes of the cache compose. -/
theorem trans (hfirst : state.Caches hooks middle)
    (hsecond : middle.Caches hooks after) :
    state.Caches hooks after :=
  fun builtin => (hfirst builtin).trans (hsecond builtin)

/-- The entry that was set stays, unless its methods have to be read again. -/
theorem get_recache {entry : MethodEntry}
    (hcaches : (state.recache builtin entry).Caches hooks after)
    (hentry : entry.state ≠ .needsReset) : after.cache.get builtin = entry := by
  have hset : (state.recache builtin entry).cache.get builtin = entry :=
    state.cache.get_set_self builtin entry
  have hfollows := hcaches builtin
  rw [hset] at hfollows
  exact hfollows.eq_of_ne hentry

/-- One entry is set at the start and at the end. -/
theorem recache {first last : MethodEntry}
    (hcaches : (state.recache builtin first).Caches hooks middle)
    (hlast : (state.cache.get builtin).Follows hooks builtin last) :
    state.Caches hooks (middle.recache builtin last) := by
  intro other
  by_cases hother : other = builtin
  · rw [hother]
    simpa [Interpreter.recache] using hlast
  · have hfollows := hcaches other
    simpa [Interpreter.recache, hother] using hfollows

end Interpreter.Caches

/-! ## Programs of a host -/

/-- A program of a host: put together from steps that leave the method cache
alone and from tasks that the runner carries out. -/
inductive Hosted : {α : Type} → (Runner → Eval α) → Prop
  | step {α : Type} {action : Eval α}
      (hcache : ∀ state after, action.Finishes state after → after.cache = state.cache) :
      Hosted fun _ => action
  | run (task : Task) : Hosted fun run => run task
  | bind {α β : Type} {program : Runner → Eval α} {next : α → Runner → Eval β}
      (hprogram : Hosted program) (hnext : ∀ value, Hosted (next value)) :
      Hosted fun run => program run >>= fun value => next value run
  | attempt {α : Type} {program : Runner → Eval α} (hprogram : Hosted program) :
      Hosted fun run => attempt (program run)

/-- The hooks are programs of a host. -/
structure Hooks.Hosted (hooks : Hooks) : Prop where
  quickCheck : ∀ check, hooks.quickCheck = some check → ∀ args methods builtin,
    LazyDispatch.Hosted fun run => check run args methods builtin
  methodProvider : ∀ provider, hooks.methodProvider = some provider → ∀ builtin env,
    LazyDispatch.Hosted fun run => provider run builtin env
  standardGeneric : ∀ hook, hooks.standardGeneric = some hook → ∀ name env fn,
    LazyDispatch.Hosted fun run => hook run name env fn

/-! ## The law -/

/-- Evaluation changes the cache as it may, and leaves certain builtins
suppressed.  Nothing is asked of references. -/
def cacheLaw (hooks : Hooks) (quiet : Builtin → Bool) : RefLaw where
  inv state := ∀ builtin, quiet builtin = true → (state.cache.get builtin).state = .suppressed
  step _ state after := state.Caches hooks after
  has _ _ _ _ := True
  fault _ _ := True
  expr _ := True
  loose := True
  balanced := False
  stalls := False
  holds _ _ _ := Object.meets_true _ _
  inv_same hsame hinv builtin hquiet := by
    rw [hsame.cache]
    exact hinv builtin hquiet
  step_same hsame := .of_eq hsame.cache
  step_trans := .trans
  step_mono _ hstep := hstep
  unbalanced _ := {
    has := fun _ _ _ _ => trivial
    fault := fun _ _ => trivial
    expr := fun _ => trivial
    held := fun hstep => hstep }
  on_allocate hinv _ _ _ := ⟨.of_eq rfl, hinv, fun _ _ => trivial⟩
  on_collect hinv _ := ⟨.of_eq rfl, hinv⟩
  on_complete _ _ _ _ _ _ hstep := hstep
  on_frame _ _ _ _ hstep hinv _ _ _ := ⟨hstep, hinv⟩
  inv_frame _ hinv _ _ _ := hinv
  step_frame _ _ _ _ _ := .of_eq rfl
  inv_attribute _ _ hinv _ _ := hinv
  step_class _ _ := .of_eq rfl
  inv_evaluate hinv _ _ _ := hinv
  on_settle _ _ _ hstep hinv _ _ _ _ := ⟨hstep, hinv⟩

namespace CacheLaw

variable {hooks : Hooks} {quiet other : Builtin → Bool} {state after : Interpreter} {scope : Scope}
  {builtin : Builtin}

/-- Nothing but the cache matters to the law. -/
theorem sound_of_inv (hinv : (cacheLaw hooks quiet).inv state) :
    (cacheLaw hooks quiet).Sound state :=
  RefLaw.sound_of_unbalanced (fun hfalse => hfalse) hinv

/-- A builtin that is suppressed stays so. -/
theorem inv_of_caches (hinv : (cacheLaw hooks quiet).inv state)
    (hcaches : state.Caches hooks after) :
    (cacheLaw hooks quiet).inv after := by
  intro builtin hquiet
  have hsuppressed := hinv builtin hquiet
  rw [(hcaches builtin).eq_of_ne (by rw [hsuppressed]; exact nofun)]
  exact hsuppressed

/-- A builtin is suppressed besides others. -/
theorem inv_suppress (hquiet : ∀ other, quiet other = true → other ≠ builtin →
      (state.cache.get other).state = .suppressed) :
    (cacheLaw hooks quiet).inv
      (state.recache builtin { state.cache.get builtin with state := .suppressed }) := by
  intro other hother
  by_cases hsame : other = builtin
  · rw [hsame]
    simp [Interpreter.recache]
  · simpa [Interpreter.recache, hsame] using hquiet other hother hsame

/-- An allowed change of the cache is a lawful step. -/
theorem reaches_of_caches (hinv : (cacheLaw hooks quiet).inv state)
    (hcaches : state.Caches hooks after) :
    (cacheLaw hooks quiet).Reaches scope state after :=
  ⟨False.elim, hcaches, sound_of_inv (inv_of_caches hinv hcaches)⟩

/-- Which builtins are suppressed only matters for the states that an evaluation
starts from. -/
theorem coincide_other {α : Type} {reach : Interpreter → Prop}
    {post : Interpreter → α → Prop} {action twin : Eval α}
    (hcoincide : (cacheLaw hooks quiet).Coincide reach post state action twin) :
    (cacheLaw hooks other).Coincide reach post state action twin :=
  ⟨hcoincide.same, hcoincide.value, hcoincide.error, fun _ => trivial⟩

/-- The law asks nothing of a task. -/
theorem admissible (task : Task) :
    (cacheLaw hooks quiet).Admissible state task := by
  cases task with
  | eval expr env => exact ⟨trivial, trivial⟩
  | apply call fn args env supplied =>
      exact ⟨trivial, trivial, fun _ _ _ _ => trivial, trivial, fun _ _ => trivial, False.elim⟩

/-- The program of a host keeps to the law. -/
theorem agree_hosted {α : Type} {program : Runner → Eval α} (hprogram : Hosted program)
    {run twin : Runner} (hrun : (cacheLaw hooks quiet).Runs run twin)
    (hinv : (cacheLaw hooks quiet).inv state) :
    (cacheLaw hooks quiet).Agree .settled (fun _ _ => True) state (program run) (program twin) := by
  induction hprogram generalizing state with
  | step hcache =>
      exact ⟨Or.inl rfl, fun hvalue =>
        ⟨reaches_of_caches hinv (.of_eq (hcache _ _ (.value hvalue))), trivial⟩,
        fun herror =>
          ⟨reaches_of_caches hinv (.of_eq (hcache _ _ (.error herror))),
            fun _ _ _ => trivial⟩, fun _ => trivial⟩
  | run task =>
      exact (hrun state task (sound_of_inv hinv) (admissible task)).weaken fun _ _ _ _ => trivial
  | bind _ _ ih ihnext =>
      exact (ih hinv).bind fun value _ hreach _ => ihnext value hreach.sound.inv
  | attempt _ ih =>
      exact (ih hinv).attempt.imp (fun _ hreach => hreach) fun _ _ _ _ => trivial

/-! ## Asking the host -/

/-- What is cached for a builtin. -/
theorem answers_cacheEntry (builtin : Builtin) :
    (cacheLaw hooks quiet).Answers state (cacheEntry builtin) (· = state.cache.get builtin) :=
  .read_bind (.pure rfl)

/-- A step that finished with a value did so. -/
theorem coincide_remember {α : Type} {law : RefLaw} {reach : Interpreter → Prop}
    {post : Interpreter → α → Prop} {action twin : Eval α}
    (hcoincide : law.Coincide reach post state action twin) :
    law.Coincide reach (fun after value => action state = .ok value after) state action twin := by
  refine ⟨hcoincide.same, ?_, hcoincide.error, hcoincide.fault⟩
  intro value after hvalue
  exact ⟨(hcoincide.value hvalue).1, hvalue⟩

/-- What happens to the roots does not matter to the cache. -/
theorem agree_releasing {α : Type} {action twin : Eval α} (hinv : (cacheLaw hooks quiet).inv state)
    (mark : Nat)
    (haction : (cacheLaw hooks quiet).Agree .protecting (fun _ _ => True) state action twin) :
    (cacheLaw hooks quiet).Agree .settled (fun _ _ => True) state (releasing mark action)
      (releasing mark twin) := by
  refine RefLaw.Coincide.releasing haction (fun _ _ => False.elim) (fun middle hreach => ?_)
    fun _ _ _ _ _ => trivial
  exact reaches_of_caches hinv hreach.step

section Host

variable {run twin : Runner} (hrun : (cacheLaw hooks quiet).Runs run twin) (call : Expr)
  (args : List Arg) (env : Ref)

include hrun

/-- A quick method is applied by the runner. -/
theorem agree_applyQuickMethod (mark : Nat) (builtin : Builtin) (method : Ref)
    (hinv : (cacheLaw hooks quiet).inv state) :
    (cacheLaw hooks quiet).Agree .settled (fun _ _ => True) state
      (applyQuickMethod run mark call builtin method args env)
      (applyQuickMethod twin mark call builtin method args env) := by
  have hargs : ∀ {state args}, (cacheLaw hooks quiet).ArgsKept .value state args :=
    fun _ _ _ _ => trivial
  have hmethod : (cacheLaw hooks quiet).Now .value state method := trivial
  refine agree_releasing hinv mark ((RefLaw.agree_protect (sound_of_inv hinv) hmethod).bind
    fun _ _ hrooted _ => (RefLaw.agree_forcedPromiseArgs hrooted.sound call hargs).bind
      fun _ _ hforced _ => (RefLaw.agree_protectedStrings hforced.sound _).bind
        fun _ _ hreach _ => .get_bind ?_)
  exact ((hrun _ (.apply _ _ _ _ _) hreach.sound (admissible _)).weaken
    fun _ _ _ _ => trivial).within

/-- While the generic of a builtin runs the builtin is suppressed, and every way
out of it puts the entry back. -/
theorem coincide_suppressed (generic : Ref)
    (hquiet : ∀ other, quiet other = true → other ≠ builtin →
      (state.cache.get other).state = .suppressed)
    (hentry : (state.cache.get builtin).state = .hasMethods) :
    (cacheLaw hooks quiet).Coincide (state.Caches hooks) (fun _ _ => True) state (do
        setMethodState builtin .suppressed
        let result ← attempt (applyClosure run call generic args env [])
        setMethodState builtin .hasMethods
        settle result) (do
        setMethodState builtin .suppressed
        let result ← attempt (applyClosure twin call generic args env [])
        setMethodState builtin .hasMethods
        settle result) := by
  have hinv : (cacheLaw hooks quiet).inv _ := inv_suppress hquiet
  have happly : (cacheLaw hooks quiet).Agree .settled (fun _ _ => True)
      (state.recache builtin { state.cache.get builtin with state := .suppressed })
      (applyClosure run call generic args env []) (applyClosure twin call generic args env []) :=
    RefLaw.agree_applyClosure hrun (sound_of_inv hinv) trivial trivial (fun _ _ _ _ => trivial)
      trivial (fun _ _ => trivial) False.elim
  refine .of_eq (bind_of_ok rfl) (bind_of_ok rfl)
    (happly.attempt_bind fun outcome middle hreach houtcome => ?_)
  have hmiddle := hreach.step.get_recache nofun
  have hrestored : { middle.cache.get builtin with state := .hasMethods } =
      state.cache.get builtin := by
    rw [hmiddle, ← hentry]
  have hcaches : state.Caches hooks (middle.recache builtin
      { middle.cache.get builtin with state := .hasMethods }) := by
    rw [hrestored]
    exact hreach.step.recache .same
  refine .of_eq (bind_of_ok rfl) (bind_of_ok rfl) (RefLaw.Coincide.settle hcaches ?_)
  cases outcome with
  | ok value => trivial
  | error err => exact fun _ _ _ => trivial

/-- The entry is suppressed for the call and put back after it. -/
theorem coincide_applyOverride (mark : Nat)
    (hquiet : ∀ other, quiet other = true → other ≠ builtin →
      (state.cache.get other).state = .suppressed)
    (hentry : (state.cache.get builtin).state = .hasMethods) :
    (cacheLaw hooks quiet).Coincide (state.Caches hooks) (fun _ _ => True) state
      (applyOverride run mark call builtin args env)
      (applyOverride twin mark call builtin args env) := by
  have hraise : ∀ {err : EvalError}, (cacheLaw hooks quiet).Coincide (state.Caches hooks)
      (fun _ (_ : Option Ref) => True) state (raise err) (raise err) :=
    .of_error rfl rfl (.of_eq rfl) fun _ _ _ => trivial
  refine .lift_bind (.of_eq rfl) (answers_cacheEntry builtin) fun entry _ => ?_
  cases entry.generic with
  | none => exact hraise
  | some generic =>
      have hclosure : (cacheLaw hooks quiet).Now .any state generic := trivial
      refine .lift_bind (.of_eq rfl) (RefLaw.answers_closureAt? hclosure) fun closure _ => ?_
      split
      · exact hraise
      · have hnone : (cacheLaw hooks fun _ => false).Sound state := sound_of_inv nofun
        have hargs : (cacheLaw hooks fun _ => false).ArgsKept .value state args :=
          fun _ _ _ _ => trivial
        have hforced : (cacheLaw hooks quiet).Coincide _ _ state (forcedPromiseArgs call args)
            (forcedPromiseArgs call args) :=
          coincide_other (RefLaw.agree_forcedPromiseArgs hnone call hargs)
        refine RefLaw.Coincide.bind_of (RefLaw.Coincide.releasing
          (hforced.bind_of (fun _ hreach => hreach.step) fun args middle hreach _ => ?_)
          (fun _ _ => False.elim) (fun _ hcaches => hcaches) fun _ _ _ _ _ => trivial)
          (fun _ hcaches => hcaches) fun value after hcaches _ => .of_ok rfl rfl hcaches trivial
        have hkept : ∀ other, (state.cache.get other).state ≠ .needsReset →
            middle.cache.get other = state.cache.get other :=
          fun other hother => (hreach.step other).eq_of_ne hother
        refine (coincide_suppressed hrun call args env generic (fun other hother hne => ?_) ?_).imp
          (fun _ hlater => hreach.step.trans hlater) fun _ _ _ hpost => hpost
        · have hsuppressed := hquiet other hother hne
          rw [hkept other (by rw [hsuppressed]; exact nofun)]
          exact hsuppressed
        · rw [hkept builtin (by rw [hentry]; exact nofun)]
          exact hentry

end Host

section Dispatch

variable {budget : Nat} {twin : Runner} (hhooks : hooks.Hosted)
  (hrun : (cacheLaw hooks quiet).Runs (perform hooks budget) twin) (call : Expr) (args : List Arg)
  (env : Ref) (hinv : (cacheLaw hooks quiet).inv state)

include hhooks hrun hinv

/-- Methods of the host are consulted lawfully. -/
theorem agree_consultMethods
    (hentry : (state.cache.get builtin).state = .hasMethods) :
    (cacheLaw hooks quiet).Agree .settled (fun _ _ => True) state
      (consultMethods hooks (perform hooks budget) call builtin args env)
      (consultMethods hooks twin call builtin args env) := by
  have hgeneric : ∀ {middle} (mark : Nat), state.Caches hooks middle →
      (cacheLaw hooks quiet).Agree .settled (fun _ _ => True) middle
        (applyOverride (perform hooks budget) mark call builtin args env)
        (applyOverride twin mark call builtin args env) := by
    intro middle mark hcaches
    have hmiddle := inv_of_caches hinv hcaches
    refine (coincide_applyOverride hrun call args env mark
      (fun other hother _ => hmiddle other hother) ?_).imp
      (fun _ hlater => reaches_of_caches hmiddle hlater) fun _ _ _ hpost => hpost
    rw [(hcaches builtin).eq_of_ne (by rw [hentry]; exact nofun)]
    exact hentry
  have hdepth : (cacheLaw hooks quiet).Answers state rootDepth fun _ => True :=
    .read_bind (.pure trivial)
  refine .lift_bind (sound_of_inv hinv) hdepth fun mark _ => ?_
  refine .lift_bind (sound_of_inv hinv) (answers_cacheEntry builtin) fun entry _ => ?_
  split
  · next methods check _ hcheck =>
      refine (agree_hosted (hhooks.quickCheck check hcheck args methods builtin) hrun hinv).bind
        fun answer middle hreach _ => ?_
      cases answer with
      | useDefault => exact .pure hreach.sound trivial
      | method method =>
          exact (agree_applyQuickMethod hrun call args env mark builtin
            method hreach.sound.inv).bind fun _ _ hlater _ => .pure hlater.sound
            trivial
      | search => exact hgeneric mark hreach.step
  · exact hgeneric mark (.of_eq rfl)

/-- The methods of a builtin are read from the host, or the entry is put back. -/
theorem agree_rebuildMethods
    (hentry : (state.cache.get builtin).state = .needsReset) :
    (cacheLaw hooks quiet).Agree .settled
      (fun after _ => (after.cache.get builtin).state = .hasMethods) state
      (rebuildMethods hooks (perform hooks budget) builtin env)
      (rebuildMethods hooks twin builtin env) := by
  unfold rebuildMethods
  split
  · exact .raise (sound_of_inv hinv) fun _ _ _ => trivial
  · next provider hprovider =>
      have hsuppressed : (cacheLaw hooks quiet).inv (state.recache builtin _) :=
        inv_suppress fun other hother _ => hinv other hother
      have hprogram := agree_hosted (hhooks.methodProvider provider hprovider builtin env) hrun
        hsuppressed
      refine .of_eq (bind_of_ok rfl) (bind_of_ok rfl)
        ((coincide_remember hprogram).attempt_bind fun outcome middle hreach houtcome => ?_)
      have hmiddle := hreach.step.get_recache nofun
      cases outcome with
      | error err =>
          have hrestored : { middle.cache.get builtin with state := .needsReset } =
              state.cache.get builtin := by
            rw [hmiddle, ← hentry]
          have hcaches : state.Caches hooks (middle.recache builtin
              { middle.cache.get builtin with state := .needsReset }) := by
            rw [hrestored]
            exact hreach.step.recache .same
          exact .of_eq (bind_of_ok rfl) (bind_of_ok rfl)
            (.of_error rfl rfl (reaches_of_caches hinv hcaches) fun _ _ _ => trivial)
      | ok methods =>
          have hprovided : hooks.Provides builtin (state.cache.get builtin) methods :=
            ⟨provider, hprovider, budget, env, _, middle,
              state.cache.get_set_self builtin _, houtcome⟩
          have hrebuilt : { middle.cache.get builtin with
              state := .hasMethods, methods := some methods } =
              { state.cache.get builtin with state := .hasMethods, methods := some methods } := by
            rw [hmiddle]
          have hcaches : state.Caches hooks (middle.recache builtin { middle.cache.get builtin with
              state := .hasMethods, methods := some methods }) := by
            rw [hrebuilt]
            exact hreach.step.recache (.rebuilt hentry hprovided)
          exact .of_ok rfl rfl (reaches_of_caches hinv hcaches) (by simp)

end Dispatch

/-! ## Evaluation -/

/-- A way to ask the host in which the calls of certain builtins are answered
otherwise. -/
def answering (quiet : Builtin → Bool) (answer : Eval (Option Ref))
    (override : Dispatcher) :
    Dispatcher :=
  fun run call builtin args env =>
    if quiet builtin then answer else override run call builtin args env

variable {answer : Eval (Option Ref)} (hhooks : hooks.Hosted)
  (hanswer : ∀ state, (cacheLaw hooks quiet).inv state → answer state = .ok none state)

include hhooks hanswer

/-- A dispatcher that answers for suppressed builtins changes nothing. -/
theorem overrides_answering {budget : Nat} {twin : Runner}
    (hrun : (cacheLaw hooks quiet).Runs (perform hooks budget) twin) :
    (cacheLaw hooks quiet).Overrides (overrideDispatch hooks)
      (answering quiet answer (overrideDispatch hooks)) (perform hooks budget) twin := by
  intro state call builtin args env hstate _ _ _
  have hinv := hstate.inv
  have hentry : cacheEntry builtin state = .ok (state.cache.get builtin) := rfl
  unfold answering
  cases hquiet : quiet builtin with
  | true =>
      have hnone : overrideDispatch hooks (perform hooks budget) call builtin args env state =
          .ok none state := by
        refine (bind_of_ok (lift_of_ok hentry)).trans ?_
        rw [hinv builtin hquiet]
        rfl
      exact .of_ok hnone (hanswer state hinv) (.refl hstate) fun _ _ => trivial
  | false =>
      have hconsult : ∀ {middle}, (cacheLaw hooks quiet).Reaches .settled state middle →
          (middle.cache.get builtin).state = .hasMethods →
          (cacheLaw hooks quiet).Agree .settled ((cacheLaw hooks quiet).EachNow .value) middle
            (consultMethods hooks (perform hooks budget) call builtin args env)
            (consultMethods hooks twin call builtin args env) := fun hreach hentry =>
        (agree_consultMethods hhooks hrun call args env hreach.sound.inv hentry).weaken
          fun _ _ _ _ _ _ => trivial
      refine .lift_bind hstate (answers_cacheEntry builtin) fun entry hentry => ?_
      rw [hentry]
      cases hcached : (state.cache.get builtin).state with
      | noMethods => exact .pure hstate fun _ _ => trivial
      | suppressed => exact .pure hstate fun _ _ => trivial
      | hasMethods => exact hconsult (.refl hstate) hcached
      | needsReset =>
          exact (agree_rebuildMethods hhooks hrun env hinv hcached).bind
            fun _ middle hreach hmiddle => hconsult hreach hmiddle

/-- **Calls of suppressed builtins**, at any depth, may be answered by anything
that leaves them to the builtin as long as it is suppressed. -/
theorem runs_answering (budget : Nat) :
    (cacheLaw hooks quiet).Runs (perform hooks budget)
      (performWith (answering quiet answer (overrideDispatch hooks)) hooks budget) := by
  rw [← performWith_overrideDispatch]
  refine RefLaw.runs_performWith (fun _ => trivial) (fun budget hrun => ⟨?_, ?_⟩) budget
  · intro hook hhook state name env fn hstate _ _
    exact (agree_hosted (hhooks.standardGeneric hook hhook name env fn) hrun hstate.inv).weaken
      fun _ _ _ _ => trivial
  · rw [performWith_overrideDispatch] at hrun ⊢
    exact overrides_answering hhooks hanswer hrun

end CacheLaw

namespace Eval

open CacheLaw

variable {hooks : Hooks} {state after : Interpreter}

/-- A run that keeps to the law makes an allowed change. -/
theorem Finishes.caches {α : Type} {quiet : Builtin → Bool} {post : Interpreter → α → Prop}
    {action twin : Eval α} (hfinishes : action.Finishes state after)
    (hcoincide : (cacheLaw hooks quiet).Coincide (state.Caches hooks) post state action twin) :
    state.Caches hooks after := by
  cases hfinishes with
  | value hvalue => exact (hcoincide.value hvalue).1
  | error herror => exact (hcoincide.error herror).1

variable (hhooks : hooks.Hosted) (budget : Nat)

include hhooks

/-- Evaluation keeps to the law, whatever the host. -/
theorem runs_cached : (cacheLaw hooks fun _ => false).Runs (perform hooks budget)
    (performWith (answering (fun _ => false) (pure none) (overrideDispatch hooks)) hooks budget) :=
  runs_answering hhooks (fun _ _ => rfl) budget

/-- Every task makes an allowed change of the cache. -/
theorem caches_of_perform {task : Task}
    (hfinishes : (perform hooks budget task).Finishes state after) :
    state.Caches hooks after := by
  have hruns := runs_cached hhooks budget state task (sound_of_inv nofun)
    (admissible task)
  exact hfinishes.caches
    (hruns.imp (fun _ hreach => hreach.step) fun _ _ _ hpost => hpost)

/-- So does a whole evaluation. -/
theorem caches_of_evalTopLevel {expr : Expr}
    (hfinishes : (evalTopLevel (perform hooks budget) expr).Finishes state after) :
    state.Caches hooks after := by
  refine hfinishes.caches ((RefLaw.agree_evalTopLevel (runs_cached hhooks budget)
    (sound_of_inv nofun) trivial).imp ?_ fun _ _ _ hpost => hpost)
  intro middle hreach
  exact hreach.step

variable {builtin : Builtin} {answer : Eval (Option Ref)}
  (hanswer : ∀ state : Interpreter, (state.cache.get builtin).state = .suppressed →
    answer state = .ok none state)

include hanswer

/-- Evaluation while one builtin is suppressed. -/
theorem runs_suppressed :
    (cacheLaw hooks (decide <| · = builtin)).Runs (perform hooks budget)
    (performWith
      (answering (decide <| · = builtin) answer (overrideDispatch hooks))
      hooks budget) :=
  runs_answering hhooks (fun state hinv => hanswer state (hinv builtin (decide_eq_true rfl))) budget

/-- A builtin that is suppressed asks the host for nothing. -/
theorem perform_of_suppressed (hsuppressed : (state.cache.get builtin).state = .suppressed)
    (task : Task) : perform hooks budget task state = performWith
      (answering (decide <| · = builtin) answer (overrideDispatch hooks)) hooks
        budget task state := by
  have hinv : (cacheLaw hooks (decide <| · = builtin)).inv state := by
    intro other hother
    rw [of_decide_eq_true hother]
    exact hsuppressed
  exact ((runs_suppressed hhooks budget hanswer state task (sound_of_inv hinv)
    (admissible task)).twin_of_ne False.elim).symm

/-- During the generic of a builtin it is suppressed. -/
theorem applyOverride_of_hasMethods (hentry : (state.cache.get builtin).state = .hasMethods)
    (mark : Nat) (call : Expr) (args : List Arg) (env : Ref) :
    applyOverride (perform hooks budget) mark call builtin args env state =
      applyOverride (performWith (answering (decide <| · = builtin) answer (overrideDispatch hooks))
        hooks budget) mark call builtin args env state ∧
    ∀ after,
      (applyOverride (perform hooks budget) mark call builtin args env).Finishes
      state after →
      after.cache.get builtin = state.cache.get builtin := by
  have hcoincide := coincide_applyOverride
    (runs_suppressed hhooks budget hanswer) call args env mark
    (fun other hother hne => absurd (of_decide_eq_true hother) hne) hentry
  refine ⟨(hcoincide.twin_of_ne False.elim).symm, fun after hfinishes =>
    (hfinishes.caches hcoincide builtin).eq_of_ne ?_⟩
  rw [hentry]
  exact nofun

end Eval

open CacheLaw in
/-- **The method cache.**  If the hooks change the cache only through
evaluations, then an evaluation that finishes leaves every entry as it was,
except that methods that had to be read again may have been read from the host.
While a builtin is suppressed, its calls at any depth are not handed to its
generic: they may be answered by any step that leaves them to the builtin as
long as it is suppressed.  The generic of a builtin runs suppressed in this
sense, and every way out of it restores the entry. -/
theorem evaluation_restores_method_cache {hooks : Hooks} (hhooks : hooks.Hosted) (budget : Nat)
    (state : Interpreter) :
    (∀ task after, (perform hooks budget task).Finishes state after → state.Caches hooks after) ∧
    (∀ expr after, (evalTopLevel (perform hooks budget) expr).Finishes state after →
      state.Caches hooks after) ∧
    ∀ builtin (answer : Eval (Option Ref)),
      (∀ other : Interpreter, (other.cache.get builtin).state = .suppressed →
        answer other = .ok none other) →
      let answered := performWith
        (answering (decide <| · = builtin) answer (overrideDispatch hooks)) hooks budget
      ((state.cache.get builtin).state = .suppressed →
        ∀ task, perform hooks budget task state = answered task state) ∧
      ((state.cache.get builtin).state = .hasMethods → ∀ mark call args env,
        applyOverride (perform hooks budget) mark call builtin args env state =
          applyOverride answered mark call builtin args env state ∧
        ∀ after,
          (applyOverride (perform hooks budget) mark call builtin args env).Finishes state after →
          after.cache.get builtin = state.cache.get builtin) := by
  refine ⟨fun _ _ => caches_of_perform hhooks budget,
    fun _ _ => caches_of_evalTopLevel hhooks budget, ?_⟩
  intro builtin answer hanswer answered
  exact ⟨perform_of_suppressed hhooks budget hanswer,
    applyOverride_of_hasMethods hhooks budget hanswer⟩

section Witness

/-- A host that lists methods by evaluating the name of the builtin, and leaves
the choice of a method to the generic. -/
def listingHooks : Hooks where
  quickCheck := some fun _ _ _ _ => return .search
  methodProvider := some fun run builtin env => do
    let methods ← run (.eval (.literal 0 (.string builtin.name)) env)
    modify fun state => { state with roots := state.roots.preserve methods }
    return methods

/-- The hooks of the example keep to what is asked of a host. -/
theorem hosted_listingHooks : listingHooks.Hosted := by
  refine ⟨?_, ?_, nofun⟩
  · intro check hcheck args methods builtin
    cases hcheck
    refine .step fun state after hfinishes => ?_
    cases hfinishes with
    | value hvalue =>
        cases hvalue
        rfl
    | error herror => cases herror
  · intro provider hprovider builtin env
    cases hprovider
    refine .bind (.run _) fun methods => .step fun state after hfinishes => ?_
    cases hfinishes with
    | value hvalue =>
        cases hvalue
        rfl
    | error herror => cases herror

/-- A sum. -/
def sumTerm : Term :=
  .call (.symbol "+") [(none, .literal (.integer 1)), (none, .literal (.integer 2))]

/-- Overrides addition by a function that adds, with methods that have to be
read first. -/
def overrideAddition : Eval Ref := do
  let term ← resolve (.function [("x", none), ("y", none)]
    (.call (.symbol "+") [(none, .symbol "x"), (none, .symbol "y")]))
  let fn ← perform {} 3 (.eval term (← get).fixed.global)
  let _ ← setMethods .add (.set (some fn) none)
  let _ ← setMethods .add .reset
  return fn

/-- Whether an evaluation has the methods of addition read again. -/
def readsMethods (expr : Expr) (fn : Ref) (before : Interpreter) : Bool :=
  decide (before.cache.get .add = ⟨.needsReset, some fn, none⟩) &&
    (perform listingHooks 40 (.eval expr before.fixed.global)).passes
      (fun _ after => decide ((after.cache.get .add).state = .hasMethods)) before

set_option maxRecDepth 1000000 in
/-- An addition whose methods are read from the host and cached. -/
theorem exists_sumTerm : ∃ state expr resolved fn before value after,
    Interpreter.start smallConfig .empty = .ok state ∧ resolve sumTerm state = .ok expr resolved ∧
    overrideAddition resolved = .ok fn before ∧
    before.cache.get .add = ⟨.needsReset, some fn, none⟩ ∧
    perform listingHooks 40 (.eval expr before.fixed.global) before = .ok value after ∧
    (after.cache.get .add).state = .hasMethods := by
  have hcheck : startPasses sumTerm
      (fun expr => overrideAddition.passes (readsMethods expr)) = true := by
    decide +kernel
  obtain ⟨state, expr, resolved, hstart, hresolve, hoverride⟩ := exists_of_startPasses hcheck
  obtain ⟨fn, before, hsetup, hreads⟩ := exists_of_passes hoverride
  unfold readsMethods at hreads
  rw [Bool.and_eq_true, decide_eq_true_iff] at hreads
  obtain ⟨value, after, hrun, hafter⟩ := exists_of_passes hreads.2
  exact ⟨state, expr, resolved, fn, before, value, after, hstart, hresolve, hsetup, hreads.1, hrun,
    of_decide_eq_true hafter⟩

open CacheLaw in
/-- The sum has its methods read, and then the function that overrides it adds
by itself. -/
theorem evaluation_restores_method_cache_sumTerm :
    listingHooks.Hosted ∧ ∃ state expr resolved fn before value after methods,
      Interpreter.start smallConfig .empty = .ok state ∧ resolve sumTerm state = .ok expr resolved ∧
      overrideAddition resolved = .ok fn before ∧
      before.cache.get .add = ⟨.needsReset, some fn, none⟩ ∧
      perform listingHooks 40 (.eval expr before.fixed.global) before = .ok value after ∧
      after.cache.get .add = ⟨.hasMethods, some fn, some methods⟩ ∧
      listingHooks.Provides .add (before.cache.get .add) methods ∧
      applyOverride (perform listingHooks 40) after.roots.depth expr .add []
        after.fixed.global after =
        applyOverride (performWith (answering (decide <| · = .add) (pure none)
          (overrideDispatch listingHooks)) listingHooks 40) after.roots.depth expr .add []
          after.fixed.global after := by
  obtain ⟨state, expr, resolved, fn, before, value, after, hstart, hresolve, hsetup, hbefore, hrun,
    hafter⟩ := exists_sumTerm
  have hcaches :=
    (evaluation_restores_method_cache hosted_listingHooks 40 before).1 _ _
      (.value hrun)
  have hgeneric :=
    ((evaluation_restores_method_cache hosted_listingHooks 40 after).2.2 .add
      (pure none) fun _ _ => rfl).2 hafter after.roots.depth expr []
      after.fixed.global
  have hfollows := hcaches .add
  generalize hentry : after.cache.get .add = entry at hfollows
  cases hfollows with
  | same =>
      rw [hentry, hbefore] at hafter
      cases hafter
  | rebuilt hreset hprovided =>
      refine ⟨hosted_listingHooks, state, expr, resolved, fn, before, value,
        after, _, hstart, hresolve, hsetup, hbefore, hrun, ?_, hprovided,
        hgeneric.1⟩
      rw [hentry, hbefore]

end Witness

end LazyDispatch
