import LazyDispatch.Proofs.RefAgree

/-!
# What queries answer under a reference law

The queries of the evaluator, given what is known of the references that they
start from: the references in their answers are of the right kinds and in the
same custody, and the faults that stop them are those that the law leaves
possible.
-/

namespace LazyDispatch

/-- A reference resolves to an object with a certain payload. -/
def Interpreter.Shows (state : Interpreter) (ref : Ref) (found : Object) :
    Prop :=
  ∃ attributes, state.heap.get? ref = some ⟨found, attributes⟩

/-- What is looked up stands in the list. -/
theorem mem_of_lookup {α β : Type} [BEq α] [LawfulBEq α]
    {entries : List (α × β)} {key : α} {value : β}
    (hlookup : entries.lookup key = some value) : (key, value) ∈ entries := by
  obtain ⟨before, rest, hentries, -⟩ := List.lookup_eq_some_iff.mp hlookup
  rw [hentries]
  exact List.mem_append_right _ List.mem_cons_self

/-- The values of arguments are what the arguments hold. -/
theorem ArgsMeet.of_mem_values {p : Ref → Prop} {args : List Arg} {ref : Ref}
    (hargs : ArgsMeet p args) (href : ref ∈ Args.values args) : p ref := by
  obtain ⟨arg, harg, hvalue⟩ := List.mem_filterMap.mp href
  exact hargs arg harg ref hvalue

namespace RefLaw

open Eval

variable {found : Object}

variable {law : RefLaw} {state : Interpreter} {custody : Custody} {kind : Kind} {ref env : Ref}

/-- Whoever has a reference can use it now. -/
theorem now_of_has (hhas : law.has custody kind state ref) :
    law.Now kind state ref := by
  cases custody with
  | now => exact hhas
  | held refs => exact law.has_now hhas

/-- What an object that is known holds. -/
theorem Sound.holds (hstate : law.Sound state)
    (hhas : law.has custody kind state ref) (hshows : state.Shows ref found) :
    found.Meets (law.has custody · state) law.loose law.expr state.reserved.dots := by
  obtain ⟨attributes, hget⟩ := hshows
  exact law.holds hstate.inv hhas hget

/-- What is known of a reference is sharpened by the object behind it. -/
theorem Sound.sharpen (hstate : law.Sound state)
    (hhas : law.has custody kind state ref) {other : Kind}
    (hshows : state.Shows ref found) (hadmits : other.Admits found) :
    law.has custody other state ref := by
  obtain ⟨attributes, hget⟩ := hshows
  exact law.has_admits hstate.inv hhas hget hadmits

/-- What a call passes on is a value if it is not a promise. -/
theorem Sound.operand (hstate : law.Sound state)
    (hhas : law.has custody .operand state ref) (hshows : state.Shows ref found)
    (hfound : found.isPromise = false) :
    law.has custody .value state ref := by
  obtain ⟨attributes, hget⟩ := hshows
  exact law.has_operand hstate.inv hhas hget hfound

/-- What a frame of a known environment binds a symbol to. -/
theorem Sound.binding (hstate : law.Sound state) (hhas : law.has custody kind state ref)
    {env : Environment} (hshows : state.Shows ref (.environment env)) {symbol : Symbol}
    {binding : Binding} (hfind : env.frame.find? symbol = some binding) :
    binding.Meets (law.has custody · state) law.loose (.ofSymbol state.reserved.dots symbol) :=
  (hstate.holds hhas hshows).2 _ (mem_of_lookup hfind)

/-- The parent of a scope is had as the scope is. -/
theorem Sound.parent (hstate : law.Sound state)
    (hhas : law.has custody kind state ref) {env : Environment}
    (hshows : state.Shows ref (.environment env)) :
    ∀ parent ∈ env.parent, law.has custody .environment state parent :=
  (hstate.holds hhas hshows).1

/-! ## Objects -/

/-- A reference that stands now is found in the heap. -/
theorem answers_fetch (hnow : law.Now kind state ref) :
    law.Answers state (fetch ref) (state.heap.get? ref = some ·) := by
  refine ⟨fun hvalue => fetch_eq_ok_iff.mp hvalue, fun herror => ?_, fun hfault => ?_⟩
  · unfold fetch at herror
    split at herror <;> cases herror
  · unfold fetch at hfault
    split at hfault <;> cases hfault
    next hget => exact (law.fault_missing hnow hget).1

/-- Its payload is the one the state shows. -/
theorem answers_payload (hnow : law.Now kind state ref) :
    law.Answers state (payload ref) (state.Shows ref) :=
  (answers_fetch hnow).bind fun object hget => .pure ⟨object.attributes, hget⟩

/-- A closure found at a reference is shown there. -/
theorem answers_closureAt? (hnow : law.Now kind state ref) :
    law.Answers state (closureAt? ref) fun found =>
      ∀ closure ∈ found, state.Shows ref (.closure closure) := by
  refine (answers_payload hnow).bind fun found hshows => .pure ?_
  intro closure hclosure
  cases found with
  | closure fn =>
      cases hclosure
      exact hshows
  | _ => cases hclosure

/-- Where a scope stands a scope is read, or the law allows for the fault. -/
theorem answers_environmentAt (hnow : law.Now .environment state ref) :
    law.Answers state (environmentAt ref) fun env => state.Shows ref (.environment env) := by
  refine (answers_payload hnow).bind fun found hshows => ?_
  obtain ⟨attributes, hget⟩ := hshows
  cases found with
  | environment env => exact .pure ⟨attributes, hget⟩
  | _ => exact .fail (law.fault_environment hnow hget rfl).1

/-- Likewise for a promise. -/
theorem answers_promiseAt (hnow : law.Now .promise state ref) :
    law.Answers state (promiseAt ref) fun deferred => state.Shows ref (.promise deferred) := by
  refine (answers_payload hnow).bind fun found hshows => ?_
  obtain ⟨attributes, hget⟩ := hshows
  cases found with
  | promise deferred => exact .pure ⟨attributes, hget⟩
  | _ => exact .fail (law.fault_promise hnow hget rfl)

/-- Reading an integer. -/
theorem answers_asInteger? (hnow : law.Now kind state ref) :
    law.Answers state (asInteger? ref) fun _ => True :=
  (answers_payload hnow).bind fun _ _ => .pure trivial

/-- Reading a vector of texts: the state shows what is read. -/
theorem answers_asStrings? (hnow : law.Now kind state ref) :
    law.Answers state (asStrings? ref) fun found =>
      ∀ values ∈ found, state.Shows ref (.character values) := by
  refine (answers_payload hnow).bind fun found hshows => .pure ?_
  intro values hvalues
  cases found with
  | character strings =>
      cases hvalues
      exact hshows
  | _ => cases hvalues

/-- Reading one text. -/
theorem answers_asString? (hnow : law.Now kind state ref) :
    law.Answers state (asString? ref) fun _ => True :=
  (answers_asStrings? hnow).bind fun _ _ => .pure trivial

/-- Reading the name of a symbol. -/
theorem answers_symbolName (symbol : Symbol) :
    law.Answers state (symbolName symbol) fun _ => True := by
  refine .read_bind ?_
  split
  · exact .pure trivial
  · exact .fail (law.fault_symbol state)

/-- Reading how far a walk may go. -/
theorem answers_walkBudget : law.Answers state walkBudget fun _ => True :=
  .read_bind (.pure trivial)

/-- Printing an expression. -/
theorem answers_exprText (expr : Expr) :
    law.Answers state (exprText expr) fun _ => True :=
  .read_bind (.pure trivial)

/-! ## Variables -/

/-- A symbol has no binding, or one that holds what its origin says. -/
def Visible (law : RefLaw) (custody : Custody) (state : Interpreter)
    (symbol : Symbol) (binding : Binding) : Prop :=
  binding = .unbound ∨
    binding.Meets (law.has custody · state) law.loose (.ofSymbol state.reserved.dots symbol)

/-- A walk through environments may only stop where one is missing. -/
theorem fault_enclosing (hnow : law.Now .environment state ref)
    (hother : ∀ env attributes, state.heap.get? ref = some ⟨.environment env, attributes⟩ → False) :
    law.fault (.enclosingNotAnEnvironment ref) state := by
  cases hget : state.heap.get? ref with
  | none => exact (law.fault_missing hnow hget).2
  | some object =>
      obtain ⟨found, attributes⟩ := object
      have hfound : found.isEnvironment = false := by
        cases found with
        | environment env => exact (hother env attributes hget).elim
        | _ => rfl
      have hfaults : law.fault (.notAnEnvironment found.typeName) state ∧ _ :=
        law.fault_environment hnow hget hfound
      exact hfaults.2

/-- A lookup finds what is visible from where it starts; the induction is on the
scopes it may still pass. -/
theorem answers_findVarFrom (hstate : law.Sound state) (symbol : Symbol) (budget : Nat)
    {cursor : Option Ref} (hcursor : ∀ ref ∈ cursor, law.has custody .environment state ref) :
    law.Answers state (findVarFrom symbol budget cursor) (law.Visible custody state symbol) := by
  induction budget generalizing cursor with
  | zero =>
      cases cursor with
      | none => exact .pure (Or.inl rfl)
      | some ref => exact .outOfFuel
  | succ budget ih =>
      cases cursor with
      | none => exact .pure (Or.inl rfl)
      | some ref =>
          have hhas := hcursor ref rfl
          refine .read_bind ?_
          split
          · next env attributes hget =>
              have hshows : state.Shows ref (.environment env) := ⟨attributes, hget⟩
              split
              · next binding hfind => exact .pure (Or.inr (hstate.binding hhas hshows hfind))
              · exact ih (hstate.parent hhas hshows)
          · next hother => exact .fail (fault_enclosing (now_of_has hhas) hother)

/-- A lookup from a scope finds what is visible there. -/
theorem answers_findVar (hstate : law.Sound state) (symbol : Symbol)
    (henv : law.has custody .environment state env) :
    law.Answers state (findVar symbol env) (law.Visible custody state symbol) := by
  refine (answers_environmentAt (now_of_has henv)).bind fun found hshows => ?_
  split
  · next binding hfind => exact .pure (Or.inr (hstate.binding henv hshows hfind))
  · exact answers_walkBudget.bind fun budget _ =>
      answers_findVarFrom hstate symbol budget (hstate.parent henv hshows)

/-- A value of a frame is bound there. -/
theorem answers_frameBound? (henv : law.Now .environment state env)
    (symbol : Symbol) :
    law.Answers state (frameValue? env symbol) fun value => ∀ ref ∈ value, ∃ found,
      state.Shows env (.environment found) ∧
        found.frame.find? symbol = some ⟨.bound, some ref⟩ := by
  refine (answers_environmentAt henv).bind fun found hshows => ?_
  split
  · next value hfind =>
      refine .pure fun ref href => ⟨found, hshows, ?_⟩
      cases href
      exact hfind
  · exact .pure fun _ href => nomatch href

/-- The value bound in one scope has the kind of its symbol. -/
theorem answers_frameValue? (hstate : law.Sound state)
    (henv : law.has custody .environment state env) (symbol : Symbol) :
    law.Answers state (frameValue? env symbol) fun value =>
      ∀ ref ∈ value, law.has custody (.ofSymbol state.reserved.dots symbol) state ref := by
  refine (answers_frameBound? (now_of_has henv) symbol).imp fun value hvalue ref href => ?_
  obtain ⟨found, hshows, hfind⟩ := hvalue ref href
  exact (hstate.binding henv hshows hfind).value ref rfl

/-- An unforced promise of a symbol knows its environment. -/
theorem Sound.pendingSymbol (hstate : law.Sound state) {deferred : Promise}
    (hshows : state.Shows ref (.promise deferred)) {symbol : Symbol}
    (hpending : deferred.pendingSymbol? = some (symbol, env)) :
    law.Now .environment state env := by
  obtain ⟨attributes, hget⟩ := hshows
  have hedge := law.holds_edge hstate.inv hget
  unfold Promise.pendingSymbol? at hpending
  split at hpending
  · cases hpending
    exact hedge
  · cases hpending
    exact hedge
  · cases hpending

/-- A promise of a variable is asked for the environment of the variable. -/
theorem answers_pendingSymbol (hstate : law.Sound state)
    (hbinding : (⟨.promise, some ref⟩ : Binding).Meets (law.Now · state) law.loose kind) :
    law.Answers state (promiseAt ref) fun deferred => ∀ symbol env,
      deferred.pendingSymbol? = some (symbol, env) → law.Now .environment state env := by
  refine (answers_promiseAt (hbinding.value ref rfl)).imp ?_
  intro deferred hshows symbol env hpending
  exact hstate.pendingSymbol hshows hpending

/-- Following promises from a binding meets only scopes and promises that stand. -/
theorem answers_isMissingBinding (hstate : law.Sound state) (budget : Nat)
    {binding : Binding}
    (hbinding : binding.Meets (law.Now · state) law.loose kind) :
    law.Answers state (isMissingBinding budget binding) fun _ => True := by
  induction budget generalizing binding kind with
  | zero =>
      unfold isMissingBinding
      split
      · exact .pure trivial
      · refine (answers_pendingSymbol hstate hbinding).bind fun deferred hpending => ?_
        split
        · exact .pure trivial
        · next henv =>
            refine (answers_environmentAt (hpending _ _ henv)).bind fun found _ => ?_
            split
            · exact .pure trivial
            · exact .outOfFuel
      · exact .pure trivial
  | succ budget ih =>
      unfold isMissingBinding
      split
      · exact .pure trivial
      · refine (answers_pendingSymbol hstate hbinding).bind fun deferred hpending => ?_
        split
        · exact .pure trivial
        · next henv =>
            have hnow := hpending _ _ henv
            refine (answers_environmentAt hnow).bind fun found hfound => ?_
            split
            · exact .pure trivial
            · next hfind => exact ih (hstate.binding hnow hfound hfind)
      · exact .pure trivial

/-- The test that a formal was not supplied. -/
theorem answers_isMissingArg (hstate : law.Sound state) (symbol : Symbol)
    (henv : law.Now .environment state env) :
    law.Answers state (isMissingArg symbol env) fun _ => True := by
  refine (answers_environmentAt henv).bind fun found hshows => ?_
  split
  · exact .raise nofun
  · next binding hfind =>
      exact answers_walkBudget.bind fun budget _ =>
        answers_isMissingBinding hstate budget (hstate.binding henv hshows hfind)

/-! ## Arguments -/

/-- Printing a value. -/
theorem answers_valueText (hnow : law.Now kind state ref) :
    law.Answers state (valueText ref) fun _ => True := by
  refine (answers_payload hnow).bind fun found _ => ?_
  split
  · exact answers_exprText _
  all_goals exact .pure trivial

/-- Printing an argument. -/
theorem answers_argText {arg : Arg}
    (harg : ∀ ref ∈ arg.value, law.Now kind state ref) :
    law.Answers state (argText arg) fun _ => True := by
  have htext : ∀ value, law.Answers state
      (do return tagged (← read).symbolName arg.tag value : Query String) fun _ => True :=
    fun value => .read_bind (.pure trivial)
  unfold argText
  split
  · next ref href => exact (answers_valueText (harg ref href)).bind fun value _ => htext value
  · exact htext ""

/-- What matching arguments to formals gives, up to messages. -/
theorem answers_matchCall (call : Expr) (formals : List Formal) {args : List Arg}
    (hargs : ArgsMeet (law.Now kind state) args) :
    law.Answers state (matchCall call formals args) fun matched =>
      matchArgs state.symbolName state.reserved.dots formals args = .ok matched := by
  refine .read_bind ?_
  split
  · next matched hmatched => exact .pure hmatched
  · refine (Answers.mapM fun arg harg => answers_argText (hargs arg ?_)).bind fun _ _ =>
      (answers_exprText call).bind fun _ _ => .raise nofun
    obtain ⟨index, -, hindex⟩ := List.mem_filterMap.mp harg
    exact List.mem_of_getElem? hindex
  · exact (answers_symbolName _).bind fun _ _ => .raise nofun
  · exact .raise nofun

/-- The arguments behind the dots of a scope are operands. -/
theorem answers_dotsArgs (hstate : law.Sound state)
    (henv : law.has custody .environment state env) :
    law.Answers state (dotsArgs env) (ArgsMeet (law.has custody .operand state)) := by
  have hnone : ArgsMeet (law.has custody .operand state) [] := fun _ harg => nomatch harg
  refine .read_bind ((answers_findVar hstate _ henv).bind fun binding hvisible => ?_)
  split
  · exact .raise nofun
  · exact .pure hnone
  · exact .pure hnone
  · next origin ref _ _ =>
      have hmeets : ∃ kind, law.has custody kind state ref := by
        rcases hvisible with hunbound | hmeets
        · cases hunbound
        · exact ⟨_, hmeets.value ref rfl⟩
      obtain ⟨kind, hhas⟩ := hmeets
      refine (answers_payload (now_of_has hhas)).bind fun found hshows => ?_
      split
      · exact .pure (hstate.holds hhas hshows)
      · exact .pure hnone

/-! ## Classes and methods -/

/-- Reading the class a value has by its mode. -/
theorem answers_implicitClass (hnow : law.Now kind state ref) :
    law.Answers state (implicitClass ref) fun _ => True :=
  (answers_payload hnow).bind fun _ _ => .pure trivial

/-- An attribute that is found is one of the attributes. -/
theorem Sound.attribute (hstate : law.Sound state) {object : HeapObject}
    (hget : state.heap.get? ref = some object) {name : Symbol} {value : Ref}
    (hvalue : object.attribute? name = some value) :
    law.Now .value state value :=
  law.holds_attribute hstate.inv hget (mem_of_lookup hvalue)

/-- Reading the class attribute, a value like every attribute. -/
theorem answers_explicitClass? (hstate : law.Sound state)
    (hnow : law.Now kind state ref) :
    law.Answers state (explicitClass? ref) fun _ => True := by
  refine (answers_fetch hnow).bind fun object hget => .read_bind ?_
  split
  · exact .pure trivial
  · next cls hcls =>
      exact (answers_asStrings? (hstate.attribute hget hcls)).bind fun _ _ => .pure trivial

/-- Reading the classes that dispatch goes by. -/
theorem answers_classVector (hstate : law.Sound state)
    (hnow : law.Now kind state ref) :
    law.Answers state (classVector ref) fun _ => True := by
  refine (answers_explicitClass? hstate hnow).bind fun classes _ => ?_
  split
  · exact .pure trivial
  · exact answers_implicitClass hnow

/-- A function is a value. -/
theorem Sound.function (hstate : law.Sound state)
    (hhas : law.has custody kind state ref) (hshows : state.Shows ref found)
    (hfunction : found.isFunction = true) :
    law.has custody .value state ref := by
  refine hstate.sharpen hhas hshows ?_
  cases found with
  | closure fn => exact ⟨rfl, rfl⟩
  | builtin fn => exact ⟨rfl, rfl⟩
  | _ => cases hfunction

/-- A registered method is kept, for the registry is. -/
theorem answers_registeredMethod? (hstate : law.Sound state) (symbol : Symbol) :
    law.Answers state (registeredMethod? symbol) (law.EachKept .value state) := by
  have hnone := law.eachKept_none .value state
  have htable := kept_methods hstate
  refine .read_bind ((answers_environmentAt (law.has_now htable)).bind fun table hshows => ?_)
  split
  · next origin fn hfind =>
      have hfn := (hstate.binding htable hshows hfind).value fn rfl
      refine (answers_payload (law.has_now hfn)).bind fun found hfound => .pure ?_
      split
      · next hfunction =>
          exact eachKept_some (hstate.function hfn hfound hfunction)
      · exact hnone
  · exact .pure hnone

/-- The argument dispatched on is one of those given. -/
theorem answers_dispatchArgOf (hnow : law.Now kind state ref) (args : List Arg) :
    law.Answers state (dispatchArgOf ref args) fun found => ∀ arg ∈ found, arg ∈ args := by
  refine .read_bind ((answers_closureAt? hnow).bind fun closure _ => ?_)
  dsimp only
  split
  · refine .pure fun arg harg => ?_
    simp only [dispatchArg, Option.mem_def, Option.orElse_eq_orElse, Option.orElse_eq_or,
      Option.or_eq_some_iff] at harg
    rcases harg with hexact | ⟨-, hpartial | ⟨-, huntagged | ⟨-, hfirst⟩⟩⟩
    · exact List.mem_of_find?_eq_some hexact
    · exact List.mem_of_find?_eq_some hpartial
    · exact List.mem_of_find?_eq_some huntagged
    · exact List.mem_of_head? hfirst
  · exact .pure fun arg harg => List.mem_of_head? harg

/-- The frame of a generic is one of those on the stack. -/
theorem answers_genericContext (env : Ref) :
    law.Answers state (genericContext env) fun context =>
      context ∈ state.contexts ∧ context.worksIn env = true := by
  refine .read_bind ?_
  split
  · exact .raise nofun
  · next context rest hcalls =>
      split
      · next hworks =>
          refine .pure ⟨?_, hworks⟩
          rw [hcalls]
          exact List.mem_cons_self
      · exact .raise nofun

/-- What is known of the innermost closure call in an environment. -/
theorem Sound.functionWithEnv? (hstate : law.Sound state) {context : CallContext}
    (hcontext : state.functionWithEnv? env = some context) :
    context.Meets (law.Kept · state) law.expr ∧ law.Kept .value state context.fn := by
  have hmeets := hstate.kept_context (List.mem_of_find?_eq_some hcontext)
  have hworks := List.find?_some hcontext
  simp only [CallContext.worksIn, Bool.and_eq_true, decide_eq_true_eq] at hworks
  exact ⟨hmeets, hmeets.closure hworks.1⟩

/-- What is known of a method in progress. -/
structure MethodMeets (law : RefLaw) (state : Interpreter)
    (method : MethodInProgress) : Prop where
  call : law.expr method.call
  fn : law.Kept .value state method.fn
  args : law.ArgsKept .operand state method.args
  env : law.Kept .environment state method.env
  callEnv : law.Kept .environment state method.callEnv
  defEnv : law.Kept .environment state method.defEnv
  resumes : law.resumes state method

/-- A method in progress lasts as its parts do. -/
theorem lasting_methodMeets (law : RefLaw) : law.Lasting law.MethodMeets := by
  intro _ state after method hstate hreach hmethod
  have hkept : ∀ {kind ref}, law.Kept kind state ref → law.Kept kind after ref :=
    hreach.kept hstate
  have hargs := law.lasting_argsKept _ _ _ _ _ hstate hreach hmethod.args
  exact ⟨hmethod.call, hkept hmethod.fn, hargs, hkept hmethod.env,
    hkept hmethod.callEnv, hkept hmethod.defEnv,
    hreach.resumes hstate hmethod.resumes⟩

/-- What a method finds in its frame as environments of its dispatch serves as
such. -/
def FindsScopes (law : RefLaw) (state : Interpreter) (env : Ref) : Prop :=
  ∀ symbol ∈ [state.reserved.dotGenericCallEnv, state.reserved.dotGenericDefEnv],
    law.Answers state (frameValue? env symbol) (law.EachKept .environment state)

/-- A method may find any values there if all values may serve as environments. -/
theorem findsScopes_of_lax (hlax : law.Lax) (hstate : law.Sound state)
    (henv : law.Kept .environment state env) : law.FindsScopes state env := by
  intro symbol hsymbol
  refine (answers_frameValue? hstate henv symbol).imp fun _ hvalue ref href => ?_
  exact hlax (law.has_dispatch hstate.inv (List.mem_cons_of_mem _ hsymbol) (hvalue ref href))

/-- What a scope records of its dispatch is well formed. -/
theorem answers_methodInProgress (hstate : law.Sound state)
    (henv : law.Kept .environment state env)
    (hscopes : law.FindsScopes state env) :
    law.Answers state (methodInProgress env) (law.MethodMeets state) := by
  refine .read_bind ?_
  split
  · exact .raise nofun
  · next context hcontext =>
      obtain ⟨hmeets, hfn⟩ := hstate.functionWithEnv? hcontext
      split
      · exact .raise nofun
      · next head hhead =>
        refine (hscopes _ (by simp)).bind fun callEnv hcallEnv =>
          (hscopes _ (by simp)).bind fun defEnv hdefEnv => .pure ?_
        refine ⟨hmeets.call, hfn, hmeets.args, henv, ?_, ?_,
          law.resumes_start hstate.inv hstate.calls hcontext hhead rfl⟩
        · cases callEnv with
          | none => exact henv
          | some ref => exact hcallEnv ref rfl
        · cases defEnv with
          | none => exact kept_global hstate
          | some ref => exact hdefEnv ref rfl

/-- Texts recorded by a dispatch are bound in the scope itself. -/
theorem answers_dispatchStrings? (hstate : law.Sound state) (henv : law.Now .environment state env)
    (symbol : Symbol) :
    law.Answers state (dispatchStrings? env symbol) fun found => ∀ strings ∈ found,
      ∃ scope ref, state.Shows env (.environment scope) ∧
        scope.frame.find? symbol = some ⟨.bound, some ref⟩ ∧
          state.Shows ref (.character strings) := by
  refine (answers_frameBound? henv symbol).bind fun value hvalue => ?_
  split
  · next ref =>
      obtain ⟨scope, hshows, hfind⟩ := hvalue ref rfl
      refine (answers_asStrings? ((hstate.binding henv hshows hfind).value ref rfl)).imp
        fun found hfound strings hstrings => ⟨scope, ref, hshows, hfind, hfound strings hstrings⟩
  · exact .pure fun _ hstrings => nomatch hstrings

/-- The names that a method in progress finds were told. -/
theorem answers_methodNames (hstate : law.Sound state)
    {method : MethodInProgress} (hmethod : law.MethodMeets state method) :
    law.Answers state (dispatchStrings? method.env state.reserved.dotMethod)
      fun found => ∀ names ∈ found, law.tells method.head names := by
  refine (answers_dispatchStrings? hstate (law.has_now hmethod.env) _).imp
    fun found hfound names hnames => ?_
  obtain ⟨scope, ref, ⟨attributes, hget⟩, hfind, more, hvalue⟩ := hfound names hnames
  exact law.resumes_names hstate.inv hmethod.resumes hget hfind hvalue

/-- The test that a formal is marked as not supplied. -/
theorem answers_isMissingFormal (henv : law.Now .environment state env)
    (formal : Formal) :
    law.Answers state (isMissingFormal env formal) fun _ => True := by
  refine (answers_environmentAt henv).bind fun found _ => ?_
  split <;> exact .pure trivial

/-- Reading the name of the generic. -/
theorem answers_genericName (hstate : law.Sound state)
    (henv : law.Now .environment state env) (given : Option String) :
    law.Answers state (genericName env given) fun _ => True := by
  refine .read_bind ((answers_frameValue? hstate henv _).bind fun value hvalue => ?_)
  split
  · next ref =>
      refine (answers_asString? (hvalue ref rfl)).bind fun name _ => ?_
      cases name with
      | none => exact .raise nofun
      | some name => exact .pure trivial
  · cases given with
    | none => exact .raise nofun
    | some name => exact .pure trivial

/-- What is found to be plain is a closure. -/
theorem answers_isPlainClosure (hstate : law.Sound state)
    (hnow : law.Now kind state ref) :
    law.Answers state (isPlainClosure ref) fun plain =>
      plain = true → ∃ closure, state.Shows ref (.closure closure) := by
  refine (answers_closureAt? hnow).bind fun closure hclosure => ?_
  split
  · next closure =>
      have hshows := hclosure closure rfl
      exact (answers_environmentAt (hstate.holds hnow hshows).1).bind fun _ _ =>
        .read_bind (.pure fun _ => ⟨closure, hshows⟩)
  · exact .pure nofun

/-- A function of the base scope is kept, for that scope is. -/
theorem answers_baseFunction (hstate : law.Sound state) (builtin : Builtin) :
    law.Answers state (baseFunction builtin) (law.Kept .any state) := by
  have hnull : law.Kept .any state state.fixed.null :=
    law.has_within (Kind.within_any _) (kept_null hstate)
  have hbase := kept_base hstate
  refine .read_bind ?_
  dsimp only
  split
  · next symbol _ =>
      refine (answers_environmentAt (law.has_now hbase)).bind fun base hshows => .pure ?_
      cases hfind : base.frame.find? symbol with
      | none => exact hnull
      | some binding =>
          obtain ⟨origin, value⟩ := binding
          cases value with
          | none => exact hnull
          | some ref =>
              exact law.has_within (Kind.within_any _)
                ((hstate.binding hbase hshows hfind).value ref rfl)
  · exact .pure hnull

/-- The test that a call names a default method. -/
theorem answers_isDefaultCall (call : Expr) :
    law.Answers state (isDefaultCall call) fun _ => True := by
  unfold isDefaultCall
  split
  · exact (answers_symbolName _).bind fun _ _ => .pure trivial
  · exact .pure trivial

/-! ## Builtins -/

/-- What is known of a call of a builtin. -/
structure InvocationMeets (law : RefLaw) (state : Interpreter)
    (invocation : Invocation) : Prop where
  call : law.expr invocation.call
  args : law.ArgsKept .value state invocation.args
  env : law.Kept .environment state invocation.env

variable {invocation : Invocation}

/-- The test of how many arguments there are. -/
theorem answers_requireCount (least most : Nat) (invocation : Invocation) :
    law.Answers state (invocation.requireCount least most) fun _ => True := by
  unfold Invocation.requireCount
  dsimp only
  split
  · exact .pure trivial
  · exact .raise nofun

/-- An argument of a built-in is kept. -/
theorem InvocationMeets.arg? (hinvocation : law.InvocationMeets state invocation) {position : Nat}
    (hvalue : invocation.arg? position = some ref) : law.Kept .value state ref := by
  obtain ⟨arg, harg, hsome⟩ := Option.bind_eq_some_iff.mp hvalue
  exact hinvocation.args arg (List.mem_of_getElem? harg) ref hsome

/-- So is one that the built-in requires. -/
theorem answers_arg (hinvocation : law.InvocationMeets state invocation)
    (position : Nat) :
    law.Answers state (invocation.arg position) (law.Kept .value state) := by
  unfold Invocation.arg
  split
  · next ref hvalue => exact .pure (hinvocation.arg? hvalue)
  · exact .raise nofun

/-- The arguments of a call of the program are expressions of the program. -/
theorem expr_callArgs {call : Expr} (hcall : law.expr call) {arg : ExprArg}
    (harg : arg ∈ call.callArgs) : law.expr arg.value := by
  cases call with
  | call site head args =>
      exact law.expr_children hcall (List.mem_cons_of_mem _ (List.mem_map.mpr ⟨arg, harg, rfl⟩))
  | _ => cases harg

/-- So is the sole argument of a special form. -/
theorem answers_soleExpr (hinvocation : law.InvocationMeets state invocation) :
    law.Answers state invocation.soleExpr law.expr := by
  unfold Invocation.soleExpr
  split
  · next arg hargs =>
      refine .pure (expr_callArgs hinvocation.call ?_)
      rw [hargs]
      exact List.mem_singleton.mpr rfl
  · exact .raise nofun

/-- So are the two of a special form that takes one or two. -/
theorem answers_exprPair (hinvocation : law.InvocationMeets state invocation) :
    law.Answers state invocation.exprPair fun pair =>
      law.expr pair.1 ∧ ∀ second ∈ pair.2, law.expr second := by
  unfold Invocation.exprPair
  split
  · next first hargs =>
      refine .pure ⟨expr_callArgs hinvocation.call ?_, fun _ hsecond => nomatch hsecond⟩
      rw [hargs]
      exact List.mem_singleton.mpr rfl
  · next first second hargs =>
      refine .pure ⟨expr_callArgs hinvocation.call ?_, fun other hother => ?_⟩
      · rw [hargs]
        exact List.mem_cons_self
      · cases hother
        refine expr_callArgs hinvocation.call ?_
        rw [hargs]
        exact List.mem_cons_of_mem _ List.mem_cons_self
  · exact .raise nofun

/-- A checked operation answers where it does not raise. -/
theorem answers_checked {α : Type} (result : Except TypeError α) :
    law.Answers state (checked result) fun value => result = .ok value := by
  cases result with
  | ok value => exact .pure rfl
  | error cause => exact .raise nofun

/-- Reading a numeric vector. -/
theorem answers_numbers (hnow : law.Now kind state ref) :
    law.Answers state (numbers ref) fun _ => True := by
  refine (answers_payload hnow).bind fun found _ => ?_
  split
  · exact .pure trivial
  · exact .raise nofun

/-- A comparison in depth meets only references that stand; the induction is on
the depth. -/
theorem answers_identicalWithin (hstate : law.Sound state) (depth : Nat)
    {a b : Ref} {kind other : Kind} (ha : law.Now kind state a)
    (hb : law.Now other state b) :
    law.Answers state (identicalWithin depth a b) fun _ => True := by
  induction depth generalizing a b kind other with
  | zero => exact .outOfFuel
  | succ depth ih =>
      unfold identicalWithin
      split
      · exact .pure trivial
      · refine (answers_fetch ha).bind fun x hx => (answers_fetch hb).bind fun y hy => ?_
        split
        · exact .pure trivial
        · refine Answers.bind (Answers.allM fun entry hentry => ?_) fun attributes _ => ?_
          · split
            split
            · exact .pure trivial
            · next value hvalue =>
                exact ih (law.holds_attribute hstate.inv hx hentry) (hstate.attribute hy hvalue)
          split
          · exact .pure trivial
          · split
            · exact .pure trivial
            · split
              · next xs ys hxs hys =>
                  have hleft := law.holds hstate.inv ha hx
                  have hright := law.holds hstate.inv hb hy
                  rw [hxs] at hleft
                  rw [hys] at hright
                  refine Answers.allM fun pair hpair => ?_
                  obtain ⟨hfirst, hsecond⟩ := List.of_mem_zip hpair
                  exact ih (hleft _ hfirst) (hright _ hsecond)
              · exact .pure trivial

/-- A comparison of two objects. -/
theorem answers_identicalObjects (hstate : law.Sound state) {a b : Ref}
    (ha : law.Now kind state a) (hb : law.Now kind state b) :
    law.Answers state (identicalObjects a b) fun _ => True :=
  answers_walkBudget.bind fun depth _ => answers_identicalWithin hstate depth ha hb

/-- Reading the text of a message. -/
theorem answers_messageText (hinvocation : law.InvocationMeets state invocation)
    :
    law.Answers state (messageText invocation) fun _ => True := by
  have htext : ∀ ref ∈ Args.values invocation.args, law.Answers state
      (do return (← payload ref).messageText : Query String) fun _ => True := fun ref href =>
    (answers_payload (law.has_now (ArgsMeet.of_mem_values hinvocation.args href))).bind
      fun _ _ => .pure trivial
  exact (Answers.mapM htext).bind fun _ _ => .pure trivial

/-- Reading a condition. -/
theorem answers_truth (hnow : law.Now kind state ref) :
    law.Answers state (truth ref) fun _ => True := by
  refine (answers_payload hnow).bind fun found _ => ?_
  split
  case h_4 => exact .raise nofun
  -- All three kinds of vectors go on in the same way with their first element.
  all_goals
    refine .bind (.pure trivial) fun first (_ : True) => ?_
    cases first with
    | none => exact .raise nofun
    | some b => exact .pure trivial

end RefLaw

end LazyDispatch
