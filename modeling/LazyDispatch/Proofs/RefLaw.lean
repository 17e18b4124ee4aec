import LazyDispatch.Proofs.Aliasing
import LazyDispatch.Proofs.HeapLaw

/-!
# Laws of references

Evaluation hands references around: to values, to promises, to the arguments
that `...` gathered.  A *reference law* says what is known of them.  What is
known *now* may be lost with the next allocation, which may collect; what is
known while certain references are *held* as roots lasts as long as these are.
A law also has an invariant of states, a relation between states, and the faults
that it leaves possible.

The steps of evaluation are followed in pairs: two steps coincide in a state if
they have the same result there, the result keeps to the law, and so does what
it says of the references in it.  With one step taken twice this is what the
step does under the law.  With two different runners it says that the step only
depends on what the runner does in states that satisfy the invariant.  A law may
let the first step give up; then it says what the second does wherever the first
does not.
-/

namespace LazyDispatch

/-! ## Kinds of objects -/

namespace Object

/-- Whether an object is a promise. -/
def isPromise : Object → Bool
  | promise _ => true
  | _ => false

/-- Whether an object holds gathered arguments. -/
def isDots : Object → Bool
  | dots _ => true
  | _ => false

/-- Whether an object is an environment. -/
def isEnvironment : Object → Bool
  | environment _ => true
  | _ => false

end Object

/-- What may be known of the object behind a reference. -/
inductive Kind where
  | any
  /-- What expressions evaluate to. -/
  | value
  /-- What a call passes on: a value or a promise. -/
  | operand
  | promise
  /-- What `...` is bound to: a value or gathered arguments. -/
  | content
  /-- What symbols are looked up in. -/
  | environment

/-- The objects of a kind. -/
def Kind.Admits : Kind → Object → Prop
  | any, _ => True
  | value, object => object.isPromise = false ∧ object.isDots = false
  | operand, object => object.isDots = false
  | promise, object => object.isPromise = true
  | content, object => object.isPromise = false
  | environment, object => object.isEnvironment = true

/-- The kind of what a symbol is bound to. -/
def Kind.ofSymbol (dots symbol : Symbol) : Kind :=
  if symbol = dots then .content else .value

/-- `...` is bound to what a call gathers. -/
theorem Kind.ofSymbol_dots (dots : Symbol) :
    Kind.ofSymbol dots dots = .content :=
  if_pos rfl

/-- All objects of one kind are of another. -/
def Kind.Within (kind other : Kind) : Prop :=
  ∀ object, kind.Admits object → other.Admits object

namespace Kind

/-- Every place is one for any object. -/
theorem within_any (kind : Kind) : kind.Within any := fun _ _ => trivial

/-- A value may be passed on. -/
theorem value_within_operand : value.Within operand := fun _ hvalue => hvalue.2

/-- A value may stand behind `...`. -/
theorem value_within_content : value.Within content := fun _ hvalue => hvalue.1

/-- A value may be bound to any symbol. -/
theorem value_within_ofSymbol (dots symbol : Symbol) :
    value.Within (ofSymbol dots symbol) := by
  unfold ofSymbol
  split
  · exact value_within_content
  · exact fun _ hvalue => hvalue

/-- A promise may be passed on. -/
theorem promise_within_operand : promise.Within operand := by
  intro object hpromise
  cases object with
  | promise deferred => rfl
  | _ => cases hpromise

/-- An environment is a value. -/
theorem environment_within_value : environment.Within value := by
  intro object henvironment
  cases object with
  | environment env => exact ⟨rfl, rfl⟩
  | _ => cases henvironment

end Kind

/-- An object is of the same kind as before. -/
structure HeapObject.SameKind (before after : HeapObject) : Prop where
  promise : after.payload.isPromise = before.payload.isPromise
  dots : after.payload.isDots = before.payload.isDots
  environment : after.payload.isEnvironment = before.payload.isEnvironment

namespace HeapObject.SameKind

variable {before between after : HeapObject}

/-- An object is of its own kind. -/
theorem refl (object : HeapObject) : object.SameKind object := ⟨rfl, rfl, rfl⟩

/-- Kinds are compared step by step. -/
theorem trans (hfirst : before.SameKind between)
    (hsecond : between.SameKind after) :
    before.SameKind after :=
  ⟨hsecond.promise.trans hfirst.promise, hsecond.dots.trans hfirst.dots,
    hsecond.environment.trans hfirst.environment⟩

end HeapObject.SameKind

/-- A place that admits an object admits all of its kind. -/
theorem Kind.admits_of_sameKind {kind : Kind} {before after : HeapObject}
    (hsame : before.SameKind after) (hadmits : kind.Admits before.payload) :
    kind.Admits after.payload := by
  cases kind with
  | any => trivial
  | value => exact ⟨hsame.promise.trans hadmits.1, hsame.dots.trans hadmits.2⟩
  | operand => exact hsame.dots.trans hadmits
  | promise => exact hsame.promise.trans hadmits
  | content => exact hsame.promise.trans hadmits
  | environment => exact hsame.environment.trans hadmits

/-! ## What objects hold -/

section Meets

variable (has : Kind → Ref → Prop) (loose : Prop)

/-- The arguments of a call hold references with a property. -/
def ArgsMeet (p : Ref → Prop) (args : List Arg) : Prop :=
  ∀ arg ∈ args, ∀ ref ∈ arg.value, p ref

/-- What a binding of an origin holds, where a bound symbol stands for something
of a kind. -/
def Origin.kind (kind : Kind) : Origin → Kind
  | unbound => .any
  | missing | promise => .promise
  | bound => kind

/-- Whether a binding holds as much as its origin says. -/
def Binding.isShaped : Binding → Bool
  | ⟨.unbound, _⟩ => false
  | ⟨.missing, _⟩ => true
  | ⟨_, value⟩ => value.isSome

/-- A binding holds what its origin says. -/
structure Binding.Meets (kind : Kind) (binding : Binding) : Prop where
  value : ∀ ref ∈ binding.value, has (binding.origin.kind kind) ref
  shape : binding.isShaped = false → loose

/-- What a binding holds as an argument that was promised. -/
def Binding.promised? : Binding → Option Ref
  | ⟨.promise, value⟩ => value
  | _ => none

/-- The arguments of a call that its frame holds as promises. -/
def Frame.promised (frame : Frame) : List Ref :=
  frame.entries.filterMap (·.2.promised?)

/-- The bindings of a frame hold what their origins say. -/
def Frame.Meets (dots : Symbol) (frame : Frame) : Prop :=
  ∀ entry ∈ frame.entries, entry.2.Meets has loose (.ofSymbol dots entry.1)

/-- What an object holds is of the right kind, and what it may evaluate is
admissible.  A pending promise may lose its environment, and nothing is said
about that. -/
def Object.Meets (expr : Expr → Prop) (dots : Symbol) : Object → Prop
  | .list items => ∀ item ∈ items, has .value item
  | .closure fn =>
      has .environment fn.env ∧
        ∃ site, expr (.function site fn.formalsSite fn.formals fn.body)
  | .environment env =>
      (∀ parent ∈ env.parent, has .environment parent) ∧ env.frame.Meets has loose dots
  | .promise (.pending deferred _) => expr deferred
  | .promise (.underEvaluation deferred env) => expr deferred ∧ has .environment env
  | .promise (.forced _ value) => has .value value
  | .dots args => ArgsMeet (has .operand) args
  | _ => True

/-- What a promise leads to: the environment of its expression, or its value. -/
def Promise.edgeKind : Promise → Kind
  | .pending _ _ | .underEvaluation _ _ => .environment
  | .forced _ _ => .value

/-- The same of an object with its attributes, and of the environment of a
promise too. -/
structure HeapObject.Meets (expr : Expr → Prop) (dots : Symbol)
    (object : HeapObject) : Prop where
  payload : object.payload.Meets has loose expr dots
  edge : ∀ deferred, object.payload = .promise deferred → has deferred.edgeKind deferred.edge
  attributes : ∀ entry ∈ object.attributes, has .value entry.2

/-- The same of a call in progress.  The function of a builtin that dispatches
is never looked at. -/
structure CallContext.Meets (expr : Expr → Prop) (context : CallContext) :
    Prop where
  fn : has .any context.fn
  closure : context.kind = .function → has .value context.fn
  caller : has .environment context.caller
  env : ∀ ref ∈ context.env, has .environment ref
  args : ArgsMeet (has .operand) context.args
  call : expr context.call

end Meets

section Mono

variable {has more : Kind → Ref → Prop} {loose : Prop} {expr : Expr → Prop}
  (hmore : ∀ kind ref, has kind ref → more kind ref)

include hmore

/-- Arguments meet what follows from what they meet. -/
theorem ArgsMeet.mono {kind : Kind} {args : List Arg}
    (hargs : ArgsMeet (has kind) args) :
    ArgsMeet (more kind) args :=
  fun arg harg ref href => hmore kind ref (hargs arg harg ref href)

/-- So does a binding. -/
theorem Binding.Meets.mono {kind : Kind} {binding : Binding}
    (hbinding : binding.Meets has loose kind) : binding.Meets more loose kind :=
  ⟨fun ref href => hmore _ ref (hbinding.value ref href), hbinding.shape⟩

/-- So does a payload. -/
theorem Object.Meets.mono {dots : Symbol} {object : Object}
    (hobject : object.Meets has loose expr dots) :
    object.Meets more loose expr dots := by
  cases object with
  | list items => exact fun item hitem => hmore _ item (hobject item hitem)
  | closure fn => exact ⟨hmore _ _ hobject.1, hobject.2⟩
  | environment env =>
      exact ⟨fun parent hparent => hmore _ parent (hobject.1 parent hparent),
        fun entry hentry => (hobject.2 entry hentry).mono hmore⟩
  | promise deferred =>
      cases deferred with
      | pending body env => exact hobject
      | underEvaluation body env => exact ⟨hobject.1, hmore _ _ hobject.2⟩
      | forced body value => exact hmore _ _ hobject
  | dots args => exact ArgsMeet.mono hmore hobject
  | _ => trivial

/-- So does an object with its attributes. -/
theorem HeapObject.Meets.mono {dots : Symbol} {object : HeapObject}
    (hobject : object.Meets has loose expr dots) :
    object.Meets more loose expr dots := by
  refine ⟨hobject.payload.mono hmore, ?_, ?_⟩
  · intro deferred hdeferred
    exact hmore _ _ (hobject.edge deferred hdeferred)
  · intro entry hentry
    exact hmore _ _ (hobject.attributes entry hentry)

/-- So does a call in progress. -/
theorem CallContext.Meets.mono {context : CallContext}
    (hcontext : context.Meets has expr) :
    context.Meets more expr :=
  ⟨hmore _ _ hcontext.fn, fun hkind => hmore _ _ (hcontext.closure hkind),
    hmore _ _ hcontext.caller,
    fun ref href => hmore _ ref (hcontext.env ref href),
    hcontext.args.mono hmore, hcontext.call⟩

end Mono

/-- Nothing may be asked of what objects hold. -/
theorem Object.meets_true (dots : Symbol) (object : Object) :
    object.Meets (fun _ _ => True) True (fun _ => True) dots := by
  cases object with
  | promise deferred => cases deferred <;> simp [Object.Meets]
  | environment env =>
      exact ⟨fun _ _ => trivial, fun _ _ => ⟨fun _ _ => trivial, fun _ => trivial⟩⟩
  | _ => simp [Object.Meets, ArgsMeet]

/-- The immediate parts of an expression. -/
def Expr.children : Expr → List Expr
  | .literal _ _ | .symbol _ _ | .missing _ => []
  | .call _ head args => head :: args.map (·.value)
  | .function _ _ formals body => body :: formals.filterMap (·.default)
  | .block _ exprs => exprs
  | .branch _ condition yes no => condition :: yes :: no.toList
  | .assign _ _ _ value => [value]

/-- The symbols that an expression binds in frames, apart from its parts. -/
def Expr.binds : Expr → List Symbol
  | .function _ _ formals _ => formals.map (·.name)
  | .assign _ _ name _ => [name]
  | _ => []

/-! ## Reference laws -/

/-- The fixed environments. -/
def Fixed.scopes (fixed : Fixed) : List Ref :=
  [fixed.base, fixed.global, fixed.methods]

/-- The fixed environments are among the fixed objects. -/
theorem Fixed.scopes_subset_edges (fixed : Fixed) :
    fixed.scopes ⊆ fixed.edges := by
  intro ref href
  simp only [scopes, edges, List.mem_cons, List.not_mem_nil, or_false] at href ⊢
  exact Or.inr (href.imp_right fun hrest => hrest.imp_right Or.inl)

/-- How long something is known of a reference. -/
inductive Custody where
  /-- Until the next allocation. -/
  | now
  /-- As long as certain references are among the roots. -/
  | held (refs : List Ref)

/-- Nothing but the names, the stacks and the counters of a state changes. -/
structure Interpreter.SameStore (state after : Interpreter) : Prop extends
    state.SameHeap after where
  cache : after.cache = state.cache

/-- States with equal parts have the same store. -/
theorem Interpreter.SameStore.of_eq {state after : Interpreter} (hheap : after.heap = state.heap)
    (hreserved : after.reserved = state.reserved) (hfixed : after.fixed = state.fixed)
    (hnames : after.naming.symbols = state.naming.symbols) (hcache : after.cache = state.cache) :
    state.SameStore after :=
  ⟨.of_eq hheap hreserved hfixed hnames, hcache⟩

/-- The references that the roots and the calls in progress hold. -/
def Interpreter.held (state : Interpreter) : List Ref :=
  state.roots.edges ++ state.contexts.flatMap CallContext.edges

/-- The state in which the innermost call works in an environment. -/
def Interpreter.workingIn (state : Interpreter) (env : Ref) : Interpreter :=
  { state with
    contexts := match state.contexts with
      | [] => []
      | context :: rest => { context with env := some env } :: rest }

/-- A call that has just begun does not work anywhere yet. -/
theorem CallContext.worksIn_of_begun {context : CallContext}
    (hplace : context.kind = .internal ∨ context.env = none) (env : Ref) :
    context.worksIn env = false := by
  rcases hplace with hkind | henv
  · simp [CallContext.worksIn, hkind]
  · simp [CallContext.worksIn, henv]

/-- An object changes in its place: a promise may change its state, and an
environment those bindings that programs make. -/
inductive Object.Spares (binds : Symbol → Prop) : Object → Object → Prop
  | same (object : Object) : Spares binds object object
  | promise (before after : Promise) : Spares binds (.promise before) (.promise after)
  | frame (env : Environment) (frame : Frame)
      (hframe : ∀ symbol, ¬binds symbol → frame.find? symbol = env.frame.find? symbol) :
      Spares binds (.environment env) (.environment ⟨env.parent, frame⟩)

/-- What a law asks of references, states and expressions, and what it admits. -/
structure Terms where
  /-- The invariant of states. -/
  inv : Interpreter → Prop
  /-- What happens from one state to another while certain references are held. -/
  step : List Ref → Interpreter → Interpreter → Prop
  /-- What is known of references. -/
  has : Custody → Kind → Interpreter → Ref → Prop
  /-- The faults that may stop an evaluation in a state. -/
  fault : Fault → Interpreter → Prop
  /-- The expressions that are evaluated. -/
  expr : Expr → Prop
  /-- Whether bindings may be out of shape. -/
  loose : Prop
  /-- Whether the calls and the roots have to be left as they were. -/
  balanced : Prop
  /-- Whether the first of two steps may give up, as if out of fuel, where the
  second goes on. -/
  stalls : Prop
  /-- The symbols that may be assigned and may be formals. -/
  binds : Symbol → Prop := fun _ => True
  /-- What is known of the calls in progress. -/
  calls : Interpreter → Prop := fun _ => True
  /-- The names that a method may find in `.Method` when it was selected under a
  name. -/
  tells : String → List String → Prop := fun _ _ => True
  /-- What is known of a reference to such names. -/
  named : Custody → String → Interpreter → Ref → Prop := fun _ _ _ _ => True
  /-- What is known of a method in progress that the next method is looked for
  from. -/
  resumes : Interpreter → Eval.MethodInProgress → Prop := fun _ _ => True
  /-- Whether the names of methods are followed from the call of one to the
  next. -/
  names : Prop := False
  /-- Whether the calls in progress hold on to references, and not only the
  roots. -/
  deep : Bool := true

namespace Terms

variable (terms : Terms)

/-- The references that count as held in a state. -/
def held (state : Interpreter) : List Ref :=
  state.roots.edges ++ bif terms.deep then state.contexts.flatMap CallContext.edges else []

/-- What an object holds meets the terms now. -/
abbrev MeetsNow (state : Interpreter) (object : HeapObject) : Prop :=
  object.Meets (terms.has .now · state) terms.loose terms.expr state.reserved.dots

/-- A payload is of a kind, or it is a copy of what is known to be of that kind
now. -/
def Known (state : Interpreter) (kind : Kind) (found : Object) : Prop :=
  kind.Admits found ∨ ∃ source attributes, terms.has .now kind state source ∧
    state.heap.get? source = some ⟨found, attributes⟩

/-- What a call is given besides its arguments, if names are followed: nothing,
or the dispatch variables of a method that it calls by the name under which the
method was selected. -/
def Supplies (state : Interpreter) (call : Expr)
    (supplied : List (Symbol × Ref)) : Prop :=
  terms.names → supplied = [] ∨ ∃ vars head name,
    supplied = DispatchVars.bindings vars state.reserved ∧ call.callHead? = some head ∧
    state.naming.symbols.name? head = some name ∧
    terms.named (.held (terms.held state)) name state vars.method

/-- Terms that ask nothing of references. -/
structure Indifferent : Prop where
  has : ∀ custody kind state ref, terms.has custody kind state ref
  fault : ∀ cause state, terms.fault cause state
  expr : ∀ expr, terms.expr expr
  held : ∀ {held more state after}, terms.step held state after → terms.step more state after
  calls : ∀ state, terms.calls state := by intros; exact True.intro
  named : ∀ custody name state ref, terms.named custody name state ref := by
    intros; exact True.intro
  resumes : ∀ state method, terms.resumes state method := by intros; exact True.intro

end Terms

/-- Terms that the primitive steps of evaluation respect.  Terms that ask
nothing of references, faults, expressions or calls need no word about them. -/
structure RefLaw extends Terms where
  -- What is known of references.
  has_now : ∀ {held kind state ref}, has (.held held) kind state ref → has .now kind state ref := by
    intros; exact True.intro
  has_root : ∀ {held kind state ref}, has .now kind state ref → ref ∈ held →
    has (.held held) kind state ref := by intros; exact True.intro
  has_mono : ∀ {held more kind state ref}, held ⊆ more → has (.held held) kind state ref →
    has (.held more) kind state ref := by intros; exact True.intro
  has_within : ∀ {custody kind other state ref}, kind.Within other →
    has custody kind state ref → has custody other state ref := by intros; exact True.intro
  has_admits : ∀ {custody kind other state ref object}, inv state →
    has custody kind state ref → state.heap.get? ref = some object →
    other.Admits object.payload → has custody other state ref := by
    intros; exact True.intro
  /-- What a call passes on is a value if it is not a promise. -/
  has_operand : ∀ {custody state ref object}, inv state → has custody .operand state ref →
    state.heap.get? ref = some object → object.payload.isPromise = false →
    has custody .value state ref := by intros; exact True.intro
  has_fixed : ∀ {held state ref}, inv state → ref ∈ state.fixed.edges →
    has (.held held) .value state ref := by intros; exact True.intro
  has_scope : ∀ {held state ref}, inv state → ref ∈ state.fixed.scopes →
    has (.held held) .environment state ref := by intros; exact True.intro
  has_step : ∀ {held kind state after ref}, inv state → step held state after →
    has (.held held) kind state ref → has (.held held) kind after ref := by intros; exact True.intro
  has_same : ∀ {custody kind state after ref}, state.SameStore after →
    has custody kind state ref → has custody kind after ref := by intros; exact True.intro
  has_amend : ∀ {kind state ref target object change}, has .now kind state ref →
    state.heap.get? target = some object → object.SameKind (change object) →
    has .now kind (state.amend target change) ref := by intros; exact True.intro
  /-- The variables of dispatch are not `...`. -/
  has_dispatch : ∀ {custody state symbol ref}, inv state → symbol ∈
    [state.reserved.dotGroup, state.reserved.dotGenericCallEnv,
      state.reserved.dotGenericDefEnv] →
    has custody (.ofSymbol state.reserved.dots symbol) state ref →
    has custody .value state ref := by
    intros; exact True.intro
  /-- What `...` is does not change. -/
  has_dots : ∀ {held begun state ref}, step held begun state → has .now .content state ref →
    has .now (.ofSymbol state.reserved.dots begun.reserved.dots) state ref := by
    intros; exact True.intro
  -- What objects hold.
  holds : ∀ {custody kind state ref object}, inv state → has custody kind state ref →
    state.heap.get? ref = some object →
    object.payload.Meets (has custody · state) loose expr state.reserved.dots
  holds_edge : ∀ {state ref deferred attributes}, inv state →
    state.heap.get? ref = some ⟨.promise deferred, attributes⟩ →
    has .now deferred.edgeKind state deferred.edge := by intros; exact True.intro
  holds_attribute : ∀ {state ref object entry}, inv state → state.heap.get? ref = some object →
    entry ∈ object.attributes → has .now .value state entry.2 := by intros; exact True.intro
  -- Faults.
  fault_missing : ∀ {kind state ref}, has .now kind state ref → state.heap.get? ref = none →
    fault (.staleReference ref) state ∧ fault (.enclosingNotAnEnvironment ref) state := by
    intros; exact ⟨True.intro, True.intro⟩
  fault_environment : ∀ {name state ref object}, has .now .environment state ref →
    state.heap.get? ref = some object → object.payload.isEnvironment = false →
    fault (.notAnEnvironment name) state ∧ fault (.enclosingNotAnEnvironment ref) state := by
    intros; exact ⟨True.intro, True.intro⟩
  fault_promise : ∀ {name state ref object}, has .now .promise state ref →
    state.heap.get? ref = some object → object.payload.isPromise = false →
    fault (.notAPromise name) state := by intros; exact True.intro
  fault_allocate : ∀ {cause object heap} {state : Interpreter},
    state.heap.allocate object state.rootRefs = .error cause heap →
    fault cause { state with heap } := by
    intros; exact True.intro
  fault_loose : loose → ∀ state, fault .promiseBindingEmpty state ∧
    fault .boundBindingEmpty state := by
    intros; exact ⟨True.intro, True.intro⟩
  fault_symbol : ∀ state, fault .foreignSymbol state := by intros; exact True.intro
  -- Expressions.
  expr_children : ∀ {parent child}, expr parent → child ∈ parent.children → expr child := by
    intros; exact True.intro
  expr_symbol : ∀ site name, expr (.symbol site name) := by intros; exact True.intro
  expr_withHead : ∀ {call} site head, expr call → expr (call.withHead site head) := by
    intros; exact True.intro
  expr_atSite : ∀ {node} site, expr node → expr (node.atSite site) := by intros; exact True.intro
  -- Steps that leave the store alone, and sequences of steps.
  inv_same : ∀ {state after}, state.SameStore after → inv state → inv after
  step_same : ∀ {held state after}, state.SameStore after → step held state after
  step_trans : ∀ {held first second third}, step held first second → step held second third →
    step held first third
  step_mono : ∀ {held more state after}, held ⊆ more → step more state after → step held state after
  unbalanced : ¬balanced → toTerms.Indifferent
  shallow : deep = false → ∀ custody kind state ref, has custody kind state ref := by
    exact fun hshallow => nomatch hshallow
  -- Allocations and changes of objects.
  on_allocate : ∀ {held object state ref heap}, inv state → held ⊆ state.rootRefs →
    toTerms.MeetsNow state object → state.heap.allocate object state.rootRefs = .ok ref heap →
    step held state { state with heap } ∧ inv { state with heap } ∧
      ∀ kind, toTerms.Known state kind object.payload → has .now kind { state with heap } ref
  on_collect : ∀ {held state}, inv state → held ⊆ state.rootRefs →
    step held state { state with heap := (state.heap.collect state.rootRefs).2 } ∧
      inv { state with heap := (state.heap.collect state.rootRefs).2 }
  /-- An object that was allocated on the way may get an attribute. -/
  on_complete :
    ∀ {held object state ref heap after} (name : Symbol) (value : Option Ref),
    inv state → held ⊆ state.rootRefs →
    state.heap.allocate object state.rootRefs = .ok ref heap →
    step held { state with heap } after → step held state after →
    step held state (after.amend ref (·.updateAttribute name value))
  /-- A frame that was allocated on the way gets its bindings.  The arguments
  that are promised were there before the frame. -/
  on_frame : ∀ {held object state ref heap after env attributes} (frame : Frame), inv state →
    held ⊆ state.rootRefs → state.heap.allocate object state.rootRefs = .ok ref heap →
    step held state after → inv after →
    after.heap.get? ref = some ⟨.environment env, attributes⟩ →
    frame.Meets (has .now · after) loose after.reserved.dots →
    (∀ value ∈ frame.promised, value ∈ env.frame.promised ∨ has .now .operand state value) →
    step held state (after.amend ref (.become (.environment ⟨env.parent, frame⟩))) ∧
      inv (after.amend ref (.become (.environment ⟨env.parent, frame⟩)))
  inv_frame : ∀ {state ref env attributes} (frame : Frame), inv state →
    state.heap.get? ref = some ⟨.environment env, attributes⟩ →
    frame.Meets (has .now · state) loose state.reserved.dots → frame.promised ⊆ env.frame.promised →
    inv (state.amend ref (.become (.environment ⟨env.parent, frame⟩)))
  step_frame : ∀ {held state ref env attributes} (frame : Frame), inv state →
    state.heap.get? ref = some ⟨.environment env, attributes⟩ →
    frame.promised ⊆ env.frame.promised →
    (∀ symbol, ¬binds symbol → frame.find? symbol = env.frame.find? symbol) →
    step held state (state.amend ref (.become (.environment ⟨env.parent, frame⟩)))
  inv_attribute : ∀ {state ref object} (name : Symbol) (value : Option Ref), inv state →
    state.heap.get? ref = some object → (∀ cls ∈ value, has .now .value state cls) →
    inv (state.amend ref (·.updateAttribute name value))
  step_class : ∀ {held state ref env attributes} (cls : Option Ref),
    state.heap.get? ref = some ⟨.environment env, attributes⟩ →
    step held state (state.amend ref (·.updateAttribute state.reserved.cls cls))
  inv_evaluate : ∀ {state ref deferred env attributes}, inv state →
    state.heap.get? ref = some ⟨.promise (.pending deferred env), attributes⟩ → expr deferred →
    has .now .environment state env →
    inv (state.amend ref (.become (.promise (.underEvaluation deferred env))))
  /-- A promise that was evaluated gets its value, or is pending again. -/
  on_settle : ∀ {held state ref deferred env attributes
    after former later} (settled : Promise), inv state →
    state.heap.get? ref = some ⟨.promise (.pending deferred env), attributes⟩ →
    step (ref :: held)
      (state.amend ref (.become (.promise (.underEvaluation deferred env))))
      after → inv after → after.heap.get? ref = some ⟨.promise former, later⟩ →
    (settled = .pending deferred env ∨
      ∃ value, settled = .forced deferred value) → Object.Meets
    (has .now · after) loose expr after.reserved.dots (.promise settled) →
    has .now settled.edgeKind after settled.edge →
    step held state (after.amend ref (.become (.promise settled))) ∧
    inv (after.amend ref (.become (.promise settled)))
  -- Calls in progress.
  expr_binds : ∀ {node symbol}, expr node → symbol ∈ node.binds → binds symbol := by
    intros; exact True.intro
  calls_step : ∀ {state after}, inv state → calls state → step (toTerms.held state) state after →
    inv after → after.contexts <:+ state.contexts → calls after := by intros; exact True.intro
  calls_amend : ∀ {state ref object change}, inv state → calls state →
    state.heap.get? ref = some object → object.payload.Spares binds (change object).payload →
    calls (state.amend ref change) := by intros; exact True.intro
  calls_begin : ∀ {state context}, calls state → context.kind = .internal ∨ context.env = none →
    calls { state with contexts := context :: state.contexts } := by intros; exact True.intro
  /-- A closure that was called gets a new environment to work in. -/
  calls_enter : ∀ {state context rest parent env heap}, inv state → calls state →
    (∀ other ∈ state.contexts, other.Meets (has .now · state) expr) →
    state.contexts = context :: rest → context.env = none →
    state.heap.allocate { payload := .environment (.inside parent) } state.rootRefs = .ok env heap →
    step (toTerms.held state) state { state with heap } →
    calls (Interpreter.workingIn { state with heap } env) := by intros; exact True.intro
  /-- The frame of a closure gets what its call is given. -/
  calls_supply : ∀ {begun state context rest env found attributes supplied}, inv begun → inv state →
    calls state → step (toTerms.held begun) begun state → state.contexts = context :: rest →
    context.kind = .function → context.env = some env →
    state.heap.get? env = some ⟨.environment found, attributes⟩ →
    toTerms.Supplies begun context.call supplied →
    calls (state.amend env (.become (.environment ⟨found.parent,
      found.frame.bindAbsent supplied⟩))) := by intros; exact True.intro
  -- Methods in progress.
  resumes_start : ∀ {state context head method}, inv state → calls state →
    state.functionWithEnv? method.env = some context → context.call.callHead? = some head →
    method.head = state.symbolName head → resumes state method := by intros; exact True.intro
  resumes_step : ∀ {state after method}, inv state → step (toTerms.held state) state after →
    after.contexts = state.contexts → resumes state method → resumes after method := by
      intros; exact True.intro
  /-- What a method in progress finds as its names was told of the name that it
  was called by. -/
  resumes_names : ∀ {state method found attributes value names more}, inv state →
    resumes state method → state.heap.get? method.env = some ⟨.environment found, attributes⟩ →
    found.frame.find? state.reserved.dotMethod = some ⟨.bound, some value⟩ →
    state.heap.get? value = some ⟨.character names, more⟩ → tells method.head names := by
      intros; exact True.intro
  -- The names of selected methods.
  tells_names : ∀ {name names}, name ≠ "" → name ∈ names →
    (∀ entry ∈ names, entry = "" ∨ entry = name) → tells name names := by intros; exact True.intro
  tells_next : ∀ {current name names}, tells current names → name ≠ "" →
    tells name (Eval.nextNames name (some names)) := by intros; exact True.intro
  named_root : ∀ {held name state ref}, named .now name state ref → ref ∈ held →
    named (.held held) name state ref := by intros; exact True.intro
  named_mono : ∀ {held more name state ref}, held ⊆ more → named (.held held) name state ref →
    named (.held more) name state ref := by intros; exact True.intro
  named_step : ∀ {held name state after ref}, inv state → step held state after →
    named (.held held) name state ref → named (.held held) name after ref := by
      intros; exact True.intro
  named_same : ∀ {custody name state after ref}, state.SameStore after →
    named custody name state ref → named custody name after ref := by intros; exact True.intro
  named_allocate : ∀ {name names state ref heap}, inv state →
    state.heap.allocate { payload := .character names } state.rootRefs = .ok ref heap →
    tells name names → named .now name { state with heap } ref := by intros; exact True.intro

/-! ## States under a law -/

/-- What is held is among the roots of a collection. -/
theorem Terms.held_subset_rootRefs (terms : Terms) (state : Interpreter) :
    terms.held state ⊆ state.rootRefs := by
  intro ref href
  simp only [Terms.held, Interpreter.rootRefs, List.mem_append] at href ⊢
  rcases href with hroot | hcall
  · exact Or.inl (Or.inl (Or.inr hroot))
  · cases hdeep : terms.deep with
    | true =>
        rw [hdeep] at hcall
        exact Or.inl (Or.inr hcall)
    | false =>
        rw [hdeep] at hcall
        cases hcall

/-- As long as the calls stay, nothing that is held is lost. -/
theorem Interpreter.Keeps.held_subset {scope : Scope}
    {state after : Interpreter} (hkeeps : state.Keeps scope after)
    (hcalls : after.contexts = state.contexts) (terms : Terms) :
    terms.held state ⊆ terms.held after := by
  unfold Terms.held
  rw [hcalls]
  exact List.append_subset.mpr ⟨List.subset_append_of_subset_left _ hkeeps.edges_subset,
    List.subset_append_right _ _⟩

/-- The state after the end of its innermost call. -/
def Interpreter.ended (state : Interpreter) (context : CallContext)
    (rest : List CallContext) :
    Interpreter :=
  Interpreter.withEntries { state with contexts := rest }
    (state.roots.entries.shrink context.rootDepth)

namespace RefLaw

/-- What is known of a reference right now. -/
abbrev Now (law : RefLaw) (kind : Kind) (state : Interpreter) (ref : Ref) :
    Prop :=
  law.has .now kind state ref

/-- What is known of a reference as long as the roots and the calls stay. -/
abbrev Kept (law : RefLaw) (kind : Kind) (state : Interpreter) (ref : Ref) :
    Prop :=
  law.has (.held (law.held state)) kind state ref

/-- A state in which evaluation can go on. -/
structure Sound (law : RefLaw) (state : Interpreter) : Prop where
  inv : law.inv state
  roots : ∀ ref ∈ state.roots.edges, law.Now .any state ref
  contexts : ∀ context ∈ state.contexts, context.Meets (law.Now · state) law.expr
  calls : law.calls state

/-- What an evaluation does that keeps to a law and to a scope. -/
structure Reaches (law : RefLaw) (scope : Scope) (state after : Interpreter) :
    Prop where
  keeps : law.balanced → state.Keeps scope after ∧ after.contexts = state.contexts
  step : law.step (law.held state) state after
  sound : law.Sound after

/-- Any value may serve as an environment. -/
def Lax (law : RefLaw) : Prop :=
  ∀ {custody state ref}, law.has custody .value state ref → law.has custody .environment state ref

/-- An error carries a value out of a function. -/
def Carries (law : RefLaw) (state : Interpreter) (err : EvalError) : Prop :=
  ∀ value target, err = .earlyReturn value target → law.Now .value state value

variable {law : RefLaw} {state middle after : Interpreter} {scope : Scope} {kind other : Kind}
  {ref : Ref} {custody : Custody}

/-- The fixed objects are kept for good. -/
theorem kept_fixed (hstate : law.Sound state) (href : ref ∈ state.fixed.edges) :
    law.Kept .value state ref :=
  law.has_fixed hstate.inv href

/-- `NULL` is kept for good. -/
theorem kept_null (hstate : law.Sound state) :
    law.Kept .value state state.fixed.null :=
  kept_fixed hstate (by simp [Fixed.edges])

/-- The base environment is kept for good. -/
theorem kept_base (hstate : law.Sound state) :
    law.Kept .environment state state.fixed.base :=
  law.has_scope hstate.inv (by simp [Fixed.scopes])

/-- The global environment is kept for good. -/
theorem kept_global (hstate : law.Sound state) :
    law.Kept .environment state state.fixed.global :=
  law.has_scope hstate.inv (by simp [Fixed.scopes])

/-- The environment of the registered methods is kept for good. -/
theorem kept_methods (hstate : law.Sound state) :
    law.Kept .environment state state.fixed.methods :=
  law.has_scope hstate.inv (by simp [Fixed.scopes])

/-- What a call in progress holds is kept. -/
theorem Sound.kept_context (hstate : law.Sound state) {context : CallContext}
    (hcontext : context ∈ state.contexts) :
    context.Meets (law.Kept · state) law.expr := by
  have hmeets := hstate.contexts context hcontext
  have hheld : ∀ {kind other}, law.Now kind state other → other ∈ context.edges →
      law.Kept kind state other := by
    intro kind other hnow hedge
    cases hdeep : law.deep with
    | false => exact law.shallow hdeep _ _ _ _
    | true =>
        refine law.has_root hnow (List.mem_append_right _ ?_)
        rw [hdeep]
        exact List.mem_flatMap.mpr ⟨context, hcontext, hedge⟩
  refine ⟨hheld hmeets.fn ?_, fun hkind => hheld (hmeets.closure hkind) ?_, hheld hmeets.caller ?_,
    fun env henv => hheld (hmeets.env env henv) ?_, fun arg harg value hvalue =>
      hheld (hmeets.args arg harg value hvalue) ?_, hmeets.call⟩
  · simp [CallContext.edges]
  · simp [CallContext.edges]
  · simp [CallContext.edges]
  · have hsome : context.env = some env := henv
    simp [CallContext.edges, hsome]
  · simp only [CallContext.edges, Args.values, List.mem_cons, List.mem_append, List.mem_filterMap]
    exact Or.inr (Or.inr (Or.inr ⟨arg, harg, hvalue⟩))

/-- A state with another store, but with no more roots and calls. -/
theorem Sound.of_step (hstate : law.Sound state)
    (hstep : law.step (law.held state) state after) (hinv : law.inv after)
    (hroots : after.roots.edges ⊆ state.roots.edges)
    (hcalls : after.contexts <:+ state.contexts) : law.Sound after := by
  have hkept : ∀ kind ref, law.Kept kind state ref → law.Now kind after ref :=
    fun kind ref hkept => law.has_now (law.has_step hstate.inv hstep hkept)
  refine ⟨hinv, fun ref href => ?_, fun context hcontext => ?_,
    law.calls_step hstate.inv hstate.calls hstep hinv hcalls⟩
  · exact hkept _ _ (law.has_root (hstate.roots ref (hroots href))
      (List.mem_append_left _ (hroots href)))
  · exact (hstate.kept_context (hcalls.subset hcontext)).mono hkept

/-- What is known of the calls in progress is known of those that remain. -/
theorem Sound.calls_of_same (hstate : law.Sound state)
    (hsame : state.SameStore after) (hcalls : after.contexts <:+ state.contexts)
    : law.calls after :=
  law.calls_step hstate.inv hstate.calls (law.step_same hsame)
    (law.inv_same hsame hstate.inv) hcalls

/-- A state with the same store, but with other roots and calls. -/
theorem Sound.of_same (hstate : law.Sound state) (hsame : state.SameStore after)
    (hroots : ∀ ref ∈ after.roots.edges, law.Now .any state ref)
    (hcontexts : ∀ context ∈ after.contexts, context.Meets (law.Now · state)
      law.expr) (hcalls : law.calls after) : law.Sound after := by
  refine ⟨law.inv_same hsame hstate.inv, ?_, ?_, hcalls⟩
  · intro ref href
    exact law.has_same hsame (hroots ref href)
  · intro context hcontext
    exact (hcontexts context hcontext).mono fun _ _ => law.has_same hsame

/-- A state with fewer roots. -/
theorem Sound.shrink (hstate : law.Sound state) (depth : Nat) :
    law.Sound (state.withEntries (state.roots.entries.shrink depth)) := by
  have hsame : state.SameStore (state.withEntries (state.roots.entries.shrink depth)) :=
    .of_eq rfl rfl rfl rfl rfl
  refine hstate.of_same hsame (fun ref href => hstate.roots ref ?_) hstate.contexts
    (hstate.calls_of_same hsame List.suffix_rfl)
  simp only [RootStack.edges, Interpreter.withEntries, Array.toList_shrink, List.mem_append,
    List.mem_map] at href ⊢
  rcases href with ⟨entry, hentry, rfl⟩ | hpreserved
  · exact Or.inl ⟨entry, List.mem_of_mem_take hentry, rfl⟩
  · exact Or.inr hpreserved

/-- A state in which an object changed and stayed of its kind. -/
theorem Sound.amend (hstate : law.Sound state) {object : HeapObject}
    {change : HeapObject → HeapObject} (hget : state.heap.get? ref = some object)
    (hsame : object.SameKind (change object))
    (hinv : law.inv (state.amend ref change)) (hcalls : law.calls (state.amend ref change)) :
    law.Sound (state.amend ref change) := by
  have hnow : ∀ kind other, law.Now kind state other →
      law.Now kind (state.amend ref change) other :=
    fun _ _ hnow => law.has_amend hnow hget hsame
  refine ⟨hinv, ?_, ?_, hcalls⟩
  · intro other hother
    exact hnow _ _ (hstate.roots other hother)
  · intro context hcontext
    exact (hstate.contexts context hcontext).mono hnow

/-- Under a law that asks nothing of references the invariant is all. -/
theorem sound_of_unbalanced (hfree : ¬law.balanced) (hinv : law.inv state) :
    law.Sound state := by
  obtain ⟨hany, -, hexpr, -, hcalls, -⟩ := law.unbalanced hfree
  refine ⟨hinv, fun _ _ => hany _ _ _ _, ?_, hcalls _⟩
  intro context _
  exact ⟨hany _ _ _ _, fun _ => hany _ _ _ _, hany _ _ _ _,
    fun _ _ => hany _ _ _ _, fun _ _ _ _ => hany _ _ _ _, hexpr _⟩

/-! ## Later states -/

/-- A lawful step loses nothing that is held. -/
theorem Reaches.held_subset (hreach : law.Reaches scope state after)
    (hbalanced : law.balanced) :
    law.held state ⊆ law.held after := by
  obtain ⟨hkeeps, hcalls⟩ := hreach.keeps hbalanced
  exact hkeeps.held_subset hcalls law.toTerms

/-- A name tells of itself. -/
theorem tells_single (law : RefLaw) {name : String} (hname : name ≠ "") :
    law.tells name [name] :=
  law.tells_names hname (List.mem_singleton.mpr rfl) fun _ hentry =>
    Or.inr (List.mem_singleton.mp hentry)

/-- What is known of names is known later on. -/
theorem Reaches.named (hreach : law.Reaches scope state after)
    (hstate : law.Sound state) {name : String}
    (hnamed : law.named (.held (law.held state)) name state ref) :
    law.named (.held (law.held after)) name after ref := by
  by_cases hbalanced : law.balanced
  · exact law.named_mono (hreach.held_subset hbalanced)
      (law.named_step hstate.inv hreach.step hnamed)
  · exact (law.unbalanced hbalanced).named _ _ _ _

/-- What is known of a method in progress is known later on. -/
theorem Reaches.resumes (hreach : law.Reaches scope state after)
    (hstate : law.Sound state) {method : Eval.MethodInProgress}
    (hresumes : law.resumes state method) :
    law.resumes after method := by
  by_cases hbalanced : law.balanced
  · exact law.resumes_step hstate.inv hreach.step (hreach.keeps hbalanced).2 hresumes
  · exact (law.unbalanced hbalanced).resumes _ _

/-- What is kept is kept later on. -/
theorem Reaches.kept (hreach : law.Reaches scope state after)
    (hstate : law.Sound state) (hkept : law.Kept kind state ref) :
    law.Kept kind after ref := by
  by_cases hbalanced : law.balanced
  · exact law.has_mono (hreach.held_subset hbalanced) (law.has_step hstate.inv hreach.step hkept)
  · exact (law.unbalanced hbalanced).has _ _ _ _

/-- A sound state reaches itself. -/
theorem Reaches.refl (hstate : law.Sound state) :
    law.Reaches scope state state :=
  ⟨fun _ => ⟨.of_eq rfl rfl, rfl⟩, law.step_same (.of_eq rfl rfl rfl rfl rfl), hstate⟩

/-- A step goes on with at least the same references held. -/
theorem step_trans_of_held {held : List Ref}
    (hfirst : law.step held state middle)
    (hheld : law.balanced → held ⊆ law.held middle)
    (hsecond : law.step (law.held middle) middle after) :
    law.step held state after := by
  by_cases hbalanced : law.balanced
  · exact law.step_trans hfirst (law.step_mono (hheld hbalanced) hsecond)
  · exact law.step_trans hfirst ((law.unbalanced hbalanced).held hsecond)

/-- Lawful steps compose. -/
theorem Reaches.trans (hfirst : law.Reaches scope state middle)
    (hsecond : law.Reaches scope middle after) :
    law.Reaches scope state after := by
  refine ⟨fun hbalanced => ?_, step_trans_of_held hfirst.step hfirst.held_subset hsecond.step,
    hsecond.sound⟩
  obtain ⟨hkeeps, hcalls⟩ := hfirst.keeps hbalanced
  obtain ⟨hlater, hsame⟩ := hsecond.keeps hbalanced
  exact ⟨hkeeps.trans hlater, hsame.trans hcalls⟩

/-- A settled step is one of any scope. -/
theorem Reaches.within (hreach : law.Reaches .settled state after) :
    law.Reaches scope state after := by
  refine ⟨?_, hreach.step, hreach.sound⟩
  intro hbalanced
  obtain ⟨hkeeps, hrest⟩ := hreach.keeps hbalanced
  exact ⟨hkeeps.of_settled, hrest⟩

/-- The store changes, and the roots and calls do not. -/
theorem reaches_of_step (hstate : law.Sound state) (hstep : law.step (law.held state) state after)
    (hinv : law.inv after) (hroots : after.roots = state.roots)
    (hcalls : after.contexts = state.contexts) : law.Reaches scope state after := by
  refine ⟨fun _ => ⟨.of_eq hcalls hroots, hcalls⟩, hstep, hstate.of_step hstep hinv ?_ ?_⟩
  · rw [hroots]
    exact List.Subset.refl _
  · rw [hcalls]

/-- An object changes at the end, and stays of its kind. -/
theorem Reaches.amend (hreach : law.Reaches scope state middle)
    {object : HeapObject} {change : HeapObject → HeapObject}
    (hget : middle.heap.get? ref = some object)
    (hsame : object.SameKind (change object))
    (hstep : law.step (law.held state) state (middle.amend ref change))
    (hinv : law.inv (middle.amend ref change))
    (hspares : object.payload.Spares law.binds (change object).payload) :
    law.Reaches scope state (middle.amend ref change) := by
  refine ⟨fun hbalanced => ?_, hstep, hreach.sound.amend hget hsame hinv
    (law.calls_amend hreach.sound.inv hreach.sound.calls hget hspares)⟩
  obtain ⟨hkeeps, hcalls⟩ := hreach.keeps hbalanced
  exact ⟨⟨hkeeps.calls, hkeeps.roots, hkeeps.preserved⟩, hcalls⟩

/-- Neither the store nor the roots nor the calls change. -/
theorem reaches_of_same (hstate : law.Sound state)
    (hsame : state.SameStore after) (hroots : after.roots = state.roots)
    (hcalls : after.contexts = state.contexts) :
    law.Reaches scope state after :=
  reaches_of_step hstate (law.step_same hsame) (law.inv_same hsame hstate.inv) hroots hcalls

end RefLaw

end LazyDispatch
