import LazyDispatch.Proofs.DispatchFrame
import LazyDispatch.Proofs.KindLaw

/-!
# The names of methods

Dispatch tells a method in `.Method` for which operands it was selected, and
under which name.  The names that it tells agree: each of them is empty or the
one that the method is called by.  A method that the next one is looked for from
is called by that name as well, so the names of the next method agree again.

This makes a reference law for programs that leave `.Method` alone, where no
frame changes what it has under that symbol.  What is told to a method then
lasts as long as its call: the frame is held by the call, and the names by the
frame.
-/

namespace LazyDispatch

/-! ## Programs that leave a symbol alone -/

namespace Expr

mutual

/-- Whether an expression leaves a symbol alone: no assignment in it is to the
symbol, and no formal has its name. -/
def spares (symbol : Symbol) : Expr → Bool
  | .literal _ _ | .symbol _ _ | .missing _ => true
  | .call _ head args => head.spares symbol && sparesArgs symbol args
  | .function _ _ formals body => body.spares symbol && sparesFormals symbol formals
  | .block _ exprs => sparesAll symbol exprs
  | .branch _ condition yes no =>
    condition.spares symbol && (yes.spares symbol && spares? symbol no)
  | .assign _ _ name value => decide (symbol ≠ name) && value.spares symbol

/-- The same of the arguments of a call. -/
def sparesArgs (symbol : Symbol) : List ExprArg → Bool
  | [] => true
  | ⟨_, value⟩ :: rest => value.spares symbol && sparesArgs symbol rest

/-- The same of formals with their defaults. -/
def sparesFormals (symbol : Symbol) : List Formal → Bool
  | [] => true
  | ⟨name, default⟩ :: rest =>
    decide (symbol ≠ name) && (spares? symbol default && sparesFormals symbol rest)

/-- The same of the expressions of a block. -/
def sparesAll (symbol : Symbol) : List Expr → Bool
  | [] => true
  | expr :: rest => expr.spares symbol && sparesAll symbol rest

/-- The same of an expression that may be left out. -/
def spares? (symbol : Symbol) : Option Expr → Bool
  | none => true
  | some expr => expr.spares symbol

end

variable {symbol : Symbol}

theorem sparesArgs_iff {args : List ExprArg} :
    sparesArgs symbol args = true ↔ ∀ arg ∈ args, arg.value.spares symbol = true := by
  induction args with
  | nil => simp [sparesArgs]
  | cons arg rest ih => simp [sparesArgs, ih]

theorem sparesAll_iff {exprs : List Expr} :
    sparesAll symbol exprs = true ↔ ∀ expr ∈ exprs, expr.spares symbol = true := by
  induction exprs with
  | nil => simp [sparesAll]
  | cons expr rest ih => simp [sparesAll, ih]

theorem spares?_iff {expr? : Option Expr} :
    spares? symbol expr? = true ↔ ∀ expr ∈ expr?, expr.spares symbol = true := by
  cases expr? with
  | none => simp [spares?]
  | some expr => simp [spares?]

theorem sparesFormals_iff {formals : List Formal} :
    sparesFormals symbol formals = true ↔ symbol ∉ formals.map (·.name) ∧
      ∀ expr ∈ formals.filterMap (·.default), expr.spares symbol = true := by
  induction formals with
  | nil => simp [sparesFormals]
  | cons formal rest ih =>
      obtain ⟨name, default⟩ := formal
      simp only [sparesFormals, Bool.and_eq_true, decide_eq_true_eq, ih,
        List.map_cons, List.mem_cons, not_or, and_assoc]
      cases default with
      | none => simp [spares?]
      | some expr =>
          simp only [spares?, List.filterMap_cons, List.forall_mem_cons]
          exact and_congr_right fun _ => and_left_comm

/-- An expression leaves a symbol alone if it does not bind the symbol itself,
and its parts leave it alone. -/
theorem spares_iff {expr : Expr} : expr.spares symbol = true ↔
    symbol ∉ expr.binds ∧ ∀ child ∈ expr.children, child.spares symbol = true := by
  cases expr with
  | literal site value => simp [spares, binds, children]
  | symbol site name => simp [spares, binds, children]
  | missing site => simp [spares, binds, children]
  | call site head args => simp [spares, binds, children, sparesArgs_iff]
  | function site formalsSite formals body =>
      simp only [spares, Bool.and_eq_true, sparesFormals_iff, binds, children, List.forall_mem_cons]
      exact and_left_comm
  | block site exprs => simp [spares, binds, children, sparesAll_iff]
  | branch site condition yes no => simp [spares, binds, children, spares?_iff]
  | assign site scope name value => simp [spares, binds, children]

theorem spares_withHead {call : Expr} (hcall : call.spares symbol = true)
    (site : Nat) (head : Symbol) :
    (call.withHead site head).spares symbol = true := by
  have hargs : ∀ arg ∈ call.callArgs, arg.value.spares symbol = true := by
    cases call with
    | call _ _ args => exact fun arg harg =>
        (spares_iff.mp hcall).2 _ (List.mem_cons_of_mem _ (List.mem_map.mpr ⟨arg, harg, rfl⟩))
    | _ => exact fun _ harg => nomatch harg
  simp [withHead, spares, sparesArgs_iff.mpr hargs]

theorem spares_atSite (site : Nat) (expr : Expr) :
    (expr.atSite site).spares symbol = expr.spares symbol := by
  cases expr <;> simp [atSite, spares]

end Expr

/-! ## Names in frames -/

namespace Heap

variable {heap after : Heap} {symbol : Symbol} {env ref : Ref} {told : Option (List String)}

/-- A vector of names stays if an object changes that leaves a symbol alone, or
an environment. -/
theorem exists_names_update {value : Ref} {names : List String} {more : List (Symbol × Ref)}
    (hvalue : heap.get? value = some ⟨.character names, more⟩) {change : HeapObject → HeapObject}
    (hchange : ∀ object, heap.get? ref = some object →
      object.payload.Spares (· ≠ symbol) (change object).payload ∨
        object.payload.isEnvironment = true) :
    ∃ later, (heap.update ref change).get? value = some ⟨.character names, later⟩ := by
  have hafter := get?_update hvalue ref change
  by_cases href : ref = value
  · subst href
    rw [if_pos rfl] at hafter
    rcases hchange _ hvalue with hspares | henvironment
    · generalize change ⟨.character names, more⟩ = changed at hspares hafter
      obtain ⟨payload, later⟩ := changed
      cases hspares with
      | same => exact ⟨later, hafter⟩
    · cases henvironment
  · rw [if_neg href] at hafter
    exact ⟨more, hafter⟩

/-- What a frame has under a symbol: nothing, or a vector of names. -/
inductive FrameNames (heap : Heap) (symbol : Symbol) (env : Ref) : Option (List String) → Prop
  | nothing {found : Environment} {attributes : List (Symbol × Ref)}
      (hget : heap.get? env = some ⟨.environment found, attributes⟩)
      (hfind : found.frame.find? symbol = none) : FrameNames heap symbol env none
  | names {found : Environment} {attributes more : List (Symbol × Ref)} {value : Ref}
      {names : List String} (hget : heap.get? env = some ⟨.environment found, attributes⟩)
      (hfind : found.frame.find? symbol = some (.bound value))
      (hvalue : heap.get? value = some ⟨.character names, more⟩) :
      FrameNames heap symbol env (some names)

namespace FrameNames

theorem resolves (hnames : heap.FrameNames symbol env told) :
    heap.Resolves env := by
  cases hnames with
  | nothing hget _ => exact ⟨_, hget⟩
  | names hget _ _ => exact ⟨_, hget⟩

theorem eq_some (hnames : heap.FrameNames symbol env told) {found : Environment}
    {attributes more : List (Symbol × Ref)} {value : Ref} {names : List String}
    (hget : heap.get? env = some ⟨.environment found, attributes⟩)
    (hfind : found.frame.find? symbol = some (.bound value))
    (hvalue : heap.get? value = some ⟨.character names, more⟩) :
    told = some names := by
  cases hnames with
  | nothing hother hnone =>
      cases hget.symm.trans hother
      cases hnone.symm.trans hfind
  | names hother hbound hfound =>
      cases hget.symm.trans hother
      cases hbound.symm.trans hfind
      cases hfound.symm.trans hvalue
      rfl

/-- Names stay where everything stays that is reached from the frame. -/
theorem of_reachable (hnames : heap.FrameNames symbol env told)
    (hkept : ∀ {ref object}, heap.Reachable [env] ref.address →
      heap.get? ref = some object → after.get? ref = some object) :
    after.FrameNames symbol env told := by
  have hroot : ∀ {object}, heap.get? env = some object → heap.Reachable [env] env.address :=
    fun hget => .root (List.mem_singleton.mpr rfl) hget
  cases hnames with
  | nothing hget hfind => exact .nothing (hkept (hroot hget) hget) hfind
  | @names found attributes more value names hget hfind hvalue =>
      have hedge : value ∈ HeapObject.edges ⟨.environment found, attributes⟩ :=
        List.mem_append_right _ (List.mem_append_right _
          (List.mem_filterMap.mpr ⟨_, mem_of_lookup hfind, rfl⟩))
      exact .names (hkept (hroot hget) hget) hfind
        (hkept (.edge (hroot hget) (get?_eq_some_iff.mp hget) hedge hvalue) hvalue)

/-- Names stay if an object changes that leaves the symbol alone, or another
environment. -/
theorem update (hnames : heap.FrameNames symbol env told)
    {change : HeapObject → HeapObject}
    (hchange : ∀ object, heap.get? ref = some object →
      object.payload.Spares (· ≠ symbol) (change object).payload ∨
      ref ≠ env ∧ object.payload.isEnvironment = true) :
    (heap.update ref change).FrameNames symbol env told := by
  have hframe : ∀ {found attributes}, heap.get? env = some ⟨.environment found, attributes⟩ →
      ∃ later more, (heap.update ref change).get? env = some ⟨.environment later, more⟩ ∧
        later.frame.find? symbol = found.frame.find? symbol := by
    intro found attributes hget
    have hafter := get?_update hget ref change
    by_cases href : ref = env
    · subst href
      rw [if_pos rfl] at hafter
      rcases hchange _ hget with hspares | ⟨hne, -⟩
      · generalize change ⟨.environment found, attributes⟩ = changed at hspares hafter
        obtain ⟨payload, more⟩ := changed
        cases hspares with
        | same => exact ⟨found, more, hafter, rfl⟩
        | frame _ frame hframe => exact ⟨_, more, hafter, hframe symbol fun hne => hne rfl⟩
      · exact absurd rfl hne
    · rw [if_neg href] at hafter
      exact ⟨found, attributes, hafter, rfl⟩
  cases hnames with
  | nothing hget hfind =>
      obtain ⟨later, more, hlater, hsame⟩ := hframe hget
      exact .nothing hlater (hsame.trans hfind)
  | names hget hfind hvalue =>
      obtain ⟨later, more, hlater, hsame⟩ := hframe hget
      obtain ⟨attributes, hfound⟩ := exists_names_update hvalue fun object hobject =>
        (hchange object hobject).imp_right And.right
      exact .names hlater (hsame.trans hfind) hfound

end FrameNames

end Heap

/-! ## States in which frames keep names -/

namespace Interpreter

variable {env : Ref}

variable {spared : Symbol} {state middle after : Interpreter} {held more : List Ref} {ref : Ref}
  {object : HeapObject}

/-- A state in which no object binds a symbol, which is that of `.Method`.  No
methods are cached. -/
structure Spared (spared : Symbol) (state : Interpreter) : Prop where
  heap : state.heap.Coherent
  objects : ∀ {ref object}, state.heap.get? ref = some object →
    object.payload.Meets (fun _ _ => True) True (·.spares spared = true) state.reserved.dots
  cache : state.cache = .empty
  method : state.reserved.dotMethod = spared
  name : state.naming.symbols.name? spared = some ".Method"
  distinct : state.reserved.dispatchSymbols.Nodup
  deferred : state.reserved.deferredDefault ≠ spared

/-- Frames that are held keep what they have under a symbol, and vectors of
names that are held stay. -/
structure KeepsNames (spared : Symbol) (held : List Ref)
    (state after : Interpreter) : Prop where
  reserved : after.reserved = state.reserved
  symbols : state.naming.symbols.Grows after.naming.symbols
  frames : ∀ {env told}, env ∈ held → state.heap.FrameNames spared env told →
    after.heap.FrameNames spared env told
  names : ∀ {ref names attributes}, ref ∈ held →
    state.heap.get? ref = some ⟨.character names, attributes⟩ →
    ∃ later, after.heap.get? ref = some ⟨.character names, later⟩

namespace KeepsNames

theorem refl (spared : Symbol) (held : List Ref) (state : Interpreter) :
    state.KeepsNames spared held state :=
  ⟨rfl, List.prefix_rfl, fun _ hnames => hnames, fun _ hget => ⟨_, hget⟩⟩

theorem trans (hfirst : state.KeepsNames spared held middle)
    (hsecond : middle.KeepsNames spared held after) :
    state.KeepsNames spared held after := by
  refine ⟨hsecond.reserved.trans hfirst.reserved, hfirst.symbols.trans hsecond.symbols,
    fun hheld hnames => hsecond.frames hheld (hfirst.frames hheld hnames), fun hheld hget => ?_⟩
  obtain ⟨_, hmiddle⟩ := hfirst.names hheld hget
  exact hsecond.names hheld hmiddle

theorem mono (hkeeps : state.KeepsNames spared more after) (hmore : held ⊆ more)
    :
    state.KeepsNames spared held after := by
  refine ⟨hkeeps.reserved, hkeeps.symbols, ?_, ?_⟩
  · intro _ _ hheld
    exact hkeeps.frames (hmore hheld)
  · intro _ _ _ hheld
    exact hkeeps.names (hmore hheld)

/-- Only the heap changes, and what is reached from what is held stays. -/
theorem of_reachable {heap : Heap}
    (hkept : ∀ {ref object}, state.heap.Reachable held ref.address →
      state.heap.get? ref = some object → heap.get? ref = some object) :
    state.KeepsNames spared held { state with heap } := by
  refine ⟨rfl, List.prefix_rfl, ?_, fun hheld hget => ⟨_, hkept (.root hheld hget) hget⟩⟩
  intro env _ hheld hnames
  have hroots := List.cons_subset.mpr ⟨hheld, List.nil_subset _⟩
  exact hnames.of_reachable fun hreach => hkept (hreach.mono hroots)

/-- An object changes at the end that leaves the symbol alone, or an environment
that was not there. -/
theorem amend (hkeeps : state.KeepsNames spared held after)
    {change : HeapObject → HeapObject}
    (hchange : ∀ found, after.heap.get? ref = some found →
      found.payload.Spares (· ≠ spared) (change found).payload ∨
      state.heap.get? ref = none ∧ found.payload.isEnvironment = true) :
    state.KeepsNames spared held (after.amend ref change) := by
  refine ⟨hkeeps.reserved, hkeeps.symbols, fun hheld hnames => ?_, fun hheld hget => ?_⟩
  · refine (hkeeps.frames hheld hnames).update fun found hfound =>
      (hchange found hfound).imp_right ?_
    intro hnew
    refine ⟨fun hsame => ?_, hnew.2⟩
    subst hsame
    obtain ⟨object, hget⟩ := hnames.resolves
    cases hnew.1.symm.trans hget
  · obtain ⟨later, hlater⟩ := hkeeps.names hheld hget
    exact Heap.exists_names_update hlater fun found hfound =>
      (hchange found hfound).imp_right And.right

end KeepsNames

/-- A change of the heap alone. -/
theorem Spared.of_heap (hstate : state.Spared spared) {heap : Heap} (hheap : heap.Coherent)
    (hobjects : ∀ {ref object}, heap.get? ref = some object →
      object.payload.Meets (fun _ _ => True) True (·.spares spared = true) state.reserved.dots) :
    Spared spared { state with heap } :=
  ⟨hheap, hobjects, hstate.cache, hstate.method, hstate.name, hstate.distinct, hstate.deferred⟩

/-- One object changes. -/
theorem Spared.amend (hstate : state.Spared spared)
    (hget : state.heap.get? ref = some object)
    {change : HeapObject → HeapObject} (hobject : (change object).payload.Meets
    (fun _ _ => True) True (·.spares spared = true) state.reserved.dots) :
    (state.amend ref change).Spared spared := by
  refine hstate.of_heap (hstate.heap.update ref change) fun hother => ?_
  obtain ⟨before, hbefore, rfl⟩ := Heap.get?_of_update hother
  split
  · next hsame =>
      subst hsame
      cases hget.symm.trans hbefore
      exact hobject
  · exact hstate.objects hbefore

/-! ## Calls in progress -/

/-- What a call that works in an environment finds there under a symbol:
nothing, or names that agree on what it is called by. -/
def NamesAgree (spared : Symbol) (state : Interpreter) (call : Expr) (env : Ref)
    : Prop :=
  ∃ told, state.heap.FrameNames spared env told ∧ ∀ names ∈ told, ∃ head name,
    call.callHead? = some head ∧ state.naming.symbols.name? head = some name ∧ SoleName name names

/-- The closure calls in progress work in different environments, and what they
are told agrees. -/
structure MethodsNamed (spared : Symbol) (state : Interpreter) : Prop where
  distinct : state.contexts.Pairwise fun upper lower =>
    ∀ env, upper.worksIn env = true → lower.worksIn env = false
  agree : ∀ context ∈ state.contexts, ∀ env, context.worksIn env = true →
    state.NamesAgree spared context.call env

/-- A method in progress is told that it was called by its head. -/
def Resumes (spared : Symbol) (state : Interpreter)
    (method : Eval.MethodInProgress) : Prop :=
  (∃ context ∈ state.contexts, context.worksIn method.env = true) ∧
    ∃ told, state.heap.FrameNames spared method.env told ∧
    ∀ names ∈ told, SoleName method.head names

theorem mem_held_of_worksIn {context : CallContext}
    (hcontext : context ∈ state.contexts) (hworks : context.worksIn env = true)
    : env ∈ state.held := by
  simp only [CallContext.worksIn, Bool.and_eq_true, decide_eq_true_eq] at hworks
  refine List.mem_append_right _ (List.mem_flatMap.mpr ⟨context, hcontext, ?_⟩)
  simp [CallContext.edges, hworks.2]

theorem NamesAgree.grows {call : Expr} {told : Option (List String)}
    (hgrows : state.naming.symbols.Grows after.naming.symbols)
    (hframe : after.heap.FrameNames spared env told)
    (hnames : ∀ names ∈ told, ∃ head name, call.callHead? = some head ∧
      state.naming.symbols.name? head = some name ∧ SoleName name names) :
    after.NamesAgree spared call env := by
  refine ⟨told, hframe, fun names hmem => ?_⟩
  obtain ⟨head, name, hhead, hname, hsole⟩ := hnames names hmem
  exact ⟨head, name, hhead, hgrows.name? hname, hsole⟩

namespace MethodsNamed

variable {context : CallContext}

variable (hnamed : state.MethodsNamed spared)

include hnamed

/-- The calls that remain are told what they were told before. -/
theorem step (hkeeps : state.KeepsNames spared state.held after)
    (hcalls : after.contexts <:+ state.contexts) :
    after.MethodsNamed spared := by
  refine ⟨hnamed.distinct.sublist hcalls.sublist, fun context hcontext env hworks => ?_⟩
  have hbefore := hcalls.subset hcontext
  obtain ⟨told, hframe, hnames⟩ := hnamed.agree context hbefore env hworks
  exact .grows hkeeps.symbols (hkeeps.frames (mem_held_of_worksIn hbefore hworks) hframe) hnames

theorem begin (hplace : context.kind = .internal ∨ context.env = none) :
    MethodsNamed spared { state with contexts := context :: state.contexts } := by
  have hnowhere := CallContext.worksIn_of_begun hplace
  refine ⟨List.pairwise_cons.mpr ⟨fun _ _ env hworks => ?_, hnamed.distinct⟩,
    List.forall_mem_cons.mpr ⟨fun env hworks => ?_, hnamed.agree⟩⟩
  all_goals
    rw [hnowhere env] at hworks
    cases hworks

/-- A call comes to work in a new environment. -/
theorem enter (hstate : state.Spared spared)
    {rest : List CallContext} {parent : Option Ref} {env : Ref} {heap : Heap}
    (hcons : state.contexts = context :: rest)
    (hok : state.heap.allocate { payload := .environment (.inside parent) }
      state.rootRefs = .ok env heap)
    (hkeeps : state.KeepsNames spared state.held { state with heap }) :
    (Interpreter.workingIn { state with heap } env).MethodsNamed spared := by
  have hafter := hnamed.step hkeeps List.suffix_rfl
  have hsame : (Interpreter.workingIn { state with heap } env).contexts =
      { context with env := some env } :: rest := by
    simp only [Interpreter.workingIn, hcons]
  have hdistinct := hafter.distinct
  have hagree := hafter.agree
  rw [show Interpreter.contexts { state with heap } =
    context :: rest from hcons] at hdistinct hagree
  have hplace : ∀ {other : Ref}, CallContext.worksIn other { context with env := some env } = true →
      other = env := by
    intro other hworks
    simp only [CallContext.worksIn, Bool.and_eq_true, decide_eq_true_eq,
      Option.some.injEq] at hworks
    exact hworks.2.symm
  constructor
  · rw [hsame]
    refine List.pairwise_cons.mpr ⟨fun lower hlower other hworks => ?_,
      (List.pairwise_cons.mp hdistinct).2⟩
    cases hplace hworks
    -- The call further out works in an environment that was there before.
    by_contra hboth
    have hlower' : lower ∈ state.contexts := hcons ▸ List.mem_cons_of_mem _ hlower
    obtain ⟨told, hframe, -⟩ := hnamed.agree lower hlower' env (Bool.eq_true_of_not_eq_false hboth)
    obtain ⟨object, hget⟩ := hframe.resolves
    cases (Heap.get?_fresh hstate.heap hok).symm.trans hget
  · rw [hsame]
    refine List.forall_mem_cons.mpr ⟨fun other hworks => ?_, fun lower hlower =>
      hagree lower (List.mem_cons_of_mem _ hlower)⟩
    cases hplace hworks
    refine ⟨none, .nothing (Heap.get?_allocate_self hstate.heap hok) rfl, fun names htold => ?_⟩
    cases htold

/-- The innermost call gets other bindings that tell it names that agree. -/
theorem rebind {rest : List CallContext} {env : Ref} {found : Environment}
    {attributes : List (Symbol × Ref)} (frame : Frame) (hcons : state.contexts = context :: rest)
    (hworks : context.worksIn env = true)
    (hget : state.heap.get? env = some ⟨.environment found, attributes⟩)
    (hagree : (state.amend env (.become (.environment ⟨found.parent, frame⟩))).NamesAgree spared
      context.call env) :
    (state.amend env (.become (.environment ⟨found.parent, frame⟩))).MethodsNamed spared := by
  refine ⟨hnamed.distinct, fun other hother place hplace => ?_⟩
  have hmem : other ∈ context :: rest := hcons ▸ hother
  by_cases hsame : env = place
  · subst hsame
    rcases List.mem_cons.mp hmem with rfl | hrest
    · exact hagree
    · -- No other call works there.
      have hdistinct := hnamed.distinct
      rw [hcons] at hdistinct
      cases hplace.symm.trans ((List.pairwise_cons.mp hdistinct).1 other hrest env hworks)
  · obtain ⟨told, hframe, hnames⟩ := hnamed.agree other hother place hplace
    refine ⟨told, hframe.update fun object hobject => Or.inr ⟨hsame, ?_⟩, hnames⟩
    cases hget.symm.trans hobject
    rfl

end MethodsNamed

/-- The variables of a dispatch tell names that agree, unless the frame has
names already. -/
theorem namesAgree_bindAbsent {begun : Interpreter} (hbegun : begun.Spared spared)
    (hkeeps : begun.KeepsNames spared begun.held state) {call : Expr}
    {found : Environment} {attributes : List (Symbol × Ref)}
    (hget : state.heap.get? env = some ⟨.environment found, attributes⟩)
    (hagree : state.NamesAgree spared call env) {vars : DispatchVars} {head : Symbol}
    {name : String} {names : List String} {more : List (Symbol × Ref)}
    (hhead : call.callHead? = some head) (hname : begun.naming.symbols.name? head = some name)
    (hheld : vars.method ∈ begun.held)
    (hvalue : begun.heap.get? vars.method = some ⟨.character names, more⟩)
    (hsole : SoleName name names) :
    (state.amend env (.become (.environment ⟨found.parent,
      found.frame.bindAbsent (vars.bindings begun.reserved)⟩))).NamesAgree spared call env := by
  have hframe := Heap.get?_update hget env (.become (.environment ⟨found.parent,
    found.frame.bindAbsent (vars.bindings begun.reserved)⟩))
  rw [if_pos rfl] at hframe
  -- A vector of names is not the frame.
  have hvector : ∀ {value texts later}, state.heap.get? value = some ⟨.character texts, later⟩ →
      (state.heap.update env (.become (.environment ⟨found.parent,
        found.frame.bindAbsent (vars.bindings begun.reserved)⟩))).get? value =
          some ⟨.character texts, later⟩ := by
    intro value texts later hfound
    rw [Heap.get?_update hfound, if_neg]
    intro hsame
    subst hsame
    cases hget.symm.trans hfound
  obtain ⟨told, htold, hnames⟩ := hagree
  cases htold with
  | nothing hother hnone =>
      cases hget.symm.trans hother
      obtain ⟨later, hlater⟩ := hkeeps.names hheld hvalue
      refine ⟨some names, .names hframe (Frame.find?_bindAbsent_of_mem hbegun.distinct ?_ hnone)
        (hvector hlater), fun texts htexts => ?_⟩
      · rw [← hbegun.method]
        simp [DispatchVars.bindings]
      · cases htexts
        exact ⟨head, name, hhead, hkeeps.symbols.name? hname, hsole⟩
  | names hother hfind hfound =>
      cases hget.symm.trans hother
      exact ⟨_, .names hframe (Frame.find?_bindAbsent_of_some hfind) (hvector hfound), hnames⟩

/-- A method in progress was called by the name of its call. -/
theorem MethodsNamed.resumes (hnamed : state.MethodsNamed spared)
    {method : Eval.MethodInProgress} {context : CallContext} {head : Symbol}
    (hcontext : state.functionWithEnv? method.env = some context)
    (hhead : context.call.callHead? = some head)
    (hname : method.head = state.symbolName head) :
    state.Resumes spared method := by
  have hmem : context ∈ state.contexts := List.mem_of_find?_eq_some hcontext
  have hworks : context.worksIn method.env = true :=
    List.find?_some (p := CallContext.worksIn method.env) hcontext
  obtain ⟨told, hframe, hnames⟩ := hnamed.agree context hmem method.env hworks
  refine ⟨⟨context, hmem, hworks⟩, told, hframe, fun names htold => ?_⟩
  obtain ⟨other, name, hother, hfound, hsole⟩ := hnames names htold
  cases hhead.symm.trans hother
  rw [hname, Interpreter.symbolName, hfound]
  exact hsole

end Interpreter

/-! ## The law -/

/-- Whether a reference is among those that are held, if that is asked. -/
def Custody.Covers : Custody → Ref → Prop
  | .now, _ => True
  | .held refs, ref => ref ∈ refs

/-- Nothing is asked of references, and so nothing of those that only calls in
progress hold. -/
theorem nameLaw_shallow :
    true = false → Custody → Kind → Interpreter → Ref → True :=
  fun _ _ _ _ _ => trivial

open Interpreter in
/-- Programs leave a symbol alone, frames keep what they have under it, and the
names that they have there agree. -/
def nameLaw (spared : Symbol) : RefLaw where
  inv state := state.Spared spared
  step held state after := state.KeepsNames spared held after
  has _ _ _ _ := True
  fault _ _ := True
  expr expr := expr.spares spared = true
  loose := True
  balanced := True
  stalls := False
  binds symbol := symbol ≠ spared
  calls state := state.MethodsNamed spared
  tells name names := SoleName name names
  named custody name state ref := custody.Covers ref ∧ ∃ names attributes,
    state.heap.get? ref = some ⟨.character names, attributes⟩ ∧ SoleName name names
  resumes state method := state.Resumes spared method
  names := True
  deep := true
  shallow := nameLaw_shallow
  holds hstate _ hget := hstate.objects hget
  expr_children hexpr hchild := (Expr.spares_iff.mp hexpr).2 _ hchild
  expr_symbol _ _ := rfl
  expr_withHead site head hcall := Expr.spares_withHead hcall site head
  expr_atSite site hnode := (Expr.spares_atSite site _).trans hnode
  inv_same hsame hstate := by
    obtain ⟨hheap, hobjects, hcache, hmethod, hname, hdistinct, hdeferred⟩ := hstate
    refine ⟨?_, ?_, hsame.cache.trans hcache, ?_, hsame.names.name? hname, ?_, ?_⟩
    · rw [hsame.heap]
      exact hheap
    · rw [hsame.heap, hsame.reserved]
      exact hobjects
    all_goals
      rw [hsame.reserved]
      assumption
  step_same hsame := by
    refine ⟨hsame.reserved, hsame.names, ?_, ?_⟩
    · rw [hsame.heap]
      exact fun _ hnames => hnames
    · rw [hsame.heap]
      exact fun _ hget => ⟨_, hget⟩
  step_trans hfirst hsecond := hfirst.trans hsecond
  step_mono hmore hstep := hstep.mono hmore
  unbalanced hfree := absurd trivial hfree
  on_allocate hstate hheld hobject hok := by
    refine ⟨.of_reachable fun hreach hget => Heap.get?_allocate_of_reachable hstate.heap hok
      (hreach.mono (List.subset_append_of_subset_left _ hheld)) hget,
      hstate.of_heap (HeapCall.perform_coherent hstate.heap (Heap.perform_allocate hok))
        fun hget => ?_, fun _ _ => trivial⟩
    rcases Heap.get?_of_allocate hstate.heap hok hget with ⟨-, rfl⟩ | hold
    · exact hobject.payload
    · exact hstate.objects hold
  on_collect hstate hheld :=
    ⟨.of_reachable fun hreach hget => Heap.get?_collect_of_reachable hstate.heap (hreach.mono hheld)
      hget, hstate.of_heap (hstate.heap.collect _) fun hget =>
        hstate.objects (Heap.get?_of_collect hstate.heap hget)⟩
  on_complete name value _ _ _ _ hstep := hstep.amend fun found _ => Or.inl (by
    rw [HeapObject.payload_updateAttribute]
    exact .same _)
  on_frame frame hstate _ hok hstep hafter hget _ _ := by
    refine ⟨hstep.amend fun found hfound => Or.inr ⟨Heap.get?_fresh hstate.heap hok, ?_⟩,
      hafter.amend hget ⟨fun _ _ => trivial, fun _ _ => ⟨fun _ _ => trivial, fun _ => trivial⟩⟩⟩
    cases hget.symm.trans hfound
    rfl
  inv_frame frame hstate hget _ _ :=
    hstate.amend hget ⟨fun _ _ => trivial, fun _ _ => ⟨fun _ _ => trivial, fun _ => trivial⟩⟩
  step_frame frame _ hget _ hframe := by
    refine (KeepsNames.refl _ _ _).amend fun found hfound => Or.inl ?_
    cases hget.symm.trans hfound
    exact .frame _ frame hframe
  inv_attribute name value hstate hget _ := by
    refine hstate.amend hget ?_
    rw [HeapObject.payload_updateAttribute]
    exact hstate.objects hget
  step_class cls _ := (KeepsNames.refl _ _ _).amend fun found _ => Or.inl (by
    rw [HeapObject.payload_updateAttribute]
    exact .same _)
  inv_evaluate hstate hget hexpr _ := hstate.amend hget ⟨hexpr, trivial⟩
  on_settle {held state ref deferred env _ _ _ _} settled _ hget hstep hafter
    hformer _ hmeets _ := by
    refine ⟨?_, hafter.amend hformer hmeets⟩
    have hbegun : state.KeepsNames spared held (state.amend ref
        (.become (.promise (.underEvaluation deferred env)))) := by
      refine (KeepsNames.refl _ _ _).amend fun found hfound => Or.inl ?_
      cases hget.symm.trans hfound
      exact .promise _ _
    refine (hbegun.trans (hstep.mono (List.subset_cons_self _ _))).amend
      fun found hfound => Or.inl ?_
    cases hformer.symm.trans hfound
    exact .promise _ _
  expr_binds hnode hsymbol hsame := (Expr.spares_iff.mp hnode).1 (hsame ▸ hsymbol)
  calls_step _ hcalls hstep _ hsuffix := hcalls.step hstep hsuffix
  calls_amend _ hcalls hget hspares := by
    refine hcalls.step ((KeepsNames.refl _ _ _).amend fun found hfound => Or.inl ?_) List.suffix_rfl
    cases hget.symm.trans hfound
    exact hspares
  calls_begin hcalls hplace := hcalls.begin hplace
  calls_enter hstate hcalls _ hcons _ hok hstep := hcalls.enter hstate hcons hok hstep
  calls_supply {begun state context rest env found attributes supplied} hbegun _ hcalls hstep hcons
      hkind henv hget hgiven := by
    have hworks : context.worksIn env = true := by simp [CallContext.worksIn, hkind, henv]
    have hagree := hcalls.agree context (hcons ▸ List.mem_cons_self) env hworks
    refine hcalls.rebind _ hcons hworks hget ?_
    rcases hgiven trivial with
      rfl | ⟨vars, head, name, rfl, hhead, hname, hheld, names, more, hvalue, hsole⟩
    · obtain ⟨told, hframe, hnames⟩ := hagree
      refine ⟨told, hframe.update fun object hobject => Or.inl ?_, hnames⟩
      cases hget.symm.trans hobject
      exact .same _
    · exact namesAgree_bindAbsent hbegun hstep hget hagree hhead hname hheld hvalue hsole
  resumes_start _ hcalls hcontext hhead hname := hcalls.resumes hcontext hhead hname
  resumes_step _ hstep hcalls hresumes := by
    obtain ⟨⟨context, hcontext, hworks⟩, told, hframe, hnames⟩ := hresumes
    exact ⟨⟨context, hcalls ▸ hcontext, hworks⟩, told,
      hstep.frames (mem_held_of_worksIn hcontext hworks) hframe, hnames⟩
  resumes_names hstate hresumes hget hfind hvalue := by
    obtain ⟨-, told, hframe, hnames⟩ := hresumes
    rw [hstate.method] at hfind
    exact hnames _ (hframe.eq_some hget hfind hvalue)
  tells_names hname hmem honly := ⟨hname, hmem, honly⟩
  tells_next hsole hname := hsole.next hname
  named_root hnamed hheld := ⟨hheld, hnamed.2⟩
  named_mono hmore hnamed := ⟨hmore hnamed.1, hnamed.2⟩
  named_step _ hstep hnamed := by
    obtain ⟨hheld, names, attributes, hget, hsole⟩ := hnamed
    obtain ⟨later, hlater⟩ := hstep.names hheld hget
    exact ⟨hheld, names, later, hlater, hsole⟩
  named_same hsame hnamed := by
    rw [hsame.heap]
    exact hnamed
  named_allocate hstate hok hsole :=
    ⟨trivial, _, [], Heap.get?_allocate_self hstate.heap hok, hsole⟩

end LazyDispatch
