import LazyDispatch.Proofs.Steps

/-!
# Laws of evaluation

Evaluation touches the heap in few ways: it allocates, collects, binds variables
in environments, sets the class of environments, completes objects that it has
just allocated, and evaluates promises.  A *heap law* is a relation between
states that all of these respect, given that certain references are among the
roots throughout.

Beside the heap, evaluation keeps a discipline on the calls in progress and on
the root stack.  There are three degrees of it.  A *settled* step leaves both as
they were.  A *protecting* step may leave more roots behind, which whoever
called it drops.  An *entering* step may note the environment that the innermost
call works in.

From any heap law it follows that the primitive steps keep to the law and to
their degree of discipline; in particular `withRoots` settles a protecting step.
-/

namespace LazyDispatch

/-! ## The discipline of calls and roots -/

/-- How far a step may depart from the calls and the roots that it found. -/
inductive Scope where
  | settled
  | protecting
  | entering

namespace Scope

/-- What a step may do to the calls in progress. -/
def Calls : Scope → List CallContext → List CallContext → Prop
  | entering, before, after =>
    after.tail = before.tail ∧ after.map (·.rootDepth) = before.map (·.rootDepth)
  | _, before, after => after = before

/-- What a step may do to the root stack. -/
def Roots : Scope → Array RootEntry → Array RootEntry → Prop
  | protecting, before, after => before.toList <+: after.toList
  | _, before, after => after = before

end Scope

/-- A step keeps the calls and the roots up to a scope, and the preserved
references. -/
structure Interpreter.Keeps (scope : Scope) (state after : Interpreter) :
    Prop where
  calls : scope.Calls state.contexts after.contexts
  roots : scope.Roots state.roots.entries after.roots.entries
  preserved : after.roots.preserved = state.roots.preserved

namespace Interpreter.Keeps

variable {scope : Scope} {first second third : Interpreter}

/-- Nothing happened to the calls and the roots. -/
theorem of_eq (hcalls : second.contexts = first.contexts)
    (hroots : second.roots = first.roots) :
    first.Keeps scope second := by
  refine ⟨?_, ?_, by rw [hroots]⟩
  · rw [hcalls]
    cases scope with
    | entering => exact ⟨rfl, rfl⟩
    | _ => rfl
  · rw [hroots]
    cases scope with
    | protecting => exact List.prefix_refl _
    | _ => rfl

theorem trans (hfirst : first.Keeps scope second)
    (hsecond : second.Keeps scope third) :
    first.Keeps scope third := by
  refine ⟨?_, ?_, hsecond.preserved.trans hfirst.preserved⟩
  · have hbefore := hfirst.calls
    have hafter := hsecond.calls
    cases scope with
    | entering => exact ⟨hafter.1.trans hbefore.1, hafter.2.trans hbefore.2⟩
    | settled => exact Eq.trans hafter hbefore
    | protecting => exact Eq.trans hafter hbefore
  · have hbefore := hfirst.roots
    have hafter := hsecond.roots
    cases scope with
    | protecting => exact List.IsPrefix.trans hbefore hafter
    | settled => exact Eq.trans hafter hbefore
    | entering => exact Eq.trans hafter hbefore

/-- Whatever is settled keeps to every scope. -/
theorem of_settled (hkeeps : first.Keeps .settled second) :
    first.Keeps scope second := by
  obtain ⟨hcalls, hroots, hpreserved⟩ := hkeeps
  refine ⟨?_, ?_, hpreserved⟩
  · rw [show second.contexts = first.contexts from hcalls]
    cases scope with
    | entering => exact ⟨rfl, rfl⟩
    | _ => rfl
  · rw [show second.roots.entries = first.roots.entries from hroots]
    cases scope with
    | protecting => exact List.prefix_refl _
    | _ => rfl

/-- No root is lost. -/
theorem edges_subset (hkeeps : first.Keeps scope second) :
    first.roots.edges ⊆ second.roots.edges := by
  have hentries : first.roots.entries.toList ⊆ second.roots.entries.toList := by
    have hroots := hkeeps.roots
    cases scope with
    | protecting => exact List.IsPrefix.subset hroots
    | settled => exact (congrArg Array.toList hroots).symm ▸ List.Subset.refl _
    | entering => exact (congrArg Array.toList hroots).symm ▸ List.Subset.refl _
  unfold RootStack.edges
  rw [hkeeps.preserved]
  exact List.append_subset.mpr ⟨List.subset_append_of_subset_left _ (List.map_subset _ hentries),
    List.subset_append_right _ _⟩

/-- The innermost call is still the one that was begun. -/
theorem exists_innermost {state after : Interpreter} {context : CallContext}
    (hkeeps : Interpreter.Keeps .entering
      { state with contexts := context :: state.contexts } after) :
    ∃ innermost, after.contexts = innermost :: state.contexts ∧
      innermost.rootDepth = context.rootDepth := by
  obtain ⟨htail, hdepths⟩ := hkeeps.calls
  cases hcalls : after.contexts with
  | nil =>
      rw [hcalls] at hdepths
      cases hdepths
  | cons innermost rest =>
      rw [hcalls] at htail hdepths
      cases htail
      exact ⟨innermost, rfl, (List.cons.inj hdepths).1⟩

end Interpreter.Keeps

/-- The faults that leave the discipline of calls and roots intact. -/
def Fault.Disciplined : Fault → Prop
  | .contextUnderflow | .truncateAboveDepth _ _ => False
  | _ => True

theorem Fault.OfReading.disciplined {cause : Fault} (hreading : cause.OfReading)
    :
    cause.Disciplined := by
  cases cause <;> trivial

/-- The faults of a heap that cannot allocate. -/
def Fault.OfHeap : Fault → Prop
  | .unknownSizeClass _ | .outOfMemory _ _ | .unaddressableCells _ | .emptyFreeList
  | .liveCellInFreeList _ => True
  | _ => False

theorem Fault.OfHeap.disciplined {cause : Fault} (hheap : cause.OfHeap) :
    cause.Disciplined := by
  cases cause <;> trivial

/-- A pool that may not grow, or whose free list is broken, says so. -/
theorem Heap.ofHeap_of_allocate {heap after : Heap} {object : HeapObject}
    {roots : List Ref} {cause : Fault}
    (herror : heap.allocate object roots = .error cause after) :
    cause.OfHeap := by
  have hgrow : ∀ {pool : Pool} {limit}, pool.growFault? limit = some cause → cause.OfHeap := by
    intro pool limit hfault
    unfold Pool.growFault? at hfault
    split at hfault
    · cases hfault
      trivial
    · split at hfault <;> cases hfault
      trivial
  have hnext : ∀ {pool : Pool}, pool.nextRef = .error cause → cause.OfHeap := by
    intro pool hfault
    unfold Pool.nextRef at hfault
    split at hfault
    · cases hfault
      trivial
    · split at hfault <;> cases hfault
      trivial
  unfold Heap.allocate Heap.allocateIn at herror
  split at herror
  · split at herror
    · unfold Heap.place at herror
      split at herror <;> cases herror
      · trivial
      · next hpool =>
          obtain ⟨pool, -, hfault⟩ := Option.map_eq_some_iff.mp hpool
          exact hnext hfault
    · next hroom =>
        cases herror
        unfold Heap.makeRoom at hroom
        dsimp only at hroom
        split at hroom
        · split at hroom
          · split at hroom <;> cases hroom
            next hpool =>
              obtain ⟨pool, -, hfault⟩ := Option.bind_eq_some_iff.mp hpool
              exact hgrow hfault
          · cases hroom
        · cases hroom
  · cases herror
    trivial

/-! ## Heap laws -/

namespace SymbolStore

variable {store after : SymbolStore} {symbol : Symbol} {name : String}

/-- **What interning does:** a name that the map has is found, and a new one is
added at the end. -/
theorem intern_cases (store : SymbolStore) (name : String) :
    (∃ symbol, store.find? name = some symbol ∧ store.intern name = (symbol, store)) ∨
      (store.find? name = none ∧ (store.intern name).1 = ⟨store.size⟩ ∧
        (store.intern name).2 = ⟨store.names.push name,
          putEntry name ⟨store.size⟩ store.mappings⟩) := by
  unfold intern
  cases store.find? name with
  | some symbol => exact Or.inl ⟨symbol, rfl, rfl⟩
  | none => exact Or.inr ⟨rfl, rfl, rfl⟩

/-- The names that stood before an interned one still stand in their places. -/
theorem extends_intern (store : SymbolStore) (name : String) :
    store.names.toList <+: (store.intern name).2.names.toList := by
  rcases store.intern_cases name with ⟨symbol, -, hsame⟩ | ⟨-, -, hadded⟩
  · have hnames : (store.intern name).2.names = store.names :=
      congrArg (·.2.names) hsame
    exact hnames ▸ List.prefix_rfl
  · rw [hadded, Array.toList_push]
    exact List.prefix_append _ _

/-- A symbol keeps its name. -/
theorem name?_of_extends (hextends : store.names.toList <+: after.names.toList)
    (hname : store.name? symbol = some name) :
    after.name? symbol = some name := by
  obtain ⟨more, hmore⟩ := hextends
  rw [SymbolStore.name?, ← Array.getElem?_toList] at hname ⊢
  obtain ⟨hlt, -⟩ := List.getElem?_eq_some_iff.mp hname
  rw [← hmore, List.getElem?_append_left hlt]
  exact hname

/-- An interned name is the name of its symbol. -/
theorem Consistent.name?_intern (hstore : store.Consistent) (name : String) :
    (store.intern name).2.name? (store.intern name).1 = some name := by
  rcases store.intern_cases name with ⟨symbol, hfind, hsame⟩ | ⟨-, hsymbol, hadded⟩
  · rw [hsame]
    exact (hstore name symbol).mp hfind
  · rw [hsymbol, hadded]
    exact Array.getElem?_push_size

end SymbolStore

/-- A symbol table only grows at the end. -/
def SymbolTable.Grows (table after : SymbolTable) : Prop :=
  table.names.toList <+: after.names.toList

namespace SymbolTable

variable {table after : SymbolTable} {symbol : Symbol} {name : String}

theorem grows_intern (table : SymbolTable) (name : String) :
    table.Grows (table.intern name).2 :=
  table.extends_intern name

/-- An interned name is the name of its symbol. -/
theorem name?_intern (table : SymbolTable) (name : String) :
    (table.intern name).2.name? (table.intern name).1 = some name :=
  table.consistent.name?_intern name

/-- A symbol keeps its name. -/
theorem Grows.name? (hgrows : table.Grows after)
    (hname : table.name? symbol = some name) :
    after.name? symbol = some name :=
  SymbolStore.name?_of_extends hgrows hname

end SymbolTable

/-- The heap, the reserved symbols and the fixed objects stay, and names are
only added. -/
structure Interpreter.SameHeap (state after : Interpreter) : Prop where
  heap : after.heap = state.heap
  reserved : after.reserved = state.reserved
  fixed : after.fixed = state.fixed
  names : state.naming.symbols.Grows after.naming.symbols

theorem Interpreter.SameHeap.of_eq {state after : Interpreter} (hheap : after.heap = state.heap)
    (hreserved : after.reserved = state.reserved) (hfixed : after.fixed = state.fixed)
    (hnames : after.naming.symbols = state.naming.symbols) : state.SameHeap after := by
  refine ⟨hheap, hreserved, hfixed, ?_⟩
  rw [hnames]
  exact List.prefix_rfl

/-- A relation between states that everything respects that evaluation does to
the heap, while certain references are among the roots. -/
structure HeapLaw where
  step : List Ref → Interpreter → Interpreter → Prop
  /-- Only the heap, the reserved symbols, the fixed objects and the names
  matter. -/
  same : ∀ {kept state after}, state.SameHeap after → step kept state after
  trans : ∀ {kept first second third}, step kept first second → step kept second third →
    step kept first third
  mono : ∀ {kept more state after}, kept ⊆ more → step more state after → step kept state after
  allocate : ∀ {kept object state ref heap}, kept ⊆ state.rootRefs →
    state.heap.allocate object state.rootRefs = .ok ref heap → step kept state { state with heap }
  collect : ∀ {kept state}, kept ⊆ state.rootRefs →
    step kept state { state with heap := (state.heap.collect state.rootRefs).2 }
  /-- The frame of an environment changes. -/
  bind : ∀ {kept state ref env attributes} (frame : Frame),
    state.heap.get? ref = some ⟨.environment env, attributes⟩ →
    step kept state (state.amend ref (.become (.environment ⟨env.parent, frame⟩)))
  /-- The class of an environment changes. -/
  classify : ∀ {kept state ref env attributes} (cls : Option Ref),
    state.heap.get? ref = some ⟨.environment env, attributes⟩ →
    step kept state (state.amend ref (·.updateAttribute state.reserved.cls cls))
  /-- An object that was allocated on the way changes. -/
  complete : ∀ {kept object state ref heap after} (change : HeapObject → HeapObject),
    kept ⊆ state.rootRefs → state.heap.allocate object state.rootRefs = .ok ref heap →
    step kept { state with heap } after → step kept state (after.amend ref change)
  /-- A pending promise is evaluated, during which it is kept, and gets its
  value or becomes pending again. -/
  evaluate : ∀ {kept state ref expr env attributes after} (deferred : Promise),
    state.heap.get? ref = some ⟨.promise (.pending expr env), attributes⟩ →
    step (ref :: kept) (state.amend ref (.become (.promise (.underEvaluation expr env)))) after →
    (deferred = .pending expr env ∨ ∃ value, deferred = .forced expr value) →
    step kept state (after.amend ref (.become (.promise deferred)))

namespace HeapLaw

/-- What steps of a scope may do under a law. -/
def effect (law : HeapLaw) (scope : Scope) : Effect where
  step state after := state.Keeps scope after ∧ law.step state.roots.edges state after
  fault := Fault.Disciplined
  refl _ := ⟨.of_eq rfl rfl, law.same (.of_eq rfl rfl rfl rfl)⟩
  trans hfirst hsecond :=
    ⟨hfirst.1.trans hsecond.1, law.trans hfirst.2 (law.mono hfirst.1.edges_subset hsecond.2)⟩

/-- A step that keeps to a law and leaves the calls and the roots as they were. -/
abbrev Settled (law : HeapLaw) {α : Type} (action : Eval α) : Prop :=
  (law.effect .settled).Allows action

variable {law : HeapLaw} {scope : Scope} {α : Type}

theorem Settled.within {action : Eval α} (haction : law.Settled action) :
    (law.effect scope).Allows action :=
  haction.mono ⟨fun hstep => ⟨hstep.1.of_settled, hstep.2⟩, fun hfault => hfault⟩

/-- Queries keep to every law. -/
theorem reads {query : Query α} (hquery : query.Reads) :
    (law.effect scope).Allows (liftM query : Eval α) :=
  .lift hquery fun _ hreading => hreading.disciplined

/-- So do changes that leave the heap, the roots and the calls alone. -/
theorem quiet {change : Interpreter → α × Interpreter}
    (hheap : ∀ state : Interpreter, state.SameHeap (change state).2)
    (hroots : ∀ state, (change state).2.roots = state.roots)
    (hcalls : ∀ state, (change state).2.contexts = state.contexts) :
    (law.effect scope).Allows (modifyGet change : Eval α) :=
  Effect.allows_modifyGet fun state => ⟨.of_eq (hcalls state) (hroots state),
    law.same (hheap state)⟩

/-! ## Primitive steps -/

/-- Protected references are among the roots. -/
theorem edges_subset_rootRefs (state : Interpreter) :
    state.roots.edges ⊆ state.rootRefs := by
  intro ref href
  simp only [Interpreter.rootRefs, List.mem_append]
  exact Or.inl (Or.inl (Or.inr href))

theorem settled_allocate (object : HeapObject) :
    law.Settled (Eval.allocate object) := by
  intro state
  cases hheap : state.heap.allocate object state.rootRefs with
  | ok ref heap =>
      exact .of_ok (Eval.allocate_of_ok hheap)
        ⟨.of_eq rfl rfl, law.allocate (edges_subset_rootRefs state) hheap⟩
  | error cause heap =>
      exact .of_fault (Eval.allocate_of_error hheap) (Heap.ofHeap_of_allocate hheap).disciplined

theorem settled_allocPayload (object : Object) :
    law.Settled (Eval.allocPayload object) := by
  unfold Eval.allocPayload
  split
  · exact Effect.allows_get.bind fun _ => Effect.allows_pure _
  · exact settled_allocate _

theorem settled_updateFrame (ref : Ref) (change : Frame → Frame) :
    law.Settled (Eval.updateFrame ref change) := by
  refine fun state => .lift_bind (Query.reads_environmentAt ref)
    (fun _ hreading => hreading.disciplined) fun env henv => ?_
  obtain ⟨attributes, hget⟩ := Eval.exists_get?_of_environmentAt henv
  exact .of_ok (Eval.update_of_get? hget _) ⟨.of_eq rfl rfl, law.bind _ hget⟩

theorem protecting_protect (ref : Ref) :
    (law.effect .protecting).Allows (Eval.protect ref) := by
  intro state
  refine .of_ok rfl ⟨⟨rfl, ?_, rfl⟩, law.same (.of_eq rfl rfl rfl rfl)⟩
  show _ <+: (state.roots.entries.push _).toList
  rw [Array.toList_push]
  exact List.prefix_append _ _

theorem entering_setContextEnv (env : Ref) :
    (law.effect .entering).Allows (Eval.setContextEnv env) := by
  refine Effect.allows_modifyGet fun state => ⟨⟨?_, rfl, rfl⟩, law.same (.of_eq rfl rfl rfl rfl)⟩
  dsimp only
  cases state.contexts with
  | nil => exact ⟨rfl, rfl⟩
  | cons context rest => exact ⟨rfl, rfl⟩

/-- What a region does to the roots is undone at its end. -/
theorem settled_withRoots {action : Eval α}
    (haction : (law.effect .protecting).Allows action) :
    law.Settled (Eval.withRoots action) := by
  refine fun state => .withRoots ⟨fun hfinish => ?_, (haction state).fault⟩
  obtain ⟨hkeeps, hstep⟩ := (haction state).finish hfinish
  exact ⟨hkeeps.roots, ⟨hkeeps.calls, rfl, hkeeps.preserved⟩,
    law.trans hstep (law.same (.of_eq rfl rfl rfl rfl))⟩

/-- So it is in a region with a mark, if the mark is the depth of the roots. -/
theorem settledAt_releasing {action : Eval α} {state : Interpreter} {mark : Nat}
    (hmark : state.roots.depth = mark)
    (haction : (law.effect .protecting).Allows action) :
    (law.effect .settled).AllowsAt state (Eval.releasing mark action) := by
  subst hmark
  have hregion : Eval.withRoots action state =
      Eval.releasing state.roots.depth action state := Eval.bind_of_ok rfl
  exact (settled_withRoots haction state).of_eq hregion.symm

end HeapLaw

end LazyDispatch
