import LazyDispatch.Proofs.PausedCalls

/-!
# Forwarding

A closure whose only formal is `...` and whose body is a call with the single
argument `...` passes its arguments on as they are.  On the way they take
several forms: matching gathers them, an object on the heap holds them, or a
missing formal stands for none of them, and the call in the body takes them out
again.

A chain of such closures is followed one closure at a time
(`applyClosure_forwarding`).  Each of them takes up two objects at most, its
frame and the gathered arguments.  The names that lead from one closure to the
next go on to do so: the call of a closure keeps all that the closure leads to.
-/

namespace LazyDispatch

/-! ## Forwarding closures -/

/-- The name of the function that a closure forwards to: its only formal is
`...`, and its body calls the function with the single argument `...`. -/
def Closure.forwardsTo? (dots : Symbol) (closure : Closure) : Option Symbol :=
  match closure.formals, closure.body with
  | [formal], .call _ (.symbol _ name) [⟨_, .symbol _ arg⟩] =>
    if formal.name = dots ∧ arg = dots then some name else none
  | _, _ => none

theorem Closure.forwardsTo?_eq_some {dots name : Symbol} {closure : Closure}
    (hname : closure.forwardsTo? dots = some name) :
    ∃ formal site place tag other, closure.formals = [formal] ∧ formal.name = dots ∧
      closure.body = .call site (.symbol place name) [⟨tag, .symbol other dots⟩] := by
  unfold forwardsTo? at hname
  split at hname
  · next formal site place called tag other arg hformals hbody =>
      split at hname
      · next hdots =>
          cases hname
          rw [hdots.2] at hbody
          exact ⟨formal, site, place, tag, other, hformals, hdots.1, hbody⟩
      · cases hname
  · cases hname

/-- A closure forwards to a function: the name that it calls resolves to the
function. -/
def Heap.Forwards (heap : Heap) (dots : Symbol) (fn next : Ref) : Prop :=
  ∃ closure attributes name, heap.get? fn = some ⟨.closure closure, attributes⟩ ∧
    closure.forwardsTo? dots = some name ∧ heap.Finds name closure.env next

namespace Heap

variable {heap after : Heap} {dots symbol : Symbol} {fn next : Ref} {args : List Arg}

theorem Forwards.leads (hforwards : heap.Forwards dots fn next) :
    Relation.ReflTransGen heap.Refers fn next := by
  obtain ⟨closure, attributes, name, hget, -, hfinds⟩ := hforwards
  exact .head (refers_of_payload hget (List.mem_singleton_self _)) hfinds.leads

theorem Forwards.exists_closure (hforwards : heap.Forwards dots fn next) :
    ∃ closure attributes, heap.get? fn = some ⟨.closure closure, attributes⟩ := by
  obtain ⟨closure, attributes, -, hget, -⟩ := hforwards
  exact ⟨closure, attributes, hget⟩

theorem Forwards.retains (hforwards : heap.Forwards dots fn next)
    (hretains : heap.Retains fn after) : after.Forwards dots fn next := by
  obtain ⟨closure, attributes, name, hget, hname, hfinds⟩ := hforwards
  have henv := hretains.of_refers (refers_of_payload hget (List.mem_singleton_self closure.env))
  exact ⟨closure, attributes, name, hretains.get? hget, hname, hfinds.retains henv⟩

/-- The first closure of a chain leads to the others. -/
theorem leads_of_isChain {rest : List Ref} {ref : Ref}
    (hchain : (fn :: rest).IsChain (heap.Forwards dots)) (hmem : ref ∈ rest) :
    Relation.ReflTransGen heap.Refers fn ref := by
  induction rest generalizing fn with
  | nil => cases hmem
  | cons next rest ih =>
      obtain ⟨hforwards, hrest⟩ := List.isChain_cons_cons.mp hchain
      rcases List.mem_cons.mp hmem with rfl | hlater
      · exact hforwards.leads
      · exact hforwards.leads.trans (ih hrest hlater)

/-- What a chain starts with is a closure. -/
theorem exists_closure_of_isChain {rest : List Ref} {last : Ref}
    (hchain : (fn :: (rest ++ [last])).IsChain (heap.Forwards dots)) :
    ∃ closure attributes, heap.get? fn = some ⟨.closure closure, attributes⟩ := by
  cases rest with
  | nil => exact (List.isChain_cons_cons.mp hchain).1.exists_closure
  | cons next rest => exact (List.isChain_cons_cons.mp hchain).1.exists_closure

/-- A chain of forwarding closures stays as it is while its first closure is
retained. -/
theorem isChain_forwards_of_retains {rest : List Ref}
    (hchain : (fn :: rest).IsChain (heap.Forwards dots))
    (hretains : heap.Retains fn after) :
    (fn :: rest).IsChain (after.Forwards dots) := by
  induction rest generalizing fn with
  | nil => exact .singleton fn
  | cons next rest ih =>
      obtain ⟨hforwards, hrest⟩ := List.isChain_cons_cons.mp hchain
      have hnext := ih hrest (hretains.of_leads hforwards.leads)
      exact .cons_cons (hforwards.retains hretains) hnext

end Heap

/-! ## Matching -/

namespace Matching

/-- Without formals before `...`, no tag begins one. -/
theorem assignPartial_zero (names : Symbol → String) (formals : List Formal)
    (actuals : List Arg) (exact : Assignment) :
    assignPartial names formals 0 actuals exact = .ok exact := by
  have hpass : ∀ (items : List (Arg × Nat)) (tables : PartialTables),
      items.foldlM (fun (tables : PartialTables) item =>
        tables.advance names formals 0 item.1 item.2) tables =
          (.ok tables : Except MatchError PartialTables) := by
    intro items tables
    induction items with
    | nil => rfl
    | cons item items ih =>
        obtain ⟨⟨tag, value⟩, index⟩ := item
        rw [List.foldlM_cons]
        refine Eq.trans ?_ ih
        cases tag with
        | none => rfl
        | some tag =>
            by_cases htaken : tables.bound.contains (some index)
            · simp only [PartialTables.advance, htaken, if_true]
              rfl
            · simp only [PartialTables.advance, htaken]
              rfl
  unfold assignPartial
  rw [hpass]
  rfl

theorem leftover_unassigned (actuals : List Arg) :
    (leftover actuals [none]).filterMap (actuals[·]?) = actuals := by
  have hall : leftover actuals [none] = List.range actuals.length := by
    unfold leftover
    apply List.filter_eq_self.mpr
    intro index _
    rfl
  rw [hall]
  clear hall
  induction actuals with
  | nil => rfl
  | cons first rest ih =>
      rw [List.length_cons, List.range_succ_eq_map, List.filterMap_cons, List.filterMap_map]
      exact congrArg _ ih

end Matching

/-- A function whose only formal is `...` gathers all its arguments. -/
theorem matchArgs_dots {dots : Symbol} {formal : Formal}
    (hformal : formal.name = dots) (names : Symbol → String) (args : List Arg) :
    matchArgs names dots [formal] args = .ok [.dots args] := by
  have hplace : Matching.dotsPlace? dots [formal] = some 0 := by
    simp [Matching.dotsPlace?, hformal]
  have hexact : Matching.assignExact (some 0) [formal] args = .ok [none] := rfl
  unfold matchArgs
  simp only [hplace, hexact, Option.getD_some]
  show (do
    let partly ← Matching.assignPartial names [formal] 0 args [none]
    _) = _
  rw [Matching.assignPartial_zero]
  show Except.ok [Matched.dots ((Matching.leftover args [none]).filterMap (args[·]?))] = _
  rw [Matching.leftover_unassigned]

/-! ## The frame of a forwarding closure -/

/-- A binding of `...` stands for arguments: without any it is missing, and
otherwise an object holds them. -/
inductive Heap.Gathers (heap : Heap) : List Arg → Binding → Prop
  | empty : Gathers heap [] (.missing none)
  | held {args : List Arg} {ref : Ref} {attributes : List (Symbol × Ref)}
      (hget : heap.get? ref = some ⟨.dots args, attributes⟩) : Gathers heap args (.bound ref)

/-- The frame of a closure whose only formal is `...`. -/
def Frame.ofDots (dots : Symbol) (binding : Binding)
    (supplied : List (Symbol × Ref)) : Frame :=
  (Frame.empty.insert dots binding).bindAbsent supplied

theorem Frame.find?_ofDots (dots : Symbol) (binding : Binding)
    (supplied : List (Symbol × Ref)) :
    (Frame.ofDots dots binding supplied).find? dots = some binding :=
  Frame.find?_bindAbsent_of_some (Frame.find?_insert_self _ _ _)

namespace Heap.Gathers

variable {heap : Heap} {args : List Arg} {binding : Binding}

/-- A binding of `...` is no function. -/
theorem functionIn? {frame : Frame} {symbol : Symbol}
    (hgathers : heap.Gathers args binding)
    (hfind : frame.find? symbol = some binding) :
    heap.functionIn? symbol frame = some none := by
  unfold Heap.functionIn?
  rw [hfind]
  cases hgathers with
  | empty => rfl
  | held hget =>
      show (heap.get? _).map _ = _
      rw [hget]
      rfl

/-- In the frame of a closure whose only formal is `...`, no function has a name
that is not supplied. -/
theorem functionIn?_ofDots {dots symbol : Symbol}
    {supplied : List (Symbol × Ref)} (hgathers : heap.Gathers args binding)
    (hne : ∀ item ∈ supplied, item.1 ≠ symbol) :
    heap.functionIn? symbol (.ofDots dots binding supplied) = some none := by
  by_cases hsymbol : symbol = dots
  · apply hgathers.functionIn?
    rw [hsymbol]
    exact Frame.find?_ofDots dots binding supplied
  · have hfind : (Frame.ofDots dots binding supplied).find? symbol = none := by
      rw [Frame.ofDots, Frame.find?_bindAbsent_of_ne hne, Frame.find?_insert_of_ne _ _ hsymbol]
      rfl
    rw [Heap.functionIn?, hfind]

theorem update {env : Ref} (hgathers : heap.Gathers args binding)
    (hother : env ∉ binding.value) (change : HeapObject → HeapObject) :
    (heap.update env change).Gathers args binding := by
  cases hgathers with
  | empty => exact .empty
  | @held args ref attributes hget =>
      have hne : env ≠ ref := by
        intro heq
        exact hother (heq ▸ rfl)
      apply Heap.Gathers.held
      rw [Heap.get?_update hget, if_neg hne]

end Heap.Gathers

namespace Eval

variable {state : Interpreter} {env : Ref} {args : List Arg} {binding : Binding}

theorem dotsArgs_of_gathers {found : Environment} {attributes : List (Symbol × Ref)}
    (hget : state.heap.get? env = some ⟨.environment found, attributes⟩)
    (hfind : found.frame.find? state.reserved.dots = some binding)
    (hgathers : state.heap.Gathers args binding) : dotsArgs env state = .ok args := by
  have hvar : findVar state.reserved.dots env state = .ok binding := by
    refine (Query.bind_of_ok (environmentAt_of_get? hget)).trans ?_
    rw [hfind]
    rfl
  refine (Query.bind_of_ok rfl).trans ((Query.bind_of_ok hvar).trans ?_)
  cases hgathers with
  | empty => rfl
  | held hdots => exact Query.bind_of_ok (payload_of_get? hdots)

/-- What `...` is bound to when it gathers arguments. -/
theorem formalBinding_dots (hheap : state.heap.Coherent) (formal : Formal) (args : List Arg) :
    (∃ binding heap, formalBinding env formal (.dots args) state = .ok binding { state with heap } ∧
      state.heap.TakesUp state.rootRefs 1 heap ∧ heap.Gathers args binding ∧
      ∀ ref ∈ binding.value, state.heap.get? ref = none) ∨
    (formalBinding env formal (.dots args)).RunsOut state 1 := by
  cases args with
  | nil => exact Or.inl ⟨_, state.heap, rfl, .refl hheap _ _, .empty, nofun⟩
  | cons arg args =>
      rcases allocate_cases hheap ⟨.dots (arg :: args), []⟩ with
        ⟨ref, heap, hallocate, hok⟩ | hout
      · refine Or.inl ⟨.bound ref, heap, bind_of_ok hok, .allocate hheap hallocate,
          .held (Heap.get?_allocate_self hheap hallocate), ?_⟩
        intro other hother
        cases hother
        exact Heap.get?_fresh hheap hallocate
      · exact Or.inr (hout.bind _)

/-- The bindings of a new frame: `...` stands for the arguments, and the
supplied bindings follow.  Only the frame changes after the arguments were
gathered. -/
theorem bindFormals_dots {parent : Option Ref} (hheap : state.heap.Coherent)
    (hroot : env ∈ state.rootRefs)
    (hget : state.heap.get? env = some ⟨.environment (.inside parent), []⟩) (formal : Formal)
    (args : List Arg) (supplied : List (Symbol × Ref)) :
    (∃ gathered inserted bound binding, state.heap.TakesUp state.rootRefs 1 gathered ∧
      (do bindFormals env [(formal, .dots args)]
          updateFrame env (·.bindAbsent supplied)
          return env : Eval Ref) state =
        .ok env { state with heap := (gathered.update env inserted).update env bound } ∧
      ((gathered.update env inserted).update env bound).get? env =
        some ⟨.environment ⟨parent, .ofDots formal.name binding supplied⟩, []⟩ ∧
      ((gathered.update env inserted).update env bound).Gathers args binding) ∨
    (do bindFormals env [(formal, .dots args)]
        updateFrame env (·.bindAbsent supplied)
        return env : Eval Ref).RunsOut state 1 := by
  rcases formalBinding_dots hheap formal args with
    ⟨binding, gathered, hbinding, htakes, hgathers, hfresh⟩ | hout
  · have hframe := (htakes.retains env hroot).get? hget
    have hinserted := @get?_amend_frame { state with heap := gathered } env parent .empty [] hframe
      (Frame.empty.insert formal.name binding)
    have hbound := get?_amend_frame hinserted
      ((Frame.empty.insert formal.name binding).bindAbsent supplied)
    have hother : env ∉ binding.value := by
      intro hmem
      rw [hfresh env hmem] at hget
      cases hget
    refine Or.inl ⟨gathered, _, _, binding, htakes, ?_, hbound, (hgathers.update hother _).update
      hother _⟩
    have hformal : bindFormals env [(formal, .dots args)] state = .ok () _ :=
      bind_of_ok ((bind_of_ok hbinding).trans (updateFrame_of_get? hframe _))
    exact (bind_of_ok hformal).trans (bind_of_ok (updateFrame_of_get? hinserted _))
  · refine Or.inr (RunsOut.bind ?_ _)
    exact (hout.bind _).bind _

/-- A closure whose only formal is `...` is entered: its frame binds `...` to
the arguments. -/
theorem enterClosure_dots {context : CallContext} {rest : List CallContext} {closure : Closure}
    {formal : Formal} (hheap : state.heap.Coherent) (hcontexts : state.contexts = context :: rest)
    (hopen : context.env = none) (hformals : closure.formals = [formal]) (args : List Arg)
    (supplied : List (Symbol × Ref)) :
    (∃ env heap binding, enterClosure closure [.dots args] supplied state =
        .ok env { state with heap, contexts := { context with env := some env } :: rest } ∧
      state.heap.TakesUp state.rootRefs 2 heap ∧
      heap.get? env =
        some ⟨.environment ⟨some closure.env, .ofDots formal.name binding supplied⟩, []⟩ ∧
      heap.Gathers args binding) ∨
    (enterClosure closure [.dots args] supplied).RunsOut state 2 := by
  unfold enterClosure
  rw [hformals]
  rcases allocate_cases hheap ⟨.environment (.inside (some closure.env)), []⟩ with
    ⟨env, made, hallocate, hok⟩ | hout
  · have htaken := Heap.TakesUp.allocate hheap hallocate
    have hself := Heap.get?_allocate_self hheap hallocate
    have hfresh := Heap.get?_fresh hheap hallocate
    have hnote : setContextEnv env { state with heap := made } = .ok () { state with
        heap := made, contexts := { context with env := some env } :: rest } := by
      show EStateM.Result.ok () { state with heap := made, contexts := _ } = _
      rw [hcontexts]
    generalize hnoted : { state with
      heap := made, contexts := { context with env := some env } :: rest } = noted at hnote
    -- The new environment is a root as soon as the call has noted it.
    have hheld : state.rootRefs ⊆ noted.rootRefs ∧ env ∈ noted.rootRefs := by
      rw [← hnoted]
      constructor
      · intro root hroot
        simp only [Interpreter.rootRefs, hcontexts, CallContext.edges, hopen, List.mem_append,
          List.flatMap_cons, List.mem_cons] at hroot ⊢
        tauto
      · simp [Interpreter.rootRefs, CallContext.edges]
    have hmade : noted.heap = made := hnoted ▸ rfl
    rcases bindFormals_dots (hmade ▸ htaken.coherent) hheld.2 (hmade ▸ hself)
      formal args supplied with
      ⟨gathered, inserted, bound, binding, htakes, hbind, hget, hgathers⟩ | hout
    · rw [hmade] at htakes
      refine Or.inl ⟨env, _, binding, ?_, ?_, hget, hgathers⟩
      · refine (bind_of_ok hok).trans ((bind_of_ok hnote).trans (hbind.trans ?_))
        rw [← hnoted]
      · exact ((htaken.trans hheld.1 htakes).update hfresh _).update hfresh _
    · refine Or.inr (hout.of_eq ?_ ?_)
      · intro hroom
        rw [hmade]
        exact htaken.room 1 hroom
      · intro cause after hfault
        exact (bind_of_ok hok).trans ((bind_of_ok hnote).trans hfault)
  · exact Or.inr ((hout.mono (Nat.le_succ 1)).bind _)

end Eval

/-! ## One closure -/

/-- The state in which the call in the body of a closure applies its function:
the evaluation is counted, and the function is protected. -/
def Interpreter.applying (state : Interpreter) (fn : Ref) : Interpreter :=
  { state with
    meter := state.meter.map (· + 1)
    roots := (state.roots.protect fn state.contexts.length).2 }

namespace Eval

variable {state : Interpreter} {env next : Ref} {name : Symbol} {args : List Arg}
  {binding : Binding} {found : Environment} {target : Closure}
  {frameAttributes attributes : List (Symbol × Ref)}

theorem promiseArgs_dots {tag : Option Symbol} {site : Nat}
    (hargs : dotsArgs env state = .ok args) :
    promiseArgs [⟨tag, .symbol site state.reserved.dots⟩] env state = .ok args state := by
  have hfirst : promiseArg env ⟨tag, .symbol site state.reserved.dots⟩ state = .ok args state := by
    refine (bind_of_ok rfl).trans ?_
    rw [if_pos rfl]
    exact lift_of_ok hargs
  have hall : [(⟨tag, .symbol site state.reserved.dots⟩ : ExprArg)].mapM (promiseArg env) state =
      .ok [args] state := by
    rw [List.mapM_cons]
    exact (bind_of_ok hfirst).trans rfl
  refine (bind_of_ok hall).trans ?_
  show EStateM.Result.ok [args].flatten state = _
  rw [List.flatten_singleton]

/-- The body of a forwarding closure applies the next function to the arguments. -/
theorem perform_forwarding (hooks : Hooks) {site place other : Nat} {tag : Option Symbol}
    (hget : state.heap.get? env = some ⟨.environment found, frameAttributes⟩)
    (hfind : found.frame.find? state.reserved.dots = some binding)
    (hgathers : state.heap.Gathers args binding) (hfinds : state.heap.Finds name env next)
    (hnext : state.heap.get? next = some ⟨.closure target, attributes⟩) (budget : Nat) :
    let body : Expr := .call site (.symbol place name) [⟨tag, .symbol other state.reserved.dots⟩]
    perform hooks (budget + 1) (.eval body env) state =
      releasing state.roots.depth (applyClosure (perform hooks budget) body next args env [])
        (state.applying next) := by
  intro body
  have hargs : dotsArgs env (state.applying next) = .ok args :=
    dotsArgs_of_gathers hget hfind hgathers
  generalize hticked : ({ state with meter := state.meter.map (· + 1) } : Interpreter) = ticked
  have htick : tick state = .ok () ticked := hticked ▸ rfl
  have hheap : ticked.heap = state.heap := hticked ▸ rfl
  have hfound := findFun_of_finds (perform hooks budget) (hheap.symm ▸ hfinds)
  rw [← hheap] at hnext
  refine (bind_of_ok htick).trans ((bind_of_ok hfound).trans
    ((bind_of_ok (lift_of_ok (payload_of_get? hnext))).trans ?_))
  show withRoots _ ticked = _
  rw [withRoots_apply]
  subst hticked
  apply bind_of_eq (attempt_congr _)
  exact (bind_of_ok rfl).trans (bind_of_ok (promiseArgs_dots hargs))

end Eval

/-- The calls of some functions are paused, one inside the other, and a function
is about to be applied from the frame `env`.  The calls have received the same
arguments.  What the function comes to is what the first of them comes to,
except for an early return from one of their frames. -/
structure Interpreter.Paused (state : Interpreter) (fns : List Ref)
    (args : List Arg) (env : Ref) (paused : List PausedCall)
    (inner : Interpreter) : Prop where
  coherent : inner.heap.Coherent
  /-- Each call took up two objects at most. -/
  room : ∀ rest, state.heap.HasRoom (rest + 2 * fns.length) → inner.heap.HasRoom rest
  reserved : inner.reserved = state.reserved
  maxDepth : inner.maxDepth = state.maxDepth
  contexts : ∃ nested, inner.contexts = nested ++ state.contexts ∧
    nested.map (fun context => (context.fn, context.args)) = fns.reverse.map (·, args) ∧
    nested.head?.bind (·.env) = some env
  result : ∀ action start result after, Eval.attempt action start = .ok result after →
    (∀ call ∈ paused, ∀ value, result ≠ .error (.earlyReturn value call.env)) →
    after.contexts = inner.contexts → after.roots.entries = inner.roots.entries →
    Eval.attempt (Eval.resumeAll paused action) start = .ok result (after.unwound state)

namespace Interpreter.Paused

variable {state middle inner : Interpreter} {fns more : List Ref}
  {args : List Arg} {env frame : Ref} {paused deeper : List PausedCall}

theorem length_contexts (hpaused : state.Paused fns args env paused inner) :
    inner.contexts.length = state.contexts.length + fns.length := by
  obtain ⟨nested, hcontexts, hnested, -⟩ := hpaused.contexts
  have hlength := congrArg List.length hnested
  simp only [List.length_map, List.length_reverse] at hlength
  rw [hcontexts, List.length_append]
  omega

/-- Calls are paused within paused calls. -/
theorem trans (hfirst : state.Paused fns args env paused middle)
    (hsecond : middle.Paused more args frame deeper inner) :
    state.Paused (fns ++ more) args frame (paused ++ deeper) inner where
  coherent := hsecond.coherent
  room := by
    intro rest hroom
    apply hsecond.room
    apply hfirst.room
    rw [List.length_append, Nat.mul_add, Nat.add_comm (2 * fns.length), ← Nat.add_assoc] at hroom
    exact hroom
  reserved := hsecond.reserved.trans hfirst.reserved
  maxDepth := hsecond.maxDepth.trans hfirst.maxDepth
  contexts := by
    obtain ⟨outer, houter, houterArgs, -⟩ := hfirst.contexts
    obtain ⟨nested, hnested, hnestedArgs, hframe⟩ := hsecond.contexts
    refine ⟨nested ++ outer, ?_, ?_, ?_⟩
    · rw [hnested, houter, List.append_assoc]
    · rw [List.map_append, hnestedArgs, houterArgs, List.reverse_append, List.map_append]
    · cases nested with
      | nil => cases hframe
      | cons context nested => exact hframe
  result := by
    intro action start result after haction hother hcontexts hentries
    have hdeeper := hsecond.result action start result after haction
      (fun call hcall => hother call (List.mem_append_right _ hcall)) hcontexts hentries
    have houter := hfirst.result _ start result _ hdeeper
      (fun call hcall => hother call (List.mem_append_left _ hcall)) rfl rfl
    rw [Eval.resumeAll, List.foldr_append]
    exact houter

/-- If memory runs out inside the calls, it runs out for the first of them. -/
theorem runsOut {first action : Eval Ref} {count : Nat} {call : PausedCall}
    (hpaused : state.Paused fns args env [call] inner)
    (hsame : first state = Eval.resume call action inner)
    (hout : action.RunsOut inner count) :
    first.RunsOut state (count + 2 * fns.length) := by
  apply (hout.resume call).of_eq
  · exact hpaused.room count
  · intro cause after hfault
    exact hsame.trans hfault

end Interpreter.Paused

namespace Eval

variable {state : Interpreter} {fn next caller : Ref} {args : List Arg}
  {attributes supplied : List (Symbol × Ref)}

/-- A call of a closure begins. -/
theorem applyClosure_of_matched {closure : Closure} {matched : List Matched}
    (run : Runner) (call : Expr)
    (hget : state.heap.get? fn = some ⟨.closure closure, attributes⟩)
    (hmatch : matchCall call closure.formals args state = .ok matched)
    (hroom : ¬state.maxDepth ≤ state.contexts.length) :
    applyClosure run call fn args caller supplied state =
      ending (runClosure run closure matched supplied) { state with contexts :=
        ⟨.function, call, fn, caller, none, args, state.roots.depth⟩ :: state.contexts } := by
  have hclosure : closureAt? fn state = .ok (some closure) :=
    Query.bind_of_ok (payload_of_get? hget)
  refine (bind_of_ok (lift_of_ok hclosure)).trans ((bind_of_ok (lift_of_ok hmatch)).trans ?_)
  exact (bind_of_ok rfl).trans (withContext_of_room hroom)

/-- A forwarding closure is run: it applies the next function to the arguments
that it has matched. -/
theorem runClosure_forwarding (hooks : Hooks) (state : Interpreter) {context : CallContext}
    {rest : List CallContext} {closure : Closure} {name : Symbol} (hheap : state.heap.Coherent)
    (hcontexts : state.contexts = context :: rest) (hopen : context.env = none)
    (hroot : fn ∈ state.rootRefs) (hfn : state.heap.get? fn = some ⟨.closure closure, attributes⟩)
    (hname : closure.forwardsTo? state.reserved.dots = some name)
    (hfinds : state.heap.Finds name closure.env next)
    (hnext : ∃ target attributes, state.heap.get? next = some ⟨.closure target, attributes⟩)
    (hne : ∀ item ∈ supplied, item.1 ≠ name) (args : List Arg) :
    (∃ env heap, state.heap.TakesUp state.rootRefs 2 heap ∧ ∀ budget,
      runClosure (perform hooks (budget + 1)) closure [.dots args] supplied state =
        returningTo env (releasing state.roots.depth
          (applyClosure (perform hooks budget) closure.body next args env []))
          (Interpreter.applying { state with
            heap, contexts := { context with env := some env } :: rest } next)) ∨
    ∀ run, (runClosure run closure [.dots args] supplied).RunsOut state 2 := by
  obtain ⟨formal, site, place, tag, other, hformals, hformal, hbody⟩ :=
    closure.forwardsTo?_eq_some hname
  obtain ⟨target, targetAttributes, hnext⟩ := hnext
  rcases enterClosure_dots hheap hcontexts hopen hformals args supplied with
    ⟨env, heap, binding, henter, htakes, hframe, hgathers⟩ | hout
  · left
    have hretains := htakes.retains fn hroot
    have hedge := Heap.refers_of_payload hfn (List.mem_singleton_self closure.env)
    have hlater : heap.get? next = _ :=
      (hretains.of_leads (.head hedge hfinds.leads)).get? hnext
    -- The new frame lies before the environment of the closure, and has no
    -- function of that name.
    have hlooks : heap.Finds name env next := by
      obtain ⟨path, hpath⟩ := hfinds.retains (hretains.of_refers hedge)
      exact ⟨closure.env :: path, .outward hframe (hgathers.functionIn?_ofDots hne) rfl hpath⟩
    have hfind : (Frame.ofDots formal.name binding supplied).find? state.reserved.dots =
        some binding := by
      rw [← hformal]
      exact Frame.find?_ofDots formal.name binding supplied
    refine ⟨env, heap, htakes, ?_⟩
    intro budget
    rw [runClosure_eq, hbody]
    refine (bind_of_ok henter).trans (bind_of_eq (attempt_congr ?_))
    exact perform_forwarding hooks hframe hfind hgathers hlooks hlater budget
  · right
    intro run
    rw [runClosure_eq]
    exact hout.bind _

/-- **One closure** passes its arguments on. -/
theorem applyClosure_forwarding (hooks : Hooks) (hheap : state.heap.Coherent)
    (hroom : ¬state.maxDepth ≤ state.contexts.length)
    (hforwards : state.heap.Forwards state.reserved.dots fn next)
    (hnext : ∃ target attributes, state.heap.get? next = some ⟨.closure target, attributes⟩)
    (hsupplied : ∀ closure attributes, state.heap.get? fn = some ⟨.closure closure, attributes⟩ →
      ∀ item ∈ supplied, closure.forwardsTo? state.reserved.dots ≠ some item.1)
    (call : Expr) (args : List Arg) (caller : Ref) :
    (∃ body env inner, state.Paused [fn] args env [⟨env, state.roots.depth⟩] inner ∧
      state.heap.Retains fn inner.heap ∧
      ∀ budget, applyClosure (perform hooks (budget + 1)) call fn args caller supplied state =
        resume ⟨env, state.roots.depth⟩
          (applyClosure (perform hooks budget) body next args env []) inner) ∨
    ∀ budget, (applyClosure (perform hooks (budget + 1)) call fn args caller supplied).RunsOut
      state 2 := by
  obtain ⟨closure, attributes, name, hfn, hname, hfinds⟩ := hforwards
  obtain ⟨formal, site, place, tag, other, hformals, hformal, hbody⟩ :=
    closure.forwardsTo?_eq_some hname
  have hmatch : matchCall call closure.formals args state = .ok [.dots args] := by
    rw [hformals]
    refine (Query.bind_of_ok rfl).trans ?_
    rw [matchArgs_dots hformal]
    rfl
  have hne : ∀ item ∈ supplied, item.1 ≠ name := by
    intro item hitem heq
    exact hsupplied closure attributes hfn item hitem (heq ▸ hname)
  generalize hcontext : (⟨.function, call, fn, caller, none, args, state.roots.depth⟩ :
    CallContext) = context
  have hbegin : ∀ run, applyClosure run call fn args caller supplied state =
      ending (runClosure run closure [.dots args] supplied)
        { state with contexts := context :: state.contexts } := by
    intro run
    rw [← hcontext]
    exact applyClosure_of_matched run call hfn hmatch hroom
  have hopen : context.env = none := by rw [← hcontext]
  have hroot : fn ∈
      ({ state with contexts := context :: state.contexts } :
        Interpreter).rootRefs := by
    simp [Interpreter.rootRefs, CallContext.edges, ← hcontext]
  rcases runClosure_forwarding hooks { state with contexts := context :: state.contexts } hheap rfl
    hopen hroot hfn hname hfinds hnext hne args with ⟨env, heap, htakes, hrun⟩ | hout
  · left
    refine ⟨closure.body, env, Interpreter.applying { state with
      heap, contexts := { context with env := some env } :: state.contexts } next, ?_,
      htakes.retains fn hroot, ?_⟩
    · refine ⟨htakes.coherent, htakes.room, rfl, rfl, ⟨[{ context with env := some env }], rfl, ?_,
        rfl⟩, ?_⟩
      · rw [← hcontext]
        rfl
      · intro action start result after haction hother hcontexts hentries
        apply attempt_resume haction (hother _ (List.mem_singleton_self _)) hcontexts
        · rw [← hcontext]
        · rw [hentries]
          show _ <+: (state.roots.entries.push _).toList
          rw [Array.toList_push]
          exact List.prefix_append _ _
    · intro budget
      rw [hbegin]
      exact bind_of_eq (attempt_congr (hrun budget))
  · right
    intro budget
    rw [RunsOut, hbegin]
    exact (hout _).attempt.bind _

/-! ## Chains of closures -/

/-- **Forwarding is transparent.**  The first of some closures is applied to any
arguments.  Each of the closures forwards to the next one, and the last of them
to another closure.  Then that closure is applied to the same arguments, inside
the calls of the forwarding closures, and they pass on what it comes to.  This
only fails for lack of memory, when there is no room for two objects for each
closure. -/
theorem dots_forwarding_transparent (hooks : Hooks) {state : Interpreter} {first last : Ref}
    {others : List Ref} {supplied : List (Symbol × Ref)} (hheap : state.heap.Coherent)
    (hchain : (first :: (others ++ [last])).IsChain (state.heap.Forwards state.reserved.dots))
    (hlast : ∃ target attributes, state.heap.get? last = some ⟨.closure target, attributes⟩)
    (hdepth : state.contexts.length + (others.length + 1) ≤ state.maxDepth)
    (hsupplied : ∀ closure attributes, state.heap.get? first = some ⟨.closure closure, attributes⟩ →
      ∀ item ∈ supplied, closure.forwardsTo? state.reserved.dots ≠ some item.1)
    (call : Expr) (args : List Arg) (caller : Ref) :
    (∃ lastCall env paused inner, state.Paused (first :: others) args env paused inner ∧
      inner.heap.get? last = state.heap.get? last ∧
      ∀ budget, applyClosure (perform hooks (budget + (others.length + 1))) call first args caller
          supplied state =
        resumeAll paused (applyClosure (perform hooks budget) lastCall last args env []) inner) ∨
    ∀ budget, (applyClosure (perform hooks (budget + (others.length + 1))) call first args caller
      supplied).RunsOut state (2 * (others.length + 1)) := by
  induction others generalizing first state supplied call caller with
  | nil =>
      obtain ⟨target, attributes, htarget⟩ := hlast
      have hforwards := (List.isChain_cons_cons.mp hchain).1
      have hroom : ¬state.maxDepth ≤ state.contexts.length := Nat.not_le.mpr hdepth
      rcases applyClosure_forwarding hooks hheap hroom hforwards ⟨_, _, htarget⟩ hsupplied call args
        caller with ⟨body, env, inner, hpaused, hretains, hrun⟩ | hout
      · left
        have hkept := (hretains.of_leads hforwards.leads).get? htarget
        exact ⟨body, env, _, inner, hpaused, hkept.trans htarget.symm, hrun⟩
      · exact Or.inr hout
  | cons second others ih =>
      obtain ⟨hforwards, hrest⟩ := List.isChain_cons_cons.mp hchain
      have hsecond := Heap.exists_closure_of_isChain hrest
      have hroom : ¬state.maxDepth ≤ state.contexts.length := by
        rw [List.length_cons] at hdepth
        omega
      rcases applyClosure_forwarding hooks hheap hroom hforwards hsecond
        hsupplied call args caller with
        ⟨body, env, middle, hpaused, hretains, hrun⟩ | hout
      · obtain ⟨target, attributes, htarget⟩ := hlast
        -- The call of the first closure keeps all that the closure leads to, so
        -- the rest of the chain is there when the second one is applied.
        have hkept := (hretains.of_leads (Heap.leads_of_isChain hchain (by simp))).get? htarget
        have hlater : (second :: (others ++ [last])).IsChain
            (middle.heap.Forwards middle.reserved.dots) := by
          rw [hpaused.reserved]
          exact Heap.isChain_forwards_of_retains hrest (hretains.of_leads hforwards.leads)
        have hdeeper : middle.contexts.length + (others.length + 1) ≤ middle.maxDepth := by
          rw [hpaused.length_contexts, hpaused.maxDepth]
          rw [List.length_cons] at hdepth
          simp only [List.length_singleton]
          omega
        rcases ih hpaused.coherent hlater ⟨target, attributes, hkept⟩ hdeeper
          (fun _ _ _ _ hitem => absurd hitem List.not_mem_nil) body env with
          ⟨lastCall, frame, paused, inner, hdeep, hstill, happly⟩ | hout
        · left
          refine ⟨lastCall, frame, _, inner, hpaused.trans hdeep, ?_, ?_⟩
          · rw [hstill, hkept, htarget]
          · intro budget
            exact (hrun _).trans (resume_congr (happly budget))
        · exact Or.inr fun budget => hpaused.runsOut (hrun _) (hout budget)
      · exact Or.inr fun budget => (hout _).mono (by omega)

end Eval

section Witness

open Eval

/-- Two forwarding closures and the closure that they forward to. -/
def forwardersTerm : Term :=
  .block [
    .assign .here "f" (.function [("...", none)] (.call (.symbol "g") [(none, .symbol "...")])),
    .assign .here "g" (.function [("...", none)] (.call (.symbol "h") [(none, .symbol "...")])),
    .assign .here "h" (.function [("x", none), ("y", none)] (.symbol "y"))]

/-- Whether a closure forwards to a function that its own environment has. -/
def Heap.forwardsHere (heap : Heap) (dots : Symbol) (fn next : Ref) : Bool :=
  match heap.get? fn with
  | some ⟨.closure closure, _⟩ =>
    match closure.forwardsTo? dots, heap.get? closure.env with
    | some name, some ⟨.environment found, _⟩ =>
      name ≠ dots && heap.functionIn? name found.frame = some (some next)
    | _, _ => false
  | _ => false

theorem Heap.forwards_of_forwardsHere {heap : Heap} {dots : Symbol}
    {fn next : Ref} (hhere : heap.forwardsHere dots fn next = true) :
    heap.Forwards dots fn next ∧ ∀ closure attributes,
      heap.get? fn = some ⟨.closure closure, attributes⟩ →
        closure.forwardsTo? dots ≠ some dots := by
  unfold Heap.forwardsHere at hhere
  split at hhere
  · next closure attributes hget =>
      split at hhere
      · next name found others hname hframe =>
          obtain ⟨hne, hfn⟩ := Bool.and_eq_true_iff.mp hhere
          refine ⟨⟨closure, attributes, name, hget, hname, [],
            .here hframe (of_decide_eq_true hfn)⟩, ?_⟩
          intro other otherAttributes hother hdots
          cases hget.symm.trans hother
          cases hname.symm.trans hdots
          exact of_decide_eq_true hne rfl
      · cases hhere
  · cases hhere

/-- Whether two closures forward to a third one, and there is room for two calls
and four objects. -/
def Interpreter.forwardsTwice (state : Interpreter) (first second last : Ref) :
    Bool :=
  match state.heap.get? last with
  | some ⟨.closure _, _⟩ =>
    state.heap.forwardsHere state.reserved.dots first second &&
      state.heap.forwardsHere state.reserved.dots second last &&
      state.contexts.length + 2 ≤ state.maxDepth && state.heap.fitsMore 4
  | _ => false

theorem of_forwardsTwice {state : Interpreter} {first second last : Ref}
    (htwice : state.forwardsTwice first second last = true) :
    state.heap.forwardsHere state.reserved.dots first second = true ∧
      state.heap.forwardsHere state.reserved.dots second last = true ∧
      (∃ target attributes, state.heap.get? last = some ⟨.closure target, attributes⟩) ∧
      state.contexts.length + 2 ≤ state.maxDepth ∧ state.heap.HasRoom 4 := by
  unfold Interpreter.forwardsTwice at htwice
  split at htwice
  · next target attributes hlast =>
      simp only [Bool.and_eq_true, decide_eq_true_eq] at htwice
      obtain ⟨⟨⟨hfirst, hsecond⟩, hdepth⟩, hfits⟩ := htwice
      exact ⟨hfirst, hsecond, ⟨target, attributes, hlast⟩, hdepth, Heap.hasRoom_of_fitsMore hfits⟩
  · cases htwice

/-- Whether three global functions, in the order of their definition, pass a
test. -/
def globalsPass (test : Ref → Ref → Ref → Bool) (state : Interpreter) : Bool :=
  match state.heap.get? state.fixed.global with
  | some ⟨.environment env, _⟩ =>
    match env.frame.edges with
    | [first, second, last] => test first second last
    | _ => false
  | _ => false

theorem exists_of_globalsPass {test : Ref → Ref → Ref → Bool}
    {state : Interpreter} (hpasses : globalsPass test state = true) :
    ∃ first second last, test first second last = true := by
  unfold globalsPass at hpasses
  split at hpasses
  · split at hpasses
    · next first second last _ => exact ⟨first, second, last, hpasses⟩
    · cases hpasses
  · cases hpasses

set_option maxRecDepth 1000000 in
theorem exists_forwardersTerm : ∃ start expr before value after first second last,
    Interpreter.start smallConfig .empty = .ok start ∧
    resolve forwardersTerm start = .ok expr before ∧
    perform {} 40 (.eval expr before.fixed.global) before = .ok value after ∧
    after.heap.forwardsHere after.reserved.dots first second = true ∧
    after.heap.forwardsHere after.reserved.dots second last = true ∧
    (∃ target attributes, after.heap.get? last = some ⟨.closure target, attributes⟩) ∧
    after.contexts.length + 2 ≤ after.maxDepth ∧ after.heap.HasRoom 4 := by
  have hcheck : startPasses forwardersTerm (fun expr before =>
      (perform {} 40 (.eval expr before.fixed.global)).passes
        (fun _ after => globalsPass after.forwardsTwice after) before) = true := by
    decide +kernel
  obtain ⟨start, expr, before, hstart, hresolve, hpasses⟩ := exists_of_startPasses hcheck
  obtain ⟨value, after, heval, hglobals⟩ := exists_of_passes hpasses
  obtain ⟨first, second, last, htwice⟩ := exists_of_globalsPass hglobals
  exact ⟨start, expr, before, value, after, first, second, last, hstart, hresolve, heval,
    of_forwardsTwice htwice⟩

/-- An empty argument, one that is tagged `...`, and one that is there twice are
forwarded, although the name `...` is supplied with another binding. -/
theorem dots_forwarding_transparent_forwardersTerm :
    ∃ start expr before value state first second last,
      Interpreter.start smallConfig .empty = .ok start ∧
      resolve forwardersTerm start = .ok expr before ∧
      perform {} 40 (.eval expr before.fixed.global) before = .ok value state ∧
      state.heap.Coherent ∧ state.heap.HasRoom 4 ∧
      [first, second, last].IsChain (state.heap.Forwards state.reserved.dots) ∧
      ∃ args, args = [⟨none, none⟩, ⟨some state.reserved.dots, some first⟩, ⟨none, some last⟩,
        ⟨none, some last⟩] ∧ ∃ lastCall env paused inner,
        state.Paused [first, second] args env paused inner ∧
        inner.heap.get? last = state.heap.get? last ∧
        ∀ budget, applyClosure (perform {} (budget + 2)) expr first args state.fixed.global
            [(state.reserved.dots, last)] state =
          resumeAll paused (applyClosure (perform {} budget) lastCall last args env []) inner := by
  obtain ⟨start, expr, before, value, state, first, second, last, hstart, hresolve, heval, hfirst,
    hsecond, hlast, hdepth, hroom⟩ := exists_forwardersTerm
  have hheap : state.heap.Coherent := by
    have hprecedes := Interpreter.precedes_of_allows (persistence_perform 40 _)
      (.value heval)
    apply hprecedes.coherent
    rw [heap_of_resolve hresolve]
    exact (Interpreter.sound_start hstart).heap
  obtain ⟨hforwards, hunsupplied⟩ := Heap.forwards_of_forwardsHere hfirst
  have hchain : [first, second, last].IsChain (state.heap.Forwards state.reserved.dots) :=
    .cons_cons hforwards (.cons_cons (Heap.forwards_of_forwardsHere hsecond).1 (.singleton last))
  have hsupplied : ∀ closure attributes,
      state.heap.get? first = some ⟨.closure closure, attributes⟩ →
      ∀ item ∈ [(state.reserved.dots, last)],
        closure.forwardsTo? state.reserved.dots ≠ some item.1 := by
    intro closure attributes hget item hitem
    rw [List.mem_singleton.mp hitem]
    exact hunsupplied closure attributes hget
  refine ⟨start, expr, before, value, state, first, second, last, hstart,
    hresolve, heval, hheap, hroom, hchain, _, rfl, ?_⟩
  rcases @dots_forwarding_transparent {} state first last [second] _ hheap
    hchain hlast hdepth hsupplied expr _ state.fixed.global with hforwarded |
    hout
  · exact hforwarded
  · exact absurd hroom (hout 0).1

end Witness

end LazyDispatch
