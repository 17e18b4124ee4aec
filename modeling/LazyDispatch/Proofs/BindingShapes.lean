import LazyDispatch.Proofs.Balance
import LazyDispatch.Proofs.KindLaw
import LazyDispatch.Proofs.RefSessions
import LazyDispatch.Proofs.SoundStates

/-!
# Bindings stay in shape

In every state of a session the bindings of every frame hold what their origins
say: a promise binding a promise, a missing formal nothing or the promise of its
default, a bound symbol a value, and only `...` gathered arguments.  Promises
and gathered arguments never leak: no list holds one, no promise was forced to
one, and no evaluation ends with one.  So the faults of bindings and promises
that are out of shape do not happen.

All this holds for as long as no generation has come round since the heap was
made.
-/

namespace LazyDispatch

open Eval

/-! ## The start of a session -/

attribute [local irreducible] SymbolTable.intern in
theorem Reserved.dots_notMem_dispatchSymbols (table : SymbolTable) :
    (Reserved.intern.run table).1.dots ∉ (Reserved.intern.run table).1.dispatchSymbols := by
  have hnamed := table.named_nil.intern "..." |>.intern "class" |>.intern "names"
    |>.intern "previous" |>.intern ".Class" |>.intern ".Generic" |>.intern ".Method"
    |>.intern ".Group" |>.intern ".GenericCallEnv" |>.intern ".GenericDefEnv"
  have hnames : [".GenericDefEnv", ".GenericCallEnv", ".Group", ".Method", ".Generic", ".Class",
      "previous", "names", "class", "..."].Nodup := by decide
  let reserved := (Reserved.intern.run table).1
  have hdistinct : (reserved.dispatchSymbols.reverse ++
      [reserved.previous, reserved.names, reserved.cls, reserved.dots]).Nodup := hnamed.nodup hnames
  intro hdots
  exact List.disjoint_of_nodup_append hdistinct (List.mem_reverse.mpr hdots)
    (List.mem_of_getElem? (i := 3) rfl)

namespace Heap

variable {origin heap after : Heap} {strict : Bool} {dots : Symbol} {ref : Ref} {payload : Object}
  {roots : List Ref}

theorem shaped_create {settings : HeapSettings}
    (hcreate : create settings = .ok origin) (strict : Bool) (dots : Symbol) :
    origin.Shaped strict dots origin := by
  refine ⟨coherent_of_create hcreate, .refl origin, fun {ref object} hget => ?_⟩
  cases (get?_create hcreate ref).symm.trans hget

/-- A fixed object is a value, and what is known of other references stays
known. -/
theorem Shaped.allocateFixed (hshaped : origin.Shaped strict dots heap)
    (hok : heap.allocate { payload } roots = .ok ref after)
    (hmeets : payload.Meets (origin.Tells strict · heap) False (fun _ => True) dots)
    (hvalue : Kind.value.Admits payload) :
    origin.Shaped strict dots after ∧
      (∀ kind : Kind, kind.Admits payload → origin.HasKind kind after ref) ∧
      ∀ kind other, origin.HasKind kind heap other → origin.HasKind kind after other := by
  have hobject : origin.MeetsTold strict dots heap { payload } := by
    refine ⟨hmeets, fun deferred hdeferred => ?_, fun _ hentry => nomatch hentry⟩
    cases hdeferred
    cases hvalue.1
  have hafter := hshaped.allocate hobject hok
  exact ⟨hafter, fun _ hadmits => hafter.hasKind (get?_allocate_self hshaped.coherent hok)
    fun _ => hadmits, fun _ _ hkind => hkind.keeps hshaped.coherent (keepsKinds_allocate hok)⟩

end Heap

namespace Interpreter

variable {config : Config} {symbols : SymbolTable} {origin : Heap} {strict : Bool}
  {state : Interpreter}

/-- The fixed objects are values, and the environments among them are
environments. -/
theorem shaped_allocateAllFixed {reserved : Reserved} {dots : Symbol}
    {made : Heap} {fixed : Fixed} (horigin : origin.Shaped strict dots origin)
    (hok : allocateAllFixed reserved origin = .ok fixed made) :
    origin.Shaped strict dots made ∧
    (∀ ref ∈ fixed.edges, origin.HasKind .value made ref) ∧
      ∀ ref ∈ fixed.scopes, origin.HasKind .environment made ref := by
  have hall : origin.Shaped strict dots made ∧ ∀ entry ∈ fixedObjects fixed reserved .empty,
      origin.HasKind .value made entry.1 ∧
        (entry.2.payload.isEnvironment = true → origin.HasKind .environment made entry.1) := by
    refine allocateAllFixed_induction (motive := fun heap made => origin.Shaped strict dots heap ∧
      ∀ entry ∈ made, origin.HasKind .value heap entry.1 ∧
        (entry.2.payload.isEnvironment = true → origin.HasKind .environment heap entry.1)) hok
      ⟨horigin, nofun⟩ ?_
    intro heap after before payload ref hbefore hfits hallocate
    have hmeets : payload.Meets (origin.Tells strict · heap) False (fun _ => True) dots := by
      cases hfits with
      | null => trivial
      | symbol => trivial
      | outermost =>
          refine ⟨fun _ houter => ?_, fun _ hentry => nomatch hentry⟩
          cases houter
      | inside hparent =>
          refine ⟨fun outer houter => ?_, fun _ hentry => nomatch hentry⟩
          cases houter
          exact ((hbefore.2 _ hparent).2 rfl).within (Kind.within_told strict _)
    have hvalue : Kind.value.Admits payload := by
      cases hfits <;> exact ⟨rfl, rfl⟩
    obtain ⟨hafter, hkinds, hkeep⟩ := hbefore.1.allocateFixed hallocate hmeets hvalue
    refine ⟨hafter, fun entry hentry => ?_⟩
    rcases List.mem_append.mp hentry with hold | hnew
    · obtain ⟨hvalueKind, hscope⟩ := hbefore.2 entry hold
      exact ⟨hkeep _ _ hvalueKind, fun henvironment => hkeep _ _ (hscope henvironment)⟩
    · cases List.mem_singleton.mp hnew
      exact ⟨hkinds _ hvalue, hkinds .environment⟩
  obtain ⟨hmade, hkinds⟩ := hall
  refine ⟨hmade, fun ref href => ?_, fun ref href => ?_⟩
  · rw [← map_fst_fixedObjects fixed reserved .empty] at href
    obtain ⟨entry, hentry, rfl⟩ := List.mem_map.mp href
    exact (hkinds entry hentry).1
  · simp only [Fixed.scopes, List.mem_cons, List.not_mem_nil, or_false] at href
    rcases href with rfl | rfl | rfl
    · exact (hkinds _ (List.mem_of_getElem? (i := 1) rfl)).2 rfl
    · exact (hkinds _ (List.mem_of_getElem? (i := 2) rfl)).2 rfl
    · exact (hkinds _ (List.mem_of_getElem? (i := 3) rfl)).2 rfl

/-- An interpreter starts with bindings in shape. -/
theorem sound_shapeLaw_start (hcreate : Heap.create config.heap = .ok origin)
    (strict : Bool) (hstart : start config symbols = .ok state) :
    (shapeLaw origin strict).Sound state := by
  obtain ⟨heap, fixed, made, hheap, hmade, hbase⟩ := start_eq_ok hstart
  cases hcreate.symm.trans hheap
  obtain ⟨hshaped, hfixed, hscopes⟩ :=
    shaped_allocateAllFixed (Heap.shaped_create hcreate strict _) hmade
  have hsound : (shapeLaw origin strict).Sound (withFixed config (Reserved.intern.run symbols).2
      (Reserved.intern.run symbols).1 fixed made) := by
    refine ⟨⟨hshaped, hfixed, hscopes, rfl, fun hdots => ?_⟩, nofun, nofun, trivial⟩
    exact Reserved.dots_notMem_dispatchSymbols symbols (List.mem_of_mem_drop (i := 3) hdots)
  exact ((RefLaw.coincide_installBase
    (fun _ _ => ⟨trivial, fun _ _ _ => trivial⟩) hsound).value hbase).1

end Interpreter

/-! ## States in shape -/

/-- If a reference resolves, then to an object of a kind. -/
def Heap.OfKind (heap : Heap) (kind : Kind) (ref : Ref) : Prop :=
  ∀ object, heap.get? ref = some object → kind.Admits object.payload

/-- What a symbol is bound to.  A bound symbol has a value, and only `...`
gathered arguments. -/
def Binding.InShape (heap : Heap) (dots symbol : Symbol) : Binding → Prop
  | ⟨.unbound, _⟩ => False
  | ⟨.missing, value⟩ => ∀ ref ∈ value, heap.OfKind .promise ref
  | ⟨.promise, value⟩ => ∃ ref, value = some ref ∧ heap.OfKind .promise ref
  | ⟨.bound, value⟩ => ∃ ref, value = some ref ∧ heap.OfKind (.ofSymbol dots symbol) ref

/-- A state in which bindings, lists and forced promises hold what they may. -/
structure Interpreter.InShape (state : Interpreter) : Prop where
  frame : ∀ {ref env attributes}, state.heap.get? ref = some ⟨.environment env, attributes⟩ →
    ∀ entry ∈ env.frame.entries, entry.2.InShape state.heap state.reserved.dots entry.1
  list : ∀ {ref items attributes}, state.heap.get? ref = some ⟨.list items, attributes⟩ →
    ∀ item ∈ items, state.heap.OfKind .value item
  forced : ∀ {ref expr value attributes},
    state.heap.get? ref = some ⟨.promise (.forced expr value), attributes⟩ →
    state.heap.OfKind .value value

theorem Heap.HasKind.ofKind {origin heap : Heap} {kind : Kind} {ref : Ref}
    (hkind : origin.HasKind kind heap ref) (hwraps : origin.NeverWraps heap) :
    heap.OfKind kind ref :=
  fun _ hget => hkind.admits hwraps hget

theorem Binding.Meets.inShape {origin heap : Heap} {dots symbol : Symbol}
    {binding : Binding} (hmeets : binding.Meets (origin.Tells false · heap)
    False (.ofSymbol dots symbol)) (hwraps : origin.NeverWraps heap) :
    binding.InShape heap dots symbol := by
  obtain ⟨source, value⟩ := binding
  have hvalue : ∀ ref ∈ value, heap.OfKind ((source.kind (.ofSymbol dots symbol)).told false) ref :=
    fun ref href => (hmeets.value ref href).ofKind hwraps
  cases source with
  | unbound => exact hmeets.shape rfl
  | missing => exact hvalue
  | promise =>
      cases value with
      | none => exact (hmeets.shape rfl).elim
      | some ref => exact ⟨ref, rfl, hvalue ref rfl⟩
  | bound =>
      cases value with
      | none => exact (hmeets.shape rfl).elim
      | some ref =>
          have htold : (Kind.ofSymbol dots symbol).told false = .ofSymbol dots symbol := by
            unfold Kind.ofSymbol
            split <;> rfl
          exact ⟨ref, rfl, htold ▸ hvalue ref rfl⟩

/-- A sound state is in shape as long as no generation has come round. -/
theorem RefLaw.Sound.inShape {origin : Heap} {state : Interpreter}
    (hstate : (kindLaw origin).Sound state)
    (hwraps : origin.NeverWraps state.heap) :
    state.InShape := by
  have hobjects : ∀ {ref : Ref} {object : HeapObject}, state.heap.get? ref = some object →
      object.payload.Meets (origin.Tells false · state.heap) False (fun _ => True)
        state.reserved.dots :=
    fun hget => (hstate.inv.heap.objects hget).payload
  exact ⟨fun hget entry hentry => ((hobjects hget).2 entry hentry).inShape hwraps,
    fun hget item hitem => Heap.HasKind.ofKind (hobjects hget item hitem) hwraps,
    fun hget => Heap.HasKind.ofKind (hobjects hget) hwraps⟩

/-- What an evaluation may end with: a value that is neither a promise nor
gathered arguments, and no fault of shape, unless a generation came round. -/
structure Eval.EndsInShape (origin : Heap) (state : Interpreter)
    (action : Eval Ref) : Prop where
  value : ∀ {value after}, action state = .ok value after → origin.NeverWraps after.heap →
    after.heap.OfKind .value value
  fault : ∀ {cause after}, action state = .error (.fault cause) after →
    origin.NeverWraps after.heap → ¬cause.OfShape

theorem RefLaw.Coincide.endsInShape {origin : Heap} {state : Interpreter}
    {reach : Interpreter → Prop} {action twin : Eval Ref}
    (hcoincide : (kindLaw origin).Coincide reach ((kindLaw origin).Now .value)
      state action twin) :
    action.EndsInShape origin state := by
  constructor
  · intro value after hvalue hwraps
    exact Heap.HasKind.ofKind (hcoincide.value hvalue).2 hwraps
  · intro cause after hfault hwraps hshape
    exact hcoincide.fault hfault (Or.inl hshape) hwraps

/-- **Bindings stay in shape.**  In every state of a session without a host, as
long as no generation has come round since the heap was made, the bindings of
every live frame hold what their origins say, and neither lists nor forced
promises hold promises or gathered arguments.  From there no evaluation, in the
global environment or in any other, ends with a promise or with gathered
arguments, or stops for a binding or a promise that is out of shape. -/
theorem sessions_stay_in_shape {config : Config} {symbols : SymbolTable} {origin : Heap}
    {start state : Interpreter} (hcreate : Heap.create config.heap = .ok origin)
    (hstart : Interpreter.start config symbols = .ok start)
    (hvisits : start.Visits (fun _ _ _ => True) state) :
    (origin.NeverWraps state.heap → state.InShape) ∧
    (∀ budget expr, (evalTopLevel (perform {} budget) expr).EndsInShape origin state) ∧
    ∀ budget expr env found attributes,
      state.heap.get? env = some ⟨.environment found, attributes⟩ →
      (perform {} budget (.eval expr env)).EndsInShape origin state := by
  have hcache : ∀ state, (kindLaw origin).inv state → state.cache = .empty :=
    fun _ hinv => hinv.cache
  have hstate := RefLaw.sound_of_visits hcache (lax_kindLaw origin)
    (Interpreter.sound_shapeLaw_start hcreate false hstart) hvisits
  refine ⟨hstate.inShape, fun budget expr => ?_, fun budget expr env found attributes hget => ?_⟩
  · exact (RefLaw.agree_evalTopLevel (RefLaw.runs_perform hcache (lax_kindLaw origin) budget)
      hstate trivial).endsInShape
  · have henv : origin.HasKind .value state.heap env :=
      hstate.inv.heap.hasKind hget fun _ => ⟨rfl, rfl⟩
    exact (RefLaw.runs_perform hcache (lax_kindLaw origin) budget state (.eval expr env) hstate
      ⟨trivial, henv⟩).endsInShape

section Witness

/-- A function with an argument, a default and `...`, and a call that leaves its
frame behind. -/
def framesTerm : Term :=
  .block [
    .assign .here "f" (.function [("x", none), ("y", some (.symbol "x")), ("...", none)]
      (.block [.symbol "y", .function [] (.call (.symbol "list") [(none, .symbol "...")])])),
    .assign .here "g" (.call (.symbol "f") [(none, .literal (.integer 1)),
      (some "z", .literal (.integer 2))]),
    .call (.symbol "g") []]

/-- Whether no generation came round in an evaluation of a new interpreter. -/
def keepsGenerations (expr : Expr) (before : Interpreter) : Bool :=
  match Heap.create smallConfig.heap with
  | .ok origin => (evalTopLevel (perform {} 40) expr).passes
      (fun _ after => decide (origin.NeverWraps after.heap)) before
  | .error _ => false

set_option maxRecDepth 1000000 in
theorem exists_framesTerm : ∃ origin start expr before value after,
    Heap.create smallConfig.heap = .ok origin ∧ Interpreter.start smallConfig .empty = .ok start ∧
    resolve framesTerm start = .ok expr before ∧
    evalTopLevel (perform {} 40) expr before = .ok value after ∧ origin.NeverWraps after.heap := by
  have hcheck : startPasses framesTerm keepsGenerations = true := by
    decide +kernel
  obtain ⟨start, expr, before, hstart, hresolve, hkeeps⟩ := exists_of_startPasses hcheck
  unfold keepsGenerations at hkeeps
  split at hkeeps
  · next origin hcreate =>
      obtain ⟨value, after, heval, hwraps⟩ := exists_of_passes hkeeps
      exact ⟨origin, start, expr, before, value, after, hcreate, hstart, hresolve, heval,
        of_decide_eq_true hwraps⟩
  · cases hkeeps

/-- The frame that was left behind is in shape. -/
theorem sessions_stay_in_shape_framesTerm : ∃ origin start expr before value after,
    Heap.create smallConfig.heap = .ok origin ∧ Interpreter.start smallConfig .empty = .ok start ∧
    resolve framesTerm start = .ok expr before ∧
    evalTopLevel (perform {} 40) expr before = .ok value after ∧ origin.NeverWraps after.heap ∧
    after.InShape ∧ after.heap.OfKind .value value := by
  obtain ⟨origin, start, expr, before, value, after, hcreate, hstart, hresolve, heval, hwraps⟩ :=
    exists_framesTerm
  have hbefore : start.Visits (fun _ _ _ => True) before := .resolve .start hresolve
  have hafter : start.Visits (fun _ _ _ => True) after := .eval hbefore trivial (.value heval)
  exact ⟨origin, start, expr, before, value, after, hcreate, hstart, hresolve, heval, hwraps,
    (sessions_stay_in_shape hcreate hstart hafter).1 hwraps,
    ((sessions_stay_in_shape hcreate hstart hbefore).2.1 40 expr).value heval hwraps⟩

end Witness

end LazyDispatch
