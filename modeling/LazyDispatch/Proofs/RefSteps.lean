import LazyDispatch.Proofs.RefReading

/-!
# Primitive steps under a reference law

Allocations, roots, changes of frames and promises.  A new object is known until
the next allocation; protecting it makes that last.
-/

namespace LazyDispatch

/-- The state with one more root. -/
def Interpreter.protecting (state : Interpreter) (ref : Ref) : Interpreter :=
  { state with roots := (state.roots.protect ref state.contexts.length).2 }

/-- Allocates an object, does something else, and then gives the object an
attribute. -/
def Eval.allocateCompleted {β : Type} (object : HeapObject) (prepare : Ref → Eval β)
    (name : β → Symbol) (value : β → Ref) : Eval Ref := do
  let ref ← Eval.allocate object
  let result ← prepare ref
  update ref (·.setAttribute (name result) (value result))
  return ref

namespace RefLaw

open Eval

variable {symbol : Symbol}

variable {law : RefLaw} {state : Interpreter} {scope : Scope} {kind : Kind} {ref env : Ref}

/-! ## New objects -/

/-- What is known of an object that was allocated in a state. -/
def Fresh (law : RefLaw) (before : Interpreter) (found : Object)
    (state : Interpreter) (ref : Ref) :
    Prop :=
  ∀ kind, law.Known before kind found → law.Now kind state ref

variable (hstate : law.Sound state)
include hstate

/-- An allocation keeps to the law, and its object is known afterwards. -/
theorem Sound.allocated (scope : Scope) {object : HeapObject} {heap : Heap}
    (hobject : law.MeetsNow state object)
    (hheap : state.heap.allocate object state.rootRefs = .ok ref heap) :
    law.Reaches scope state { state with heap } ∧
      law.Fresh state object.payload { state with heap } ref := by
  obtain ⟨hstep, hinv, hfresh⟩ :=
    law.on_allocate hstate.inv (law.held_subset_rootRefs state) hobject hheap
  exact ⟨reaches_of_step hstate hstep hinv rfl rfl, hfresh⟩

/-- A fresh reference shows the object it was allocated for. -/
theorem agree_allocate {object : HeapObject}
    (hobject : law.MeetsNow state object) :
    law.Obeys scope (law.Fresh state object.payload) state (allocate object) := by
  cases hheap : state.heap.allocate object state.rootRefs with
  | ok ref heap =>
      obtain ⟨hreach, hfresh⟩ := hstate.allocated scope hobject hheap
      exact .of_ok (allocate_of_ok hheap) (allocate_of_ok hheap) hreach hfresh
  | error cause heap =>
      exact .of_fault (allocate_of_error hheap) (allocate_of_error hheap) (law.fault_allocate hheap)

/-- It then stands in every place that admits such an object. -/
theorem agree_allocPayload {object : Object} (hobject : object.Meets
    (law.Now · state) law.loose law.expr state.reserved.dots)
    (hedge : ∀ deferred, object = .promise deferred →
      law.Now deferred.edgeKind state deferred.edge) :
    law.Obeys scope (fun after ref => ∀ kind : Kind, kind.Admits object → law.Now kind after ref)
      state (allocPayload object) := by
  have hmeets : law.MeetsNow state { payload := object } :=
    ⟨hobject, hedge, fun _ hentry => nomatch hentry⟩
  cases object with
  | null =>
      refine .get_bind (.pure hstate fun kind hadmits => ?_)
      have hnull := law.has_now (kept_null hstate)
      cases kind with
      | any => exact law.has_within (Kind.within_any _) hnull
      | value => exact hnull
      | operand => exact law.has_within Kind.value_within_operand hnull
      | promise => cases hadmits
      | content => exact law.has_within Kind.value_within_content hnull
      | environment => cases hadmits
  | _ =>
      exact (agree_allocate hstate hmeets).weaken fun _ _ _ hfresh kind hadmits =>
        hfresh kind (Or.inl hadmits)

/-- A new value that is neither a promise nor gathered arguments. -/
theorem agree_allocValue {object : Object} (hvalue : Kind.value.Admits object)
    (hobject : object.Meets (law.Now · state) law.loose law.expr
      state.reserved.dots) :
    law.Obeys scope (law.Now .value) state (allocPayload object) := by
  refine (agree_allocPayload hstate hobject fun deferred hdeferred => ?_).weaken
    fun after ref _ hfresh => hfresh _ hvalue
  rw [hdeferred] at hvalue
  cases hvalue.1

/-- New strings are named for what they tell. -/
theorem agree_allocNames (values : List String) :
    law.Obeys scope (fun after ref => law.Now .value after ref ∧
        ∀ name, law.tells name values →
          law.named .now name after ref) state (allocStrings values) := by
  have hobject : law.MeetsNow state { payload := .character values } :=
    ⟨trivial, nofun, fun _ hentry => nomatch hentry⟩
  cases hheap : state.heap.allocate { payload := .character values } state.rootRefs with
  | ok ref heap =>
      obtain ⟨hreach, hfresh⟩ := hstate.allocated scope hobject hheap
      exact .of_ok (allocate_of_ok hheap) (allocate_of_ok hheap) hreach
        ⟨hfresh .value (Or.inl ⟨rfl, rfl⟩), fun name => law.named_allocate hstate.inv hheap⟩
  | error cause heap =>
      exact .of_fault (allocate_of_error hheap) (allocate_of_error hheap) (law.fault_allocate hheap)

/-- A vector of texts is a value. -/
theorem agree_allocStrings (values : List String) :
    law.Obeys scope (law.Now .value) state (allocStrings values) :=
  (agree_allocNames hstate values).weaken fun _ _ _ hnow => hnow.1

omit hstate in
/-- An atomic vector is a value that holds nothing. -/
theorem meets_of_mode {object : Object} (hmode : object.mode ≠ .list) :
    Kind.value.Admits object ∧
      object.Meets (law.Now · state) law.loose law.expr state.reserved.dots := by
  cases object with
  | null => exact ⟨⟨rfl, rfl⟩, trivial⟩
  | logical values => exact ⟨⟨rfl, rfl⟩, trivial⟩
  | integer values => exact ⟨⟨rfl, rfl⟩, trivial⟩
  | double values => exact ⟨⟨rfl, rfl⟩, trivial⟩
  | character values => exact ⟨⟨rfl, rfl⟩, trivial⟩
  | _ => exact absurd rfl hmode

/-- So is any vector that is no list, since it has no references in it. -/
theorem agree_allocAtomic {object : Object}
    (hmode : object.mode ≠ .list) :
    law.Obeys scope (law.Now .value) state (allocPayload object) := by
  obtain ⟨hvalue, hmeets⟩ := @meets_of_mode law state object hmode
  exact agree_allocValue hstate hvalue hmeets

/-- So is a logical. -/
theorem agree_allocLogical (b : Bool) :
    law.Obeys scope (law.Now .value) state (allocLogical b) :=
  agree_allocValue hstate ⟨rfl, rfl⟩ trivial

/-- So is the value of a literal. -/
theorem agree_allocLiteral (value : Literal) :
    law.Obeys scope (law.Now .value) state (allocLiteral value) := by
  unfold allocLiteral
  cases value with
  | string s => exact agree_allocStrings hstate [s]
  | _ => exact agree_allocValue hstate ⟨rfl, rfl⟩ trivial

/-- A promise of an expression of the program, in a scope that stands now. -/
theorem agree_allocPromise {expr : Expr} (hexpr : law.expr expr)
    (henv : law.Now .environment state env) :
    law.Obeys scope (law.Now .promise) state (allocPromise expr env) := by
  have hmeets : (Object.promise (.pending expr env)).Meets (law.Now · state) law.loose law.expr
      state.reserved.dots := hexpr
  refine (agree_allocPayload hstate hmeets fun deferred hdeferred => ?_).weaken
    fun after ref _ hfresh => hfresh _ rfl
  cases hdeferred
  exact henv

/-- A collection leaves all that is held as it was. -/
theorem agree_collectGarbage :
    law.Obeys scope (fun _ _ => True) state collectGarbage := by
  obtain ⟨hstep, hinv⟩ := law.on_collect hstate.inv (law.held_subset_rootRefs state)
  exact .of_ok rfl rfl (reaches_of_step hstate hstep hinv rfl rfl) trivial

/-! ## Names and warnings -/

/-- Interning a name leaves the heap alone and gives the symbol of the name. -/
theorem agree_intern (name : String) :
    law.Obeys scope (fun after symbol => after.naming.symbols.name? symbol = some name) state
      (intern name) := by
  refine .of_ok rfl rfl ?_ (state.naming.symbols.name?_intern name)
  have hgrows := state.naming.symbols.grows_intern name
  exact reaches_of_same hstate ⟨⟨rfl, rfl, rfl, hgrows⟩, rfl⟩ rfl rfl

/-- A call given another head is still an expression of the program. -/
theorem agree_renamedCall (head : Symbol) {call : Expr}
    (hcall : law.expr call) :
    law.Obeys scope (fun after renamed => law.expr renamed ∧ renamed.callHead? = some head ∧
        after.naming.symbols = state.naming.symbols) state (renamedCall head call) := by
  have hsite : law.Obeys scope (fun after _ => after.naming.symbols = state.naming.symbols) state
      freshSite :=
    .of_ok rfl rfl (reaches_of_same hstate (.of_eq rfl rfl rfl rfl rfl) rfl rfl) rfl
  exact hsite.bind fun site _ hreach hnames =>
    .pure hreach.sound ⟨law.expr_withHead site head hcall, rfl, hnames⟩

/-- A warning touches no reference. -/
theorem agree_warn (message : String) :
    law.Obeys scope (fun _ _ => True) state (warn message) :=
  .quiet hstate (.of_eq rfl rfl rfl rfl rfl) rfl rfl

/-- Nor does counting a step. -/
theorem agree_tick :
    law.Obeys scope (fun _ _ => True) state tick :=
  .quiet hstate (.of_eq rfl rfl rfl rfl rfl) rfl rfl

/-! ## Roots -/

omit hstate in
/-- Protecting a reference changes the root stack and nothing else. -/
theorem sameStore_protecting (state : Interpreter) (ref : Ref) :
    state.SameStore (state.protecting ref) :=
  .of_eq rfl rfl rfl rfl rfl

omit hstate in
/-- What was held is held still, and the reference with it. -/
theorem mem_held_protecting (law : RefLaw) (state : Interpreter) (ref : Ref) :
    ref :: law.held state ⊆ law.held (state.protecting ref) := by
  intro other hother
  simp only [Terms.held, Interpreter.protecting, RootStack.edges, RootStack.protect,
    Array.toList_push, List.map_append, List.mem_append, List.mem_cons] at hother ⊢
  rcases hother with rfl | (hentry | hpreserved) | hcall
  · exact Or.inl (Or.inl (Or.inr (List.mem_singleton.mpr rfl)))
  · exact Or.inl (Or.inl (Or.inl hentry))
  · exact Or.inl (Or.inr hpreserved)
  · exact Or.inr hcall

/-- Protecting what stands now keeps a state sound. -/
theorem Sound.protecting (hnow : law.Now kind state ref) :
    law.Sound (state.protecting ref) := by
  refine hstate.of_same (sameStore_protecting state ref) (fun other hother => ?_) hstate.contexts
    (hstate.calls_of_same (sameStore_protecting state ref) List.suffix_rfl)
  simp only [Interpreter.protecting, RootStack.edges, RootStack.protect, Array.toList_push,
    List.map_append, List.mem_append, List.map_cons, List.map_nil, List.mem_singleton] at hother
  rcases hother with (hentry | rfl) | hpreserved
  · exact hstate.roots other (List.mem_append_left _ hentry)
  · exact law.has_within (Kind.within_any _) hnow
  · exact hstate.roots other (List.mem_append_right _ hpreserved)

omit hstate in
/-- What is protected is kept. -/
theorem kept_protecting (hnow : law.Now kind state ref) :
    law.Kept kind (state.protecting ref) ref := by
  have hlater := law.has_same (sameStore_protecting state ref) hnow
  exact law.has_root hlater (law.mem_held_protecting state ref List.mem_cons_self)

/-- A reference is held, if the law asks for that. -/
def Rooted (law : RefLaw) (state : Interpreter) (ref : Ref) : Prop :=
  law.balanced → ref ∈ law.held state

omit hstate in
/-- A reference on the root stack that stands now is kept. -/
theorem kept_of_rooted (hnow : law.Now kind state ref)
    (hrooted : law.Rooted state ref) :
    law.Kept kind state ref := by
  by_cases hbalanced : law.balanced
  · exact law.has_root hnow (hrooted hbalanced)
  · exact (law.unbalanced hbalanced).has _ _ _ _

omit hstate in
/-- It remains on the root stack as long as the region is open. -/
theorem lasting_rooted (law : RefLaw) : law.Lasting law.Rooted :=
  fun _ _ _ _ _ hreach hrooted hbalanced => hreach.held_subset hbalanced (hrooted hbalanced)

/-- Protecting reaches the state with one more root. -/
theorem reaches_protecting (hnow : law.Now kind state ref) :
    law.Reaches .protecting state (state.protecting ref) := by
  refine ⟨fun _ => ⟨⟨rfl, ?_, rfl⟩, rfl⟩, law.step_same (sameStore_protecting state ref),
    hstate.protecting hnow⟩
  show _ <+: (state.roots.entries.push _).toList
  rw [Array.toList_push]
  exact List.prefix_append _ _

/-- After it is protected, what stood for the moment is kept. -/
theorem agree_protect (hnow : law.Now kind state ref) :
    law.Obeys .protecting (fun after _ => law.Kept kind after ref ∧ law.Rooted after ref) state
      (protect ref) :=
  .of_ok rfl rfl (reaches_protecting hstate hnow)
    ⟨kept_protecting hnow, fun _ => law.mem_held_protecting state ref List.mem_cons_self⟩

/-- A protected vector of texts is kept, and names what its texts tell. -/
theorem agree_protectedNames (values : List String) :
    law.Obeys .protecting (fun after ref => law.Kept .value after ref ∧
        ∀ name, law.tells name values → law.named (.held (law.held after)) name after ref) state
      (protectedStrings values) := by
  refine (agree_allocNames hstate values).bind fun ref middle hreach hnow => ?_
  refine .of_ok rfl rfl (reaches_protecting hreach.sound hnow.1) ⟨kept_protecting hnow.1,
    fun name htells => law.named_root ?_ (law.mem_held_protecting middle ref List.mem_cons_self)⟩
  exact law.named_same (sameStore_protecting middle ref) (hnow.2 name htells)

/-- The same with the names left out. -/
theorem agree_protectedStrings (values : List String) :
    law.Obeys .protecting (law.Kept .value) state (protectedStrings values) :=
  (agree_protectedNames hstate values).weaken fun _ _ _ hkept => hkept.1

/-- An argument made of a protected reference is kept. -/
theorem agree_protectedArg (tag : Option Symbol)
    (hnow : law.Now kind state ref) :
    law.Obeys .protecting (law.ArgKept kind) state (protectedArg tag ref) :=
  (agree_protect hstate hnow).bind fun _ _ hreach hkept =>
    .pure hreach.sound (eachKept_some hkept.1)

omit hstate in
/-- What is evaluated with a reference protected keeps to the law with that
reference held. -/
theorem coincide_protected {α : Type} {post : Interpreter → α → Prop}
    {action twin : Eval α}
    (haction : law.Agree .settled post (state.protecting ref) action twin)
    (hpost : Rootless post) :
    law.Coincide (fun after => law.Reaches .settled state after ∧
        law.step (ref :: law.held state) state after) post state
      (withRoots do
        let _ ← protect ref
        action)
      (withRoots do
        let _ ← protect ref
        twin) := by
  have hpushed : ∀ {middle}, law.balanced → law.Reaches .settled (state.protecting ref) middle →
      state.roots.entries.toList <+: middle.roots.entries.toList := by
    intro middle hbalanced hreach
    have hroots : middle.roots.entries = state.roots.entries.push _ :=
      (hreach.keeps hbalanced).1.roots
    rw [hroots, Array.toList_push]
    exact List.prefix_append _ _
  have hregion : law.Coincide (law.Reaches .settled (state.protecting ref)) post state
      (do let _ ← protect ref; action) (do let _ ← protect ref; twin) :=
    .of_eq (bind_of_ok rfl) (bind_of_ok rfl) haction
  refine hregion.withRoots
    (fun middle hreach hbalanced => (hpushed hbalanced hreach).length_le) (fun middle hreach => ?_)
    hpost
  have hstep : law.step (ref :: law.held state) state
      (middle.withEntries (middle.roots.entries.shrink state.roots.depth)) :=
    law.step_trans (step_trans_of_held (law.step_same (sameStore_protecting state ref))
      (fun _ => law.mem_held_protecting state ref) hreach.step)
      (law.step_same (.of_eq rfl rfl rfl rfl rfl))
  refine ⟨⟨fun hbalanced => ?_, law.step_mono (List.subset_cons_self _ _) hstep,
    hreach.sound.shrink _⟩, hstep⟩
  obtain ⟨hkeeps, hcalls⟩ := hreach.keeps hbalanced
  exact ⟨⟨hcalls, shrink_of_extends (hpushed hbalanced hreach), hkeeps.preserved⟩, hcalls⟩

omit hstate

/-! ## Frames -/

section Frames

variable {has : Kind → Ref → Prop} {loose : Prop} {dots : Symbol} {frame : Frame}

/-- A frame stays well formed when a well-formed binding enters it. -/
theorem meets_insert (hframe : frame.Meets has loose dots) {binding : Binding}
    (hbinding : binding.Meets has loose (.ofSymbol dots symbol)) :
    (frame.insert symbol binding).Meets has loose dots := by
  intro entry hentry
  rcases mem_putEntry hentry with rfl | hold
  · exact hbinding
  · exact hframe entry hold

/-- What a frame promises after a symbol was bound. -/
theorem mem_promised_insert {binding : Binding}
    (href : ref ∈ (frame.insert symbol binding).promised) :
    ref ∈ frame.promised ∨ binding.promised? = some ref := by
  obtain ⟨entry, hentry, hvalue⟩ := List.mem_filterMap.mp href
  rcases mem_putEntry hentry with rfl | hold
  · exact Or.inr hvalue
  · exact Or.inl (List.mem_filterMap.mpr ⟨entry, hold, hvalue⟩)

/-- Binding a value makes no new promise to a formal. -/
theorem promised_bind_subset (frame : Frame) (symbol : Symbol) (value : Ref) :
    (frame.bind symbol value).promised ⊆ frame.promised := by
  intro ref href
  rcases mem_promised_insert href with hold | hnew
  · exact hold
  · cases hnew

/-- Nor does filling in what was not supplied. -/
theorem promised_bindAbsent_subset (frame : Frame)
    (supplied : List (Symbol × Ref)) :
    (frame.bindAbsent supplied).promised ⊆ frame.promised := by
  unfold Frame.bindAbsent
  induction supplied generalizing frame with
  | nil => exact List.Subset.refl _
  | cons entry rest ih =>
      obtain ⟨symbol, value⟩ := entry
      rw [List.foldl_cons]
      refine List.Subset.trans (ih _) ?_
      dsimp only
      split
      · exact List.Subset.refl _
      · exact promised_bind_subset frame symbol value

/-- A binding to a reference of its kind is well formed. -/
theorem meets_bound {kind : Kind} (hhas : has kind ref) :
    (Binding.bound ref).Meets has loose kind := by
  refine ⟨fun other hother => ?_, nofun⟩
  cases hother
  exact hhas

/-- Filling in what was not supplied keeps a frame well formed. -/
theorem meets_bindAbsent (hframe : frame.Meets has loose dots)
    {supplied : List (Symbol × Ref)}
    (hsupplied : ∀ entry ∈ supplied, has (.ofSymbol dots entry.1) entry.2) :
    (frame.bindAbsent supplied).Meets has loose dots := by
  unfold Frame.bindAbsent
  induction supplied generalizing frame with
  | nil => exact hframe
  | cons entry rest ih =>
      obtain ⟨symbol, value⟩ := entry
      rw [List.foldl_cons]
      refine ih ?_ fun other hother => hsupplied other (List.mem_cons_of_mem _ hother)
      dsimp only
      split
      · exact hframe
      · exact meets_insert hframe (meets_bound (hsupplied _ List.mem_cons_self))

end Frames

/-! ## Assignments

An assignment may replace a binding.  Where a law does not let bindings be
replaced the state is sound afterwards all the same, only references may have
been let go of. -/

section Assignments

variable {reach : Interpreter → Prop} (hstate : law.Sound state) (hstays : reach state)
  (hreach : ∀ {env : Ref} {found : Environment} {attributes : List (Symbol × Ref)} {frame : Frame},
    state.heap.get? env = some ⟨.environment found, attributes⟩ →
    frame.promised ⊆ found.frame.promised →
    (∀ symbol, ¬law.binds symbol → frame.find? symbol = found.frame.find? symbol) →
    law.Sound (state.amend env (.become (.environment ⟨found.parent, frame⟩))) →
    reach (state.amend env (.become (.environment ⟨found.parent, frame⟩))))

include hstate

/-- A binding may be replaced. -/
theorem reaches_frame {found : Environment} {attributes : List (Symbol × Ref)} {frame : Frame}
    (hget : state.heap.get? env = some ⟨.environment found, attributes⟩)
    (hpromised : frame.promised ⊆ found.frame.promised)
    (hfind : ∀ symbol, ¬law.binds symbol → frame.find? symbol = found.frame.find? symbol)
    (hsound : law.Sound (state.amend env (.become (.environment ⟨found.parent, frame⟩)))) :
    law.Reaches scope state (state.amend env (.become (.environment ⟨found.parent, frame⟩))) :=
  reaches_of_step hstate (law.step_frame frame hstate.inv hget hpromised hfind) hsound.inv
    rfl rfl

include hstays hreach

/-- A definition writes one scope, and leaves each reference standing that
stood. -/
theorem coincide_defineVar (henv : law.Now .environment state env)
    (hbinds : law.binds symbol) (hvalue : law.Now .value state ref) :
    law.Coincide reach (fun after _ => ∀ kind ref, law.Now kind state ref → law.Now kind after ref)
      state (defineVar env symbol ref) (defineVar env symbol ref) := by
  refine .lift_bind hstays (answers_environmentAt henv) fun found hshows => ?_
  obtain ⟨attributes, hget⟩ := hshows
  have hframe : (found.frame.bind symbol ref).Meets (law.Now · state) law.loose
      state.reserved.dots :=
    meets_insert (hstate.holds henv ⟨attributes, hget⟩).2
      (meets_bound (law.has_within (Kind.value_within_ofSymbol _ symbol) hvalue))
  have hupdate := update_of_get? hget
    (.become (.environment ⟨found.parent, found.frame.bind symbol ref⟩))
  have hpromised := promised_bind_subset found.frame symbol ref
  have hfind : ∀ other, ¬law.binds other →
      (found.frame.bind symbol ref).find? other = found.frame.find? other := by
    intro other hother
    refine Frame.find?_insert_of_ne _ _ fun heq => hother ?_
    rw [heq]
    exact hbinds
  exact .of_ok hupdate hupdate (hreach hget hpromised hfind
    (hstate.amend hget ⟨rfl, rfl, rfl⟩ (law.inv_frame _ hstate.inv hget hframe hpromised)
      (law.calls_amend hstate.inv hstate.calls hget (.frame found _ hfind))))
    fun _ _ hnow => law.has_amend hnow hget ⟨rfl, rfl, rfl⟩

/-- A super assignment does so in the scope it stops at; the induction is on the
scopes it may still pass. -/
theorem coincide_setVarFrom (hbinds : law.binds symbol)
    (hvalue : law.Now .value state ref) (budget : Nat) {cursor : Option Ref}
    (hcursor : ∀ env ∈ cursor, law.Now .environment state env) :
    law.Coincide reach (fun after _ => ∀ kind ref, law.Now kind state ref → law.Now kind after ref)
      state (setVarFrom symbol ref budget cursor) (setVarFrom symbol ref budget cursor) := by
  have hglobal := coincide_defineVar hstate hstays hreach (law.has_now (kept_global hstate)) hbinds
    hvalue
  induction budget generalizing cursor with
  | zero =>
      cases cursor with
      | none => exact .of_eq (bind_of_ok rfl) (bind_of_ok rfl) hglobal
      | some env => exact .of_outOfFuel rfl (Or.inl rfl)
  | succ budget ih =>
      cases cursor with
      | none => exact .of_eq (bind_of_ok rfl) (bind_of_ok rfl) hglobal
      | some env =>
          have henv := hcursor env rfl
          refine .lift_bind hstays (answers_environmentAt henv) fun found hshows => ?_
          split
          · exact coincide_defineVar hstate hstays hreach henv hbinds hvalue
          · exact ih (hstate.parent henv hshows)

/-- A super assignment from the scope of a call. -/
theorem coincide_setVar (henv : law.Now .environment state env)
    (hbinds : law.binds symbol) (hvalue : law.Now .value state ref) :
    law.Coincide reach (fun after _ => ∀ kind ref, law.Now kind state ref → law.Now kind after ref)
      state (setVar env symbol ref) (setVar env symbol ref) := by
  refine .lift_bind hstays answers_walkBudget fun budget _ => ?_
  refine .lift_bind hstays (answers_environmentAt henv) fun _ hshows => ?_
  exact coincide_setVarFrom hstate hstays hreach hbinds hvalue budget
    (hstate.parent henv hshows)

end Assignments

/-! ## Objects that are completed -/

/-- The attribute of an object that was allocated on the way. -/
theorem coincide_completed (hstate : law.Sound state) {object : HeapObject} {heap : Heap}
    {middle : Interpreter}
    (hheap : state.heap.allocate object state.rootRefs = .ok ref heap)
    (hstep : law.step (law.held state) { state with heap } middle)
    (hmiddle : law.Reaches scope state middle) (name : Symbol) {value : Ref}
    (hknown : law.Now kind middle ref) (hvalue : law.Now .value middle value) :
    law.Coincide (law.Reaches scope state)
      (fun after found => found = ref ∧ law.Now kind after ref ∧
        after = middle.amend ref (·.setAttribute name value)) middle
      (do update ref (·.setAttribute name value); return ref)
      (do update ref (·.setAttribute name value); return ref) := by
  cases hget : middle.heap.get? ref with
  | none =>
      have hstale : fetch ref middle = .error (.fault (.staleReference ref)) := by
        unfold fetch
        rw [hget]
      have hfails : ∀ {rest : Unit → Eval Ref},
          (update ref (·.setAttribute name value) >>= rest) middle =
            .error (.fault (.staleReference ref)) middle :=
        bind_of_error (bind_of_error (lift_of_error hstale))
      exact .of_fault hfails hfails (law.fault_missing hknown hget).1
  | some found =>
      have hupdate : (do update ref (·.setAttribute name value); return ref : Eval Ref)
          middle = _ := bind_of_ok (update_of_get? hget _)
      have hinv : law.inv (middle.amend ref (·.updateAttribute name (some value))) := by
        refine law.inv_attribute name _ hmiddle.sound.inv hget fun cls hcls => ?_
        cases hcls
        exact hvalue
      have hcompletes := law.on_complete name (some value) hstate.inv
        (law.held_subset_rootRefs state) hheap hstep hmiddle.step
      exact .of_ok hupdate hupdate
        (hmiddle.amend hget ⟨rfl, rfl, rfl⟩ hcompletes hinv (.same found.payload))
        ⟨rfl, law.has_amend hknown hget ⟨rfl, rfl, rfl⟩, rfl⟩

/-- An object is allocated, something else happens, and then the object gets an
attribute. -/
theorem agree_complete {β : Type} (hstate : law.Sound state) {object : HeapObject}
    (hobject : law.MeetsNow state object) (hkind : kind.Admits object.payload)
    {prepare : Ref → Eval β} (name : β → Symbol) (value : β → Ref)
    {extra : Interpreter → Ref → Prop}
    (hextra : ∀ state ref change, extra state ref → extra (Interpreter.amend state ref change) ref)
    (hprepare : ∀ ref middle, law.Sound middle → law.Now kind middle ref →
      law.Obeys scope (fun after result => law.Now kind after ref ∧ extra after ref ∧
        law.Now .value after (value result)) middle (prepare ref)) :
    law.Obeys scope (fun after ref => law.Now kind after ref ∧ extra after ref) state
      (allocateCompleted object prepare name value) := by
  cases hheap : state.heap.allocate object state.rootRefs with
  | error cause heap =>
      have hfails : allocateCompleted object prepare name value state = _ :=
        bind_of_error (allocate_of_error hheap)
      exact .of_fault hfails hfails (law.fault_allocate hheap)
  | ok ref heap =>
      have hruns : allocateCompleted object prepare name value state = _ :=
        bind_of_ok (allocate_of_ok hheap)
      obtain ⟨hallocated, hfresh⟩ := hstate.allocated scope hobject hheap
      have hprepared := hprepare ref _ hallocated.sound (hfresh kind (Or.inl hkind))
      refine .of_eq hruns hruns (hprepared.bind_of (fun _ hreach => hallocated.trans hreach)
        fun result middle hreach hresult => ?_)
      obtain ⟨hknown, hmore, hvalue⟩ := hresult
      refine (coincide_completed hstate hheap hreach.step (hallocated.trans hreach) (name result)
        hknown hvalue).imp (fun _ hafter => hafter) fun after found _ hfound => ?_
      obtain ⟨rfl, hnow, rfl⟩ := hfound
      exact ⟨hnow, hextra _ _ _ hmore⟩

end RefLaw

end LazyDispatch
