import LazyDispatch.Proofs.RefLookup

/-!
# Closures under a reference law

A call holds on to its function, its arguments and its caller until it ends.
The frame that is made for a closure is held by its call, and it is complete
before the body runs.
-/

namespace LazyDispatch

/-- A call that begins holds on to more. -/
theorem Terms.held_subset_cons (terms : Terms) (state : Interpreter) (context : CallContext) :
    terms.held state ⊆ terms.held { state with contexts := context :: state.contexts } := by
  unfold Terms.held
  refine List.append_subset.mpr ⟨List.subset_append_left _ _,
    List.subset_append_of_subset_right _ ?_⟩
  cases terms.deep with
  | true => exact List.subset_append_right _ _
  | false => exact List.nil_subset _

namespace RefLaw

open Eval

variable {law : RefLaw} {state : Interpreter} {scope : Scope} {kind : Kind} {ref env : Ref}

/-! ## Calls in progress -/

/-- How a step leaves the state within a call that was begun. -/
structure Inside (law : RefLaw) (begun after : Interpreter) : Prop where
  keeps : law.balanced → begun.Keeps .entering after
  step : law.step (law.held begun) begun after
  sound : law.Sound after

/-- What was kept before a call began is kept in it. -/
theorem kept_begun (context : CallContext) (hkept : law.Kept kind state ref) :
    law.Kept kind { state with contexts := context :: state.contexts } ref := by
  have hsame : state.SameStore { state with contexts := context :: state.contexts } :=
    .of_eq rfl rfl rfl rfl rfl
  exact law.has_mono (law.held_subset_cons state context) (law.has_same hsame hkept)

/-- A call that starts keeps a state sound. -/
theorem Sound.begin (hstate : law.Sound state) {context : CallContext}
    (hcontext : context.Meets (law.Now · state) law.expr)
    (hplace : context.kind = .internal ∨ context.env = none) :
    law.Sound { state with contexts := context :: state.contexts } := by
  refine hstate.of_same (.of_eq rfl rfl rfl rfl rfl) hstate.roots (fun other hother => ?_)
    (law.calls_begin hstate.calls hplace)
  rcases List.mem_cons.mp hother with rfl | houter
  · exact hcontext
  · exact hstate.contexts other houter

/-- A settled step stays inside of the innermost call. -/
theorem Agree.inside {α : Type} {post : Interpreter → α → Prop}
    {action twin : Eval α} (haction : law.Agree .settled post state action twin)
    :
    law.Coincide (law.Inside state) post state action twin := by
  refine haction.imp ?_ fun _ _ _ hvalue => hvalue
  intro after hafter
  exact ⟨fun hbalanced => (hafter.keeps hbalanced).1.of_settled, hafter.step,
    hafter.sound⟩

/-- How a call leaves the state: the calls are as before, and the roots as
before or cut back to the depth at which the call says that it began. -/
structure AfterCall (law : RefLaw) (depth : Nat) (state after : Interpreter) :
    Prop where
  calls : law.balanced → after.contexts = state.contexts
  roots : law.balanced → after.roots.entries = state.roots.entries ∨
    after.roots.entries = state.roots.entries.shrink depth
  preserved : law.balanced → after.roots.preserved = state.roots.preserved
  step : law.step (law.held state) state after
  sound : law.Sound after

section WithContext

variable {α : Type} {post : Interpreter → α → Prop} {action twin : Eval α} {context : CallContext}

/-- A call ends with its context taken off, and the roots of its depth. -/
theorem coincide_withContext (hstate : law.Sound state)
    (hdepth : law.balanced → context.rootDepth ≤ state.roots.depth)
    (haction : law.Coincide (law.Inside { state with contexts := context :: state.contexts }) post
      { state with contexts := context :: state.contexts } action twin)
    (hpost : Rootless post) :
    law.Coincide (law.AfterCall context.rootDepth state) post state (withContext context action)
      (withContext context twin) := by
  have hinnermost : ∀ {middle}, law.balanced →
      law.Inside { state with contexts := context :: state.contexts } middle →
      ∃ innermost, middle.contexts = innermost :: state.contexts ∧
        innermost.rootDepth = context.rootDepth :=
    fun hbalanced hinside => (hinside.keeps hbalanced).exists_innermost
  refine haction.withContext ⟨fun _ => rfl, fun _ => Or.inl rfl, fun _ => rfl,
    law.step_same (.of_eq rfl rfl rfl rfl rfl), hstate⟩ (fun middle hinside hbalanced => ?_)
    (fun middle innermost rest hinside hcalls => ?_) hpost
  · obtain ⟨innermost, hcalls, hsame⟩ := hinnermost hbalanced hinside
    have hroots : middle.roots.entries = state.roots.entries := (hinside.keeps hbalanced).roots
    refine ⟨innermost, state.contexts, hcalls, ?_⟩
    rw [hsame, RootStack.depth, hroots]
    exact hdepth hbalanced
  · have hbegun : state.SameStore { state with contexts := context :: state.contexts } :=
      .of_eq rfl rfl rfl rfl rfl
    have hended : middle.SameStore (middle.ended innermost rest) := .of_eq rfl rfl rfl rfl rfl
    have hheld := law.held_subset_cons state context
    refine ⟨fun hbalanced => ?_, fun hbalanced => Or.inr ?_,
      fun hbalanced => (hinside.keeps hbalanced).preserved, ?_, ?_⟩
    · obtain ⟨_, hsome, -⟩ := hinnermost hbalanced hinside
      cases hcalls.symm.trans hsome
      rfl
    · obtain ⟨_, hsome, hsame⟩ := hinnermost hbalanced hinside
      cases hcalls.symm.trans hsome
      have hroots : middle.roots.entries = state.roots.entries := (hinside.keeps hbalanced).roots
      show middle.roots.entries.shrink _ = _
      rw [hsame, hroots]
    · exact law.step_trans (law.step_same hbegun)
        (law.step_trans (law.step_mono hheld hinside.step) (law.step_same hended))
    · have hshrunk := hinside.sound.shrink innermost.rootDepth
      have hrest : rest <:+ middle.contexts := by
        rw [hcalls]
        exact List.suffix_cons innermost rest
      have hsame : (middle.withEntries (middle.roots.entries.shrink innermost.rootDepth)).SameStore
          (middle.ended innermost rest) := .of_eq rfl rfl rfl rfl rfl
      exact hshrunk.of_same hsame hshrunk.roots
        (fun outer houter => hshrunk.contexts outer (hrest.subset houter))
        (hshrunk.calls_of_same hsame hrest)

/-- A call that begins at the top of the root stack is settled. -/
theorem agree_withContext (hstate : law.Sound state)
    (hdepth : context.rootDepth = state.roots.depth) (haction : law.Coincide
    (law.Inside { state with contexts := context :: state.contexts }) post
    { state with contexts := context :: state.contexts } action twin)
    (hpost : Rootless post) :
    law.Agree .settled post state (withContext context action)
      (withContext context twin) := by
  refine (coincide_withContext hstate (fun _ => Nat.le_of_eq hdepth)
    haction hpost).imp (fun after hafter =>
    ⟨fun hbalanced =>
      ⟨⟨hafter.calls hbalanced, ?_, hafter.preserved hbalanced⟩,
        hafter.calls hbalanced⟩, hafter.step, hafter.sound⟩) fun _ _ _ hvalue =>
    hvalue
  rcases hafter.roots hbalanced with hsame | hshrunk
  · exact hsame
  · rw [hdepth, RootStack.depth, shrink_of_extends (List.prefix_refl _)] at hshrunk
    exact hshrunk

end WithContext

/-! ## Closures -/

/-- What a formal receives holds references with a property. -/
def MatchedMeets (p : Ref → Prop) : Matched → Prop
  | .supplied value => p value
  | .missing => True
  | .dots args => ArgsMeet p args

/-- Formals receive what the arguments hold, and only `...` gathers arguments. -/
theorem matchArgs_eq_ok {names : Symbol → String} {dots : Symbol} {formals : List Formal}
    {actuals : List Arg} {matched : List Matched} {p : Ref → Prop} (hargs : ArgsMeet p actuals)
    (hok : matchArgs names dots formals actuals = .ok matched) :
    (∀ received ∈ matched, MatchedMeets p received) ∧
      ∀ pair ∈ formals.zip matched, ∀ args, pair.2 = .dots args → pair.1.name = dots := by
  have hreceived : ∀ index, MatchedMeets p (Matching.received actuals index) ∧
      ∀ args, Matching.received actuals index ≠ .dots args := by
    intro index
    unfold Matching.received
    split
    · next tag value hactual =>
        obtain ⟨place, -, hplace⟩ := Option.bind_eq_some_iff.mp hactual
        exact ⟨hargs _ (List.mem_of_getElem? hplace) value rfl, nofun⟩
    · exact ⟨trivial, nofun⟩
  simp only [matchArgs, bind, Except.bind] at hok
  split at hok
  · cases hok
  split at hok
  · cases hok
  split at hok
  · cases hok
  next exactly _ _ partly _ _ =>
  cases hok
  refine ⟨fun received hmem => ?_, fun pair hpair args hdots => ?_⟩
  · obtain ⟨⟨index, place⟩, -, rfl⟩ := List.mem_map.mp hmem
    dsimp only
    split
    · intro arg harg
      obtain ⟨unused, -, hunused⟩ := List.mem_filterMap.mp harg
      exact hargs arg (List.mem_of_getElem? hunused)
    · exact (hreceived index).1
  · obtain ⟨place, hplace⟩ := List.mem_iff_getElem?.mp hpair
    obtain ⟨hformal, hmatched⟩ := List.getElem?_zip_eq_some.mp hplace
    rw [List.getElem?_map, List.getElem?_zipIdx] at hmatched
    obtain ⟨⟨index, _⟩, hindex, hsecond⟩ := Option.map_eq_some_iff.mp hmatched
    obtain ⟨_, -, hpair⟩ := Option.map_eq_some_iff.mp hindex
    cases hpair
    dsimp only at hsecond
    split at hsecond
    · next hdotsPlace =>
        rw [Nat.zero_add] at hdotsPlace
        obtain ⟨hlt, hname, -⟩ := List.findIdx?_eq_some_iff_getElem.mp hdotsPlace
        rw [List.getElem?_eq_getElem hlt] at hformal
        rw [← Option.some.inj hformal]
        exact of_decide_eq_true hname
    · exact absurd (hsecond.trans hdots) ((hreceived index).2 args)

/-- A call that has begun, and nobody has said yet where it works. -/
structure Begun (law : RefLaw) (context : CallContext) (rest : List CallContext)
    (state : Interpreter) : Prop where
  sound : law.Sound state
  calls : state.contexts = context :: rest
  kind : context.kind = .function
  env : context.env = none

/-- A state in which the frame of a closure that was called is being made. -/
structure Entered (law : RefLaw) (begun : Interpreter) (env : Ref)
    (state : Interpreter) : Prop where
  calls : law.balanced → state.contexts = (begun.workingIn env).contexts
  roots : law.balanced → state.roots.entries = begun.roots.entries ∧
    state.roots.preserved = begun.roots.preserved
  step : law.step (law.held begun) begun state
  sound : law.Sound state

section Entering

variable {begun : Interpreter} {context : CallContext} {rest : List CallContext}

/-- Inside of the new environment all that the call held is held. -/
theorem Entered.held_subset (hentered : law.Entered begun env state)
    (hbegun : law.Begun context rest begun) (hbalanced : law.balanced) :
    law.held begun ⊆ law.held state := by
  obtain ⟨hentries, hpreserved⟩ := hentered.roots hbalanced
  have hcalls := hentered.calls hbalanced
  simp only [Interpreter.workingIn, hbegun.calls] at hcalls
  intro other hother
  simp only [Terms.held, RootStack.edges, hcalls, hbegun.calls, hentries, hpreserved,
    List.mem_append] at hother ⊢
  refine hother.imp_right fun hcall => ?_
  cases hdeep : law.deep with
  | false =>
      rw [hdeep] at hcall
      cases hcall
  | true =>
      simp only [hdeep, cond_true, List.flatMap_cons, CallContext.edges,
        hbegun.env, List.mem_append, List.mem_cons, Option.toList_none,
        List.nil_append] at hcall ⊢
      tauto

/-- So what was kept is kept. -/
theorem Entered.kept (hentered : law.Entered begun env state)
    (hbegun : law.Begun context rest begun) (hkept : law.Kept kind begun ref) :
    law.Kept kind state ref := by
  by_cases hbalanced : law.balanced
  · exact law.has_mono (hentered.held_subset hbegun hbalanced)
      (law.has_step hbegun.sound.inv hentered.step hkept)
  · exact (law.unbalanced hbalanced).has _ _ _ _

/-- The frame is where the call works. -/
theorem Entered.kept_env (hentered : law.Entered begun env state)
    (hbegun : law.Begun context rest begun) :
    law.Kept .environment state env := by
  by_cases hbalanced : law.balanced
  · have hcalls := hentered.calls hbalanced
    simp only [Interpreter.workingIn, hbegun.calls] at hcalls
    have hmem : { context with env := some env } ∈ state.contexts := by
      rw [hcalls]
      exact List.mem_cons_self
    exact (hentered.sound.kept_context hmem).env env rfl
  · exact (law.unbalanced hbalanced).has _ _ _ _

/-- It stays so through a settled step. -/
theorem Entered.trans {after : Interpreter} (hentered : law.Entered begun env state)
    (hbegun : law.Begun context rest begun) (hreach : law.Reaches .settled state after) :
    law.Entered begun env after := by
  refine ⟨fun hbalanced => ?_, fun hbalanced => ?_, step_trans_of_held hentered.step
    (hentered.held_subset hbegun) hreach.step, hreach.sound⟩
  · exact (hreach.keeps hbalanced).2.trans (hentered.calls hbalanced)
  · obtain ⟨hentries, hpreserved⟩ := hentered.roots hbalanced
    obtain ⟨-, hroots, hsame⟩ := (hreach.keeps hbalanced).1
    exact ⟨Eq.trans hroots hentries, hsame.trans hpreserved⟩

/-- The innermost call is still the one that began. -/
theorem Entered.inside (hentered : law.Entered begun env state)
    (hbegun : law.Begun context rest begun) : law.Inside begun state := by
  refine ⟨fun hbalanced => ?_, hentered.step, hentered.sound⟩
  obtain ⟨hentries, hpreserved⟩ := hentered.roots hbalanced
  have hcalls := hentered.calls hbalanced
  simp only [Interpreter.workingIn, hbegun.calls] at hcalls
  refine ⟨?_, hentries, hpreserved⟩
  rw [hcalls, hbegun.calls]
  exact ⟨rfl, rfl⟩

variable {object : HeapObject} {heap : Heap} (hbegun : law.Begun context rest begun)
  (hheap : begun.heap.allocate object begun.rootRefs = .ok env heap)

include hbegun hheap

/-- The frame that is being made may change. -/
theorem coincide_updateFrame (hentered : law.Entered begun env state) {change : Frame → Frame}
    (hchange : ∀ frame : Frame, frame.Meets (law.Now · state) law.loose state.reserved.dots →
      (change frame).Meets (law.Now · state) law.loose state.reserved.dots)
    (hpromised : ∀ frame : Frame, ∀ value ∈ (change frame).promised,
      value ∈ frame.promised ∨ law.Now .operand begun value)
    (hcalls : ∀ found attributes, state.heap.get? env = some ⟨.environment found, attributes⟩ →
      law.calls (state.amend env (.become (.environment ⟨found.parent, change found.frame⟩)))) :
    law.Coincide (law.Entered begun env) (fun _ _ => True) state (updateFrame env change)
      (updateFrame env change) := by
  have henv := hentered.kept_env hbegun
  refine .lift_bind hentered (answers_environmentAt (law.has_now henv)) fun found hshows => ?_
  have hframe := hchange _ (hentered.sound.holds (law.has_now henv) hshows).2
  obtain ⟨attributes, hget⟩ := hshows
  have hupdate := update_of_get? hget (.become (.environment ⟨found.parent, change found.frame⟩))
  obtain ⟨hstep, hinv⟩ := law.on_frame _ hbegun.sound.inv (law.held_subset_rootRefs begun) hheap
    hentered.step hentered.sound.inv hget hframe (hpromised found.frame)
  exact .of_ok hupdate hupdate ⟨hentered.calls, hentered.roots, hstep,
    hentered.sound.amend hget ⟨rfl, rfl, rfl⟩ hinv (hcalls found attributes hget)⟩ trivial

/-- What is known of a formal and what it receives. -/
structure FormalMeets (law : RefLaw) (begun : Interpreter) (formal : Formal)
    (received : Matched) :
    Prop where
  default : ∀ default ∈ formal.default, law.expr default
  matched : MatchedMeets (law.Kept .operand begun) received
  dots : ∀ args, received = .dots args → formal.name = begun.reserved.dots
  binds : law.binds formal.name

omit hheap in
/-- A formal is bound to what matching gave it. -/
theorem agree_formalBinding (hentered : law.Entered begun env state) {formal : Formal}
    {matched : Matched} (hformal : law.FormalMeets begun formal matched) :
    law.Obeys .settled (fun after binding => binding.Meets (law.Now · after) law.loose
        (.ofSymbol after.reserved.dots formal.name) ∧
        ∀ ref, binding.promised? = some ref → law.Now .operand begun ref) state
      (formalBinding env formal matched) := by
  have hstate := hentered.sound
  have hmissing : (Binding.missing none).Meets (law.Now · state) law.loose
      (.ofSymbol state.reserved.dots formal.name) := ⟨(fun _ href => nomatch href), nofun⟩
  unfold formalBinding
  cases matched with
  | supplied value =>
      have hkept := hentered.kept hbegun hformal.matched
      refine .lift_bind hstate (answers_payload (law.has_now hkept)) fun found hshows => ?_
      have hother : (law.Now .operand state value → law.Now .value state value) →
          (Binding.bound value).Meets (law.Now · state) law.loose
            (.ofSymbol state.reserved.dots formal.name) := fun hvalue =>
        meets_bound (law.has_within (Kind.value_within_ofSymbol _ _) (hvalue (law.has_now hkept)))
      cases found with
      | promise deferred =>
          refine .pure hstate ⟨⟨fun ref href => ?_, nofun⟩, fun ref href => ?_⟩
          · cases href
            exact hstate.sharpen (law.has_now hkept) hshows rfl
          · cases href
            exact law.has_now hformal.matched
      | _ =>
          exact .pure hstate ⟨hother fun hnow => hstate.operand hnow hshows rfl, nofun⟩
  | missing =>
      cases hdefault : formal.default with
      | none => exact .pure hstate ⟨hmissing, nofun⟩
      | some default =>
          refine (agree_allocPromise hstate (hformal.default default hdefault)
            (law.has_now (hentered.kept_env hbegun))).bind fun promised middle hreach hnow =>
              .pure hreach.sound ⟨⟨fun ref href => ?_, nofun⟩, nofun⟩
          cases href
          exact hnow
  | dots args =>
      cases args with
      | nil => exact .pure hstate ⟨hmissing, nofun⟩
      | cons arg args =>
          have hargs : (Object.dots (arg :: args)).Meets (law.Now · state) law.loose law.expr
              state.reserved.dots := fun arg harg ref href =>
            law.has_now (hentered.kept hbegun (hformal.matched arg harg ref href))
          refine (agree_allocPayload hstate hargs nofun).bind fun gathered middle hreach hfresh =>
            .pure hreach.sound ⟨meets_bound ?_, nofun⟩
          rw [hformal.dots _ rfl]
          exact law.has_dots (hentered.trans hbegun hreach).step (hfresh _ rfl)

/-- All the formals are; the induction is on those that are left. -/
theorem coincide_bindFormals (hentered : law.Entered begun env state)
    {formals : List (Formal × Matched)}
    (hformals : ∀ pair ∈ formals, law.FormalMeets begun pair.1 pair.2) :
    law.Coincide (law.Entered begun env) (fun _ _ => True) state (bindFormals env formals)
      (bindFormals env formals) := by
  induction formals generalizing state with
  | nil => exact .of_ok rfl rfl hentered trivial
  | cons pair formals ih =>
      have hbinding := agree_formalBinding hbegun hentered (hformals pair List.mem_cons_self)
      have hfirst : law.Coincide (law.Entered begun env) (fun _ _ => True) state (do
          let binding ← formalBinding env pair.1 pair.2
          updateFrame env (·.insert pair.1.name binding)) (do
          let binding ← formalBinding env pair.1 pair.2
          updateFrame env (·.insert pair.1.name binding)) :=
        hbinding.bind_of (fun _ hreach => hentered.trans hbegun hreach)
          fun binding middle hreach hbound => by
            have hmiddle := hentered.trans hbegun hreach
            refine coincide_updateFrame hbegun hheap hmiddle
              (fun _ hframe => meets_insert hframe hbound.1)
              (fun _ value hvalue => (mem_promised_insert hvalue).imp_right (hbound.2 value))
              fun found _ hget => law.calls_amend hmiddle.sound.inv hmiddle.sound.calls hget
                (.frame found _ fun symbol hsymbol => ?_)
            refine Frame.find?_insert_of_ne _ _ fun heq => hsymbol ?_
            rw [heq]
            exact (hformals pair List.mem_cons_self).binds
      exact hfirst.bind_of (fun _ hafter => hafter) fun _ middle hmiddle _ =>
        ih hmiddle fun other hother => hformals other (List.mem_cons_of_mem _ hother)

end Entering

section Closures

variable {begun : Interpreter} {context : CallContext} {rest : List CallContext} {closure : Closure}
  {matched : List Matched} {supplied : List (Symbol × Ref)}

/-- What a call is given is still known once it has begun. -/
theorem supplies_begun {call : Expr} (hgiven : law.Supplies state call supplied) :
    law.Supplies { state with contexts := context :: state.contexts } call supplied := by
  intro hnames
  rcases hgiven hnames with hempty | ⟨vars, head, name, hvars, hhead, hname, hnamed⟩
  · exact Or.inl hempty
  · have hsame : state.SameStore { state with contexts := context :: state.contexts } :=
      .of_eq rfl rfl rfl rfl rfl
    exact Or.inr ⟨vars, head, name, hvars, hhead, hname,
      law.named_mono (law.held_subset_cons state context) (law.named_same hsame hnamed)⟩

/-- The frame of a closure gets what its call is given. -/
theorem Entered.calls_supply {env : Ref} {found : Environment}
    {attributes : List (Symbol × Ref)} (hentered : law.Entered begun env state)
    (hbegun : law.Begun context rest begun)
    (hget : state.heap.get? env = some ⟨.environment found, attributes⟩)
    (hgiven : law.Supplies begun context.call supplied) :
    law.calls (state.amend env (.become (.environment ⟨found.parent,
      found.frame.bindAbsent supplied⟩))) := by
  by_cases hbalanced : law.balanced
  · have hcalls := hentered.calls hbalanced
    simp only [Interpreter.workingIn, hbegun.calls] at hcalls
    exact law.calls_supply hbegun.sound.inv hentered.sound.inv
      hentered.sound.calls hentered.step hcalls hbegun.kind rfl hget hgiven
  · exact (law.unbalanced hbalanced).calls _

/-- The frame of a closure is made where its call works. -/
theorem coincide_enterClosure (hbegun : law.Begun context rest begun)
    (henv : law.Kept .environment begun closure.env)
    (hformals : ∀ pair ∈ closure.formals.zip matched, law.FormalMeets begun pair.1 pair.2)
    (hsupplied : ∀ entry ∈ supplied, law.Kept .value begun entry.2)
    (hgiven : law.Supplies begun context.call supplied) :
    law.Coincide (law.Inside begun) (fun after env => law.Entered begun env after) begun
      (enterClosure closure matched supplied) (enterClosure closure matched supplied) := by
  have hinside : law.Inside begun begun :=
    ⟨fun _ => .of_eq rfl rfl, law.step_same (.of_eq rfl rfl rfl rfl rfl), hbegun.sound⟩
  have hframe : (Environment.inside (some closure.env)).frame.Meets (law.Now · begun) law.loose
      begun.reserved.dots := fun _ hentry => nomatch hentry
  have hobject : law.MeetsNow begun { payload := .environment (.inside (some closure.env)) } := by
    refine ⟨⟨fun parent hparent => ?_, hframe⟩, nofun, fun _ hentry => nomatch hentry⟩
    cases hparent
    exact law.has_now henv
  cases hheap : begun.heap.allocate { payload := .environment (.inside (some closure.env)) }
      begun.rootRefs with
  | error cause heap =>
      have hfails : enterClosure closure matched supplied begun = _ :=
        bind_of_error (allocate_of_error hheap)
      exact .of_fault hfails hfails (law.fault_allocate hheap)
  | ok env heap =>
      have hruns : enterClosure closure matched supplied begun = _ :=
        bind_of_ok (allocate_of_ok hheap)
      refine .of_eq hruns hruns (.of_eq (bind_of_ok rfl) (bind_of_ok rfl) ?_)
      obtain ⟨hstep, hinv, hfresh⟩ :=
        law.on_allocate hbegun.sound.inv (law.held_subset_rootRefs begun) hobject hheap
      have hallocated : law.Sound { begun with heap } :=
        hbegun.sound.of_step hstep hinv (List.Subset.refl _) List.suffix_rfl
      have hentered : law.Entered begun env (Interpreter.workingIn { begun with heap } env) := by
        have hsame : Interpreter.SameStore { begun with heap }
            (Interpreter.workingIn { begun with heap } env) := .of_eq rfl rfl rfl rfl rfl
        refine ⟨fun _ => rfl, fun _ => ⟨rfl, rfl⟩, law.step_trans hstep (law.step_same hsame),
          hallocated.of_same hsame hallocated.roots (fun other hother => ?_)
            (law.calls_enter hbegun.sound.inv hbegun.sound.calls hbegun.sound.contexts hbegun.calls
              hbegun.env hheap hstep)⟩
        have hcontexts : ∀ other ∈ context :: rest,
            other.Meets (law.Now · { begun with heap }) law.expr :=
          fun other hother => hallocated.contexts other (hbegun.calls ▸ hother)
        simp only [Interpreter.workingIn, hbegun.calls] at hother
        rcases List.mem_cons.mp hother with rfl | hrest
        · have hcontext := hcontexts context List.mem_cons_self
          refine ⟨hcontext.fn, hcontext.closure, hcontext.caller, fun ref href => ?_, hcontext.args,
            hcontext.call⟩
          cases href
          exact hfresh .environment (Or.inl rfl)
        · exact hcontexts other (List.mem_cons_of_mem _ hrest)
      refine (coincide_bindFormals hbegun hheap hentered hformals).bind_of
        (fun _ hafter => hafter.inside hbegun) fun _ middle hmiddle _ => ?_
      refine (coincide_updateFrame hbegun hheap hmiddle (fun frame hmeets =>
        meets_bindAbsent hmeets fun entry hentry => ?_) (fun frame value hvalue =>
          Or.inl (promised_bindAbsent_subset frame supplied hvalue))
        fun _ _ hget => hmiddle.calls_supply hbegun hget hgiven).bind_of
        (fun _ hafter => hafter.inside hbegun)
        fun _ after hafter _ => .of_ok rfl rfl (hafter.inside hbegun) hafter
      exact law.has_within (Kind.value_within_ofSymbol _ _)
        (law.has_now (hmiddle.kept hbegun (hsupplied entry hentry)))

variable {run twin : Runner} (hrun : law.Runs run twin)

include hrun

/-- An early return from the closure gives a value. -/
theorem coincide_runClosure (hbegun : law.Begun context rest begun)
    (henv : law.Kept .environment begun closure.env) (hbody : law.expr closure.body)
    (hformals : ∀ pair ∈ closure.formals.zip matched, law.FormalMeets begun pair.1 pair.2)
    (hsupplied : ∀ entry ∈ supplied, law.Kept .value begun entry.2)
    (hgiven : law.Supplies begun context.call supplied) :
    law.Coincide (law.Inside begun) (law.Now .value) begun
      (runClosure run closure matched supplied) (runClosure twin closure matched supplied) := by
  refine (coincide_enterClosure hbegun henv hformals hsupplied hgiven).bind_of
    (fun _ hinside => hinside) fun env middle _ hentered => ?_
  refine (hrun middle (.eval closure.body env) hentered.sound
    ⟨hbody, hentered.kept_env hbegun⟩).attempt_bind fun outcome after hreach houtcome => ?_
  have hafter := (hentered.trans hbegun hreach).inside hbegun
  cases outcome with
  | ok value => exact .of_ok rfl rfl hafter houtcome
  | error err =>
      cases err with
      | earlyReturn value target =>
          dsimp only
          split
          · exact .of_ok rfl rfl hafter (houtcome value target rfl)
          · exact .of_error rfl rfl hafter houtcome
      | _ => exact .of_error rfl rfl hafter houtcome

/-- The call of a closure whose arguments were matched. -/
theorem agree_callClosure (hstate : law.Sound state)
    (hcontext : context.Meets (law.Now · state) law.expr) (hkind : context.kind = .function)
    (hnone : context.env = none) (hdepth : context.rootDepth = state.roots.depth)
    (henv : law.Kept .environment state closure.env)
    {site : Nat}
    (hfunction : law.expr (.function site closure.formalsSite closure.formals closure.body))
    {args : List Arg} (hargs : law.ArgsKept .operand state args)
    (hmatched : matchArgs state.symbolName state.reserved.dots closure.formals args = .ok matched)
    (hsupplied : ∀ entry ∈ supplied, law.Kept .value state entry.2)
    (hgiven : law.Supplies state context.call supplied) :
    law.Agree .settled (law.Now .value) state
      (withContext context (runClosure run closure matched supplied))
      (withContext context (runClosure twin closure matched supplied)) := by
  have hreceived := matchArgs_eq_ok
    (fun arg harg ref href => kept_begun context (hargs arg harg ref href)) hmatched
  refine agree_withContext hstate hdepth (coincide_runClosure hrun
    ⟨hstate.begin hcontext (Or.inr hnone), rfl, hkind, hnone⟩ (kept_begun context henv)
    (law.expr_children hfunction List.mem_cons_self) (fun pair hpair => ?_)
    (fun entry hentry => kept_begun context (hsupplied entry hentry))
    (supplies_begun hgiven)) (law.rootless_now .value)
  obtain ⟨hformal, hmem⟩ := List.of_mem_zip hpair
  refine ⟨fun default hdefault => ?_, hreceived.1 _ hmem, hreceived.2 pair hpair,
    law.expr_binds hfunction (List.mem_map_of_mem hformal)⟩
  exact law.expr_children hfunction
    (List.mem_cons_of_mem _ (List.mem_filterMap.mpr ⟨pair.1, hformal, hdefault⟩))

/-- Matching, the new frame and the body make up a call of a closure. -/
theorem agree_applyClosure (hstate : law.Sound state) {call : Expr} (hcall : law.expr call)
    {fn caller : Ref} (hfn : law.Kept .value state fn) {args : List Arg}
    (hargs : law.ArgsKept .operand state args) (hcaller : law.Kept .environment state caller)
    (hsupplied : ∀ entry ∈ supplied, law.Kept .value state entry.2)
    (hgiven : law.Supplies state call supplied) :
    law.Agree .settled (law.Now .value) state (applyClosure run call fn args caller supplied)
      (applyClosure twin call fn args caller supplied) := by
  refine .lift_bind hstate (answers_closureAt? (law.has_now hfn)) fun found hfound => ?_
  cases found with
  | none => exact .raise hstate nofun
  | some closure =>
      obtain ⟨henv, site, hfunction⟩ := hstate.holds hfn (hfound closure rfl)
      refine .lift_bind hstate (answers_matchCall call closure.formals hargs.now)
        fun matched hmatched => ?_
      have hdepth : law.Answers state rootDepth (· = state.roots.depth) := .read_bind (.pure rfl)
      refine .lift_bind hstate hdepth fun mark hmark => ?_
      refine agree_callClosure hrun hstate
        ⟨law.has_within (Kind.within_any _) (law.has_now hfn),
          fun _ => law.has_now hfn, law.has_now hcaller,
          (fun _ href => nomatch href), hargs.now, hcall⟩ rfl rfl hmark henv
        hfunction hargs hmatched hsupplied hgiven

end Closures

end RefLaw

end LazyDispatch
