import LazyDispatch.Proofs.RefDispatch

/-!
# Builtins under a reference law

A builtin gets values that are kept, and what it gives is a value, known until
the next allocation.
-/

namespace LazyDispatch

/-- The result of arithmetic is an atomic vector. -/
theorem Numbers.mode_toObject (numbers : Numbers) :
    numbers.toObject.mode ≠ .list := by
  cases numbers <;> exact nofun

/-- A vector that is not put together as a list is atomic. -/
theorem Object.mode_of_concat? {objects : List Object} {mode : Mode}
    {object : Object} (hobject : Object.concat? objects mode = some object) :
    object.mode ≠ .list := by
  cases mode with
  | list => cases hobject
  | _ =>
      cases hobject
      exact nofun

/-- The elements of a vector are atomic. -/
theorem Object.mode_of_mem_scalars {object scalar : Object}
    (hscalar : scalar ∈ object.scalars) :
    scalar.mode ≠ .list := by
  cases object <;>
    simp only [Object.scalars, List.mem_map, List.not_mem_nil] at hscalar
  all_goals
    obtain ⟨value, -, rfl⟩ := hscalar
    exact nofun

namespace HeapObject

variable (object : HeapObject) (name : Symbol) (value : Option Ref)

/-- An attribute lies beside the payload, so setting one leaves it alone. -/
@[simp]
theorem payload_updateAttribute :
    (object.updateAttribute name value).payload = object.payload := by
  cases value <;> rfl

/-- Setting an attribute leaves an object of its kind. -/
theorem sameKind_updateAttribute :
    object.SameKind (object.updateAttribute name value) := by
  have hsame := payload_updateAttribute object name value
  exact ⟨congrArg _ hsame, congrArg _ hsame, congrArg _ hsame⟩

variable {object name value}

/-- The attributes after a change of one are old or the new one. -/
theorem mem_updateAttribute {entry : Symbol × Ref}
    (hentry : entry ∈ (object.updateAttribute name value).attributes) :
    entry ∈ object.attributes ∨ entry.2 ∈ value := by
  cases value with
  | none => exact Or.inl (List.mem_of_mem_eraseP hentry)
  | some value =>
      rcases mem_putEntry hentry with rfl | hold
      · exact Or.inr rfl
      · exact Or.inl hold

end HeapObject

namespace RefLaw

open Eval

variable {law : RefLaw} {state : Interpreter} {scope : Scope} {kind : Kind} {ref env : Ref}

section Builtins

variable {invocation : Invocation}

/-- A value that is kept is a result. -/
theorem agree_kept (hstate : law.Sound state) (hkept : law.Kept kind state ref)
    :
    law.Obeys scope (law.Now kind) state (pure ref) :=
  .pure hstate (law.has_now hkept)

/-- So is an environment that is kept. -/
theorem agree_scope (hstate : law.Sound state)
    (hkept : law.Kept .environment state ref) :
    law.Obeys scope (law.Now .value) state (pure ref) :=
  agree_kept hstate (law.has_within Kind.environment_within_value hkept)

/-- The null value is one of the objects the interpreter keeps at hand. -/
theorem agree_null (hstate : law.Sound state) :
    law.Obeys scope (law.Now .value) state (pure state.fixed.null) :=
  agree_kept hstate (kept_null hstate)

variable (hstate : law.Sound state) (hinvocation : law.InvocationMeets state invocation)

include hstate hinvocation

/-! ## Vectors -/

/-- Arithmetic reads two vectors and answers with a fresh one. -/
theorem agree_arithmetic (op : ArithmeticOp) :
    law.Obeys .settled (law.Now .value) state (arithmetic op invocation) := by
  have hresult : ∀ (left : Numbers) (right : Option Numbers),
      law.Obeys .settled (law.Now .value) state (do
        allocPayload (← checked (op.apply left right)).toObject : Eval Ref) := fun left right =>
    .lift_bind hstate (answers_checked _) fun result _ =>
      agree_allocAtomic hstate result.mode_toObject
  refine .lift_bind hstate (answers_requireCount 1 2 invocation) fun _ _ =>
    .lift_bind hstate (answers_arg hinvocation 0) fun lhs hlhs => ?_
  split
  · rw [map_eq_pure_bind, bind_assoc]
    refine .lift_bind hstate (answers_arg hinvocation 1) fun rhs hrhs => ?_
    rw [pure_bind]
    refine .lift_bind hstate (answers_numbers (law.has_now hlhs)) fun left _ => ?_
    rw [Option.mapM_some, map_eq_pure_bind, bind_assoc]
    refine .lift_bind hstate (answers_numbers (law.has_now hrhs)) fun right _ => ?_
    rw [pure_bind]
    exact hresult left (some right)
  · exact .lift_bind hstate (answers_numbers (law.has_now hlhs)) fun left _ => hresult left none

/-- So does a comparison. -/
theorem agree_comparison (op : Comparison) :
    law.Obeys .settled (law.Now .value) state (comparison op invocation) := by
  refine .lift_bind hstate (answers_requireCount 2 2 invocation) fun _ _ => ?_
  refine .lift_bind hstate (answers_arg hinvocation 0) fun _ hlhs => ?_
  refine .lift_bind hstate (answers_arg hinvocation 1) fun _ hrhs => ?_
  refine .lift_bind hstate (answers_payload (law.has_now hlhs)) fun _ _ => ?_
  refine .lift_bind hstate (answers_payload (law.has_now hrhs)) fun _ _ => ?_
  refine .lift_bind hstate (answers_checked _) fun _ _ => ?_
  exact agree_allocValue hstate ⟨rfl, rfl⟩ trivial

omit hinvocation in
/-- The elements of a list are kept as the list is; those made of an atomic
vector are protected as they are made. -/
theorem agree_listItems (hkept : law.Kept .value state ref) :
    law.Obeys .protecting (fun after items => ∀ item ∈ items, law.Kept .value after item) state
      (listItems ref) := by
  refine .lift_bind hstate (answers_payload (law.has_now hkept)) fun found hshows => ?_
  split
  · exact .pure hstate (hstate.holds hkept hshows)
  · exact .pure hstate fun _ hitem => nomatch hitem
  · split
    · refine .pure hstate fun item hitem => ?_
      cases List.mem_singleton.mp hitem
      exact hkept
    · have hmode : law.Lasting fun _ (scalar : Object) => scalar.mode ≠ .list :=
        fun _ _ _ _ _ _ hmode => hmode
      refine Agree.mapM hmode (law.lasting_kept .value) (fun state scalar hstate hmode => ?_) hstate
        fun _ => Object.mode_of_mem_scalars
      exact (agree_allocAtomic hstate hmode).bind fun item middle hreach hnow =>
        (agree_protect hreach.sound hnow).bind fun _ after hlater hkept =>
          .pure hlater.sound hkept.1

/-- `c` reads its arguments and makes one vector of them. -/
theorem agree_combine :
    law.Obeys .settled (law.Now .value) state (combine invocation) := by
  have hvalues : ∀ ref ∈ Args.values invocation.args, law.Kept .value state ref :=
    fun _ href => ArgsMeet.of_mem_values hinvocation.args href
  have hobjects : law.Obeys .settled (fun after _ => law.Reaches .settled state after) state
      ((Args.values invocation.args).mapM fun ref => (liftM (payload ref) : Eval Object)) :=
    (Agree.mapM (law.lasting_kept .value) law.lasting_true
      (fun _ _ hstate hkept => .lift hstate ((answers_payload (law.has_now hkept)).imp
        fun _ _ => trivial)) hstate hvalues).weaken fun _ _ hreach _ => hreach
  refine hobjects.bind fun objects middle _ hreach => ?_
  split
  · next object hobject => exact agree_allocAtomic hreach.sound (Object.mode_of_concat? hobject)
  · have hlasting : law.Lasting fun after (items : List Ref) =>
        ∀ item ∈ items, law.Kept .value after item :=
      fun _ _ _ _ hstate hreach hitems item hitem => hreach.kept hstate (hitems item hitem)
    refine Agree.withRoots
      ((Agree.mapM (law.lasting_kept .value) hlasting
        (fun _ _ hstate hkept => agree_listItems hstate hkept)
        hreach.sound fun ref href => hreach.kept hstate
        (hvalues ref href)).bind fun items after hlater hitems => ?_)
      (law.rootless_now .value)
    refine agree_allocValue hlater.sound ⟨rfl, rfl⟩ fun item hitem => ?_
    obtain ⟨part, hpart, hmem⟩ := List.mem_flatten.mp hitem
    exact law.has_now (hitems part hpart item hmem)

/-- A list made of kept arguments has only values for elements. -/
theorem agree_makeList :
    law.Obeys .settled (law.Now .value) state (makeList invocation) := by
  have hmeets : (Object.list (invocation.args.map fun arg => arg.value.getD state.fixed.null)).Meets
      (law.Now · state) law.loose law.expr state.reserved.dots := by
    intro item hitem
    obtain ⟨arg, harg, rfl⟩ := List.mem_map.mp hitem
    cases hvalue : arg.value with
    | none => exact law.has_now (kept_null hstate)
    | some ref => exact law.has_now (hinvocation.args arg harg ref hvalue)
  let items : HeapObject :=
    { payload := .list (invocation.args.map fun arg => arg.value.getD state.fixed.null) }
  have hitems : law.MeetsNow state items :=
    ⟨hmeets, (fun _ hpromise => nomatch hpromise), fun _ hentry => nomatch hentry⟩
  have hvalue : Kind.value.Admits items.payload := ⟨rfl, rfl⟩
  have hextra : ∀ (_ : Interpreter) (_ : Ref) (_ : HeapObject → HeapObject), True → True :=
    fun _ _ _ _ => trivial
  refine .get_bind ?_
  dsimp only
  split
  · refine (agree_complete hstate hitems hvalue (fun _ => state.reserved.names) (fun names => names)
      hextra fun ref middle hmiddle hnow => ?_).weaken fun _ _ _ hresult => hresult.1
    have hprepare : law.Obeys .protecting (fun after names => law.Now .value after ref ∧
        law.Now .value after names) middle (do
        let _ ← protect ref
        allocStrings (invocation.args.map fun arg => (arg.tag.map state.symbolName).getD "")) :=
      (agree_protect hmiddle hnow).bind fun _ rooted hreach hkept =>
        (agree_allocStrings hreach.sound _).weaken fun after names hlater hnames =>
          ⟨law.has_now (hlater.kept hreach.sound hkept.1), hnames⟩
    exact (hprepare.withRoots fun _ _ _ hsame hpost =>
      ⟨law.has_same hsame hpost.1, law.has_same hsame hpost.2⟩).weaken
      fun _ _ _ hpost => ⟨hpost.1, trivial, hpost.2⟩
  · exact (agree_allocValue hstate ⟨rfl, rfl⟩ hmeets).bind fun _ _ hreach hnow =>
      .pure hreach.sound hnow

/-- `length` makes an integer. -/
theorem agree_lengthOf :
    law.Obeys .settled (law.Now .value) state (lengthOf invocation) := by
  refine .lift_bind hstate (answers_requireCount 1 1 invocation) fun _ _ => ?_
  refine .lift_bind hstate (answers_arg hinvocation 0) fun _ hkept => ?_
  refine .lift_bind hstate (answers_payload (law.has_now hkept)) fun _ _ => ?_
  exact agree_allocValue hstate ⟨rfl, rfl⟩ trivial

/-! ## Classes -/

/-- `class` makes a vector of names. -/
theorem agree_classOf :
    law.Obeys .settled (law.Now .value) state (classOf invocation) := by
  refine .lift_bind hstate (answers_requireCount 1 1 invocation) fun _ _ =>
    .lift_bind hstate (answers_arg hinvocation 0) fun _ hkept =>
      .lift_bind hstate (answers_fetch (law.has_now hkept)) fun object hget => .get_bind ?_
  split
  · next cls hcls => exact .pure hstate (hstate.attribute hget hcls)
  · split <;> exact agree_allocStrings hstate _

/-- `oldClass` answers with the class attribute itself, or with null. -/
theorem agree_oldClass :
    law.Obeys .settled (law.Now .value) state (oldClass invocation) := by
  refine .lift_bind hstate (answers_requireCount 1 1 invocation) fun _ _ =>
    .lift_bind hstate (answers_arg hinvocation 0) fun _ hkept =>
      .lift_bind hstate (answers_fetch (law.has_now hkept)) fun object hget =>
        .get_bind (.pure hstate ?_)
  cases hcls : object.attribute? state.reserved.cls with
  | none => exact law.has_now (kept_null hstate)
  | some cls => exact hstate.attribute hget hcls

omit hinvocation in
/-- An environment changes in place, and of anything else there is a copy. -/
theorem agree_withClass (hkept : law.Kept .value state ref) {cls : Option Ref}
    (hcls : law.EachKept .value state cls) :
    law.Obeys .settled (law.Now .value) state (withClass ref cls) := by
  have hnow := law.has_now hkept
  refine .get_bind (.lift_bind hstate (answers_fetch hnow) fun object hget => ?_)
  obtain ⟨found, attributes⟩ := object
  let copy := HeapObject.updateAttribute ⟨found, attributes⟩ state.reserved.cls cls
  have hpayload : copy.payload = found := HeapObject.payload_updateAttribute _ _ _
  have hcopy : law.Obeys .settled (law.Now .value) state (allocate copy) := by
    have hmeets : law.MeetsNow state copy := by
      refine ⟨?_, fun deferred hdeferred => ?_, fun entry hentry => ?_⟩
      · rw [hpayload]
        exact law.holds hstate.inv hnow hget
      · have hpromise : found = .promise deferred := hpayload.symm.trans hdeferred
        rw [hpromise] at hget
        exact law.holds_edge hstate.inv hget
      · rcases HeapObject.mem_updateAttribute hentry with hold | hnew
        · exact law.holds_attribute hstate.inv hget hold
        · exact law.has_now (hcls _ hnew)
    refine (agree_allocate hstate hmeets).weaken fun _ _ _ hfresh => hfresh .value (Or.inr ?_)
    rw [hpayload]
    exact ⟨ref, attributes, hnow, hget⟩
  cases found with
  | environment env =>
      have hupdate : (do update ref (·.updateAttribute state.reserved.cls cls); pure ref : Eval Ref)
          state = .ok ref _ :=
        bind_of_ok (update_of_get? hget (·.updateAttribute state.reserved.cls cls))
      exact .of_ok hupdate hupdate (reaches_of_step hstate
        (law.step_class cls hget) (law.inv_attribute _ cls hstate.inv hget
        fun value hvalue => law.has_now (hcls value hvalue)) rfl rfl)
        (law.has_amend hnow hget (HeapObject.sameKind_updateAttribute _ _ cls))
  | null =>
      dsimp only
      split
      · exact .raise hstate nofun
      · exact .pure hstate hnow
  | _ => exact hcopy

/-- `class<-` writes to an environment itself and to a copy of anything else;
either has the kind it had. -/
theorem agree_setClassOf :
    law.Obeys .settled (law.Now .value) state (setClassOf invocation) := by
  refine .lift_bind hstate (answers_requireCount 2 2 invocation) fun _ _ =>
    .lift_bind hstate (answers_arg hinvocation 0) fun ref href =>
      .lift_bind hstate (answers_arg hinvocation 1) fun cls hcls =>
        .lift_bind hstate (answers_payload (law.has_now hcls)) fun found _ => ?_
  split
  · exact agree_withClass hstate href (law.eachKept_none _ _)
  · exact agree_withClass hstate href (law.eachKept_none _ _)
  · exact agree_withClass hstate href (eachKept_some hcls)
  · exact .raise hstate nofun

/-- `unclass` answers with its argument or with a copy that has no class. -/
theorem agree_unclass :
    law.Obeys .settled (law.Now .value) state (unclass invocation) := by
  refine .lift_bind hstate (answers_requireCount 1 1 invocation) fun _ _ =>
    .lift_bind hstate (answers_arg hinvocation 0) fun ref href =>
      .lift_bind hstate (answers_fetch (law.has_now href)) fun object _ => ?_
  split
  · exact .raise hstate nofun
  · refine .get_bind ?_
    split
    · exact agree_kept hstate href
    · exact agree_withClass hstate href (law.eachKept_none _ _)

/-- `inherits` makes a logical. -/
theorem agree_inherits :
    law.Obeys .settled (law.Now .value) state (inherits invocation) := by
  refine .lift_bind hstate (answers_requireCount 2 2 invocation) fun _ _ =>
    .lift_bind hstate (answers_arg hinvocation 0) fun ref href =>
      .lift_bind hstate (answers_arg hinvocation 1) fun what hwhat =>
        .lift_bind hstate (answers_asStrings? (law.has_now hwhat)) fun found _ => ?_
  split
  · exact .raise hstate nofun
  · exact .lift_bind hstate (answers_classVector hstate (law.has_now href)) fun _ _ =>
      agree_allocLogical hstate _

/-- `identical` makes a logical. -/
theorem agree_identical :
    law.Obeys .settled (law.Now .value) state (identical invocation) := by
  refine .lift_bind hstate (answers_requireCount 2 2 invocation) fun _ _ => ?_
  refine .lift_bind hstate (answers_arg hinvocation 0) fun _ ha => ?_
  refine .lift_bind hstate (answers_arg hinvocation 1) fun _ hb => ?_
  have hsame := answers_identicalObjects hstate (law.has_now ha) (law.has_now hb)
  exact .lift_bind hstate hsame fun _ _ => agree_allocLogical hstate _

/-! ## The flow of evaluation -/

/-- The first argument is kept, and so is the null value. -/
theorem agree_argOrNull :
    law.Obeys .settled (law.Now .value) state (argOrNull invocation) := by
  refine .lift_bind hstate (answers_requireCount 0 1 invocation) fun _ _ =>
    .get_bind (.pure hstate ?_)
  cases hvalue : invocation.arg? 0 with
  | none => exact law.has_now (kept_null hstate)
  | some ref => exact law.has_now (hinvocation.arg? hvalue)

/-- `return` raises with a value that is kept. -/
theorem agree_returnValue :
    law.Obeys .settled (law.Now .value) state (returnValue invocation) := by
  refine (agree_argOrNull hstate hinvocation).bind fun value middle hreach hvalue =>
    .raise hreach.sound fun other target herr => ?_
  cases herr
  exact hvalue

/-- `stop` raises an error that carries a text and no reference. -/
theorem agree_stop :
    law.Obeys .settled (law.Now .value) state (stop invocation) :=
  .lift_bind hstate (answers_messageText hinvocation) fun _ _ => .raise hstate nofun

/-- `warning` records its text and answers with a vector of it. -/
theorem agree_warning :
    law.Obeys .settled (law.Now .value) state (warning invocation) := by
  refine .lift_bind hstate (answers_messageText hinvocation) fun message _ => ?_
  refine (agree_warn hstate message).bind fun _ _ hreach _ => ?_
  exact agree_allocStrings hreach.sound _

/-- `environment` answers with the scope of a closure, or with its caller's. -/
theorem agree_environmentOf :
    law.Obeys .settled (law.Now .value) state (environmentOf invocation) := by
  refine .lift_bind hstate (answers_requireCount 0 1 invocation) fun _ _ => .get_bind ?_
  dsimp only
  split
  · exact agree_scope hstate hinvocation.env
  · next ref hfilter =>
      have hkept := hinvocation.arg? (Option.eq_some_of_filter_eq_some hfilter)
      refine .lift_bind hstate (answers_payload (law.has_now hkept)) fun found hshows => ?_
      cases found with
      | closure fn => exact agree_scope hstate (hstate.holds hkept hshows).1
      | _ => exact agree_null hstate

omit hinvocation in
/-- The scope that called a frame is kept, for its frame is on the stack. -/
theorem kept_callerEnv (count : Nat) (henv : law.Kept .environment state env) :
    law.Kept .environment state (callerEnv state count env) := by
  induction count generalizing env with
  | zero => exact henv
  | succ count ih =>
      unfold callerEnv
      split
      · next context hcontext => exact ih (hstate.functionWithEnv? hcontext).1.caller
      · exact kept_global hstate

/-- `parent.frame` answers with the scope of a caller. -/
theorem agree_parentFrame :
    law.Obeys .settled (law.Now .value) state (parentFrame invocation) := by
  refine .lift_bind hstate (answers_requireCount 0 1 invocation) fun _ _ => ?_
  split
  · exact .get_bind (agree_scope hstate (kept_callerEnv hstate 1 hinvocation.env))
  · next ref hvalue =>
      refine .lift_bind hstate (answers_asInteger? (law.has_now (hinvocation.arg? hvalue)))
        fun count _ => ?_
      split
      · exact .get_bind (agree_scope hstate (kept_callerEnv hstate _ hinvocation.env))
      · exact .raise hstate nofun

omit hinvocation in
/-- `sys.call` makes a language object of a call that is still running. -/
theorem agree_sysCall :
    law.Obeys .settled (law.Now .value) state (sysCall invocation) := by
  refine .lift_bind hstate (answers_requireCount 0 0 invocation) fun _ _ => .get_bind ?_
  split
  · exact agree_allocValue hstate ⟨rfl, rfl⟩ trivial
  · exact agree_null hstate

omit hinvocation in
/-- `sys.function` answers with the closure of the running frame. -/
theorem agree_sysFunction :
    law.Obeys .settled (law.Now .value) state (sysFunction invocation) := by
  refine .lift_bind hstate (answers_requireCount 0 0 invocation) fun _ _ => .get_bind ?_
  split
  · next context hcontext => exact agree_kept hstate (hstate.functionWithEnv? hcontext).2
  · exact .raise hstate nofun

/-- `is.function` makes a logical. -/
theorem agree_isFunction :
    law.Obeys .settled (law.Now .value) state (isFunction invocation) := by
  refine .lift_bind hstate (answers_requireCount 1 1 invocation) fun _ _ => ?_
  refine .lift_bind hstate (answers_arg hinvocation 0) fun _ hkept => ?_
  refine .lift_bind hstate (answers_payload (law.has_now hkept)) fun _ _ => ?_
  exact agree_allocLogical hstate _

omit hinvocation in
/-- `gc` collects and makes a vector of two counts. -/
theorem agree_gc :
    law.Obeys .settled (law.Now .value) state (gc invocation) := by
  refine .lift_bind hstate (answers_requireCount 0 0 invocation) fun _ _ => ?_
  refine (agree_collectGarbage hstate).bind fun _ _ hreach _ => ?_
  exact .get_bind (agree_allocValue hreach.sound ⟨rfl, rfl⟩ trivial)

/-- `quote` makes a language object of an expression of the program. -/
theorem agree_quote :
    law.Obeys .settled (law.Now .value) state (quote invocation) := by
  refine .lift_bind hstate (answers_soleExpr hinvocation) fun expr _ => ?_
  split
  · exact agree_allocLiteral hstate _
  · exact agree_allocValue hstate ⟨rfl, rfl⟩ trivial
  · exact agree_allocValue hstate ⟨rfl, rfl⟩ trivial

/-- `missing` follows promises to a formal and makes a logical. -/
theorem agree_missing :
    law.Obeys .settled (law.Now .value) state (missing invocation) := by
  refine .lift_bind hstate (answers_soleExpr hinvocation) fun expr _ => ?_
  split
  · refine .get_bind ?_
    split
    · exact .lift_bind hstate (answers_dotsArgs hstate hinvocation.env) fun _ _ =>
        agree_allocLogical hstate _
    · exact .lift_bind hstate (answers_isMissingArg hstate _ (law.has_now hinvocation.env))
        fun _ _ => agree_allocLogical hstate _
  · exact .raise hstate nofun

end Builtins

end RefLaw

end LazyDispatch
