import LazyDispatch.Proofs.CreationOrder
import LazyDispatch.Proofs.KindLaw
import Mathlib.Logic.Relation

/-!
# Finding functions without evaluation

A name is looked up as a function in one frame after the other.  Bindings to
anything else are passed over, and a binding to a promise is forced.  This
module is about the lookups that find their function without evaluating
anything: every promise that they meet is forced already.

`Heap.LooksUp` is such a lookup, with the environments that it passes.  It does
not depend on the runner and leaves the state as it is (`findFun_of_looksUp`).
An environment that it passed twice would lead it in a circle, so it passes no
more environments than the heap has cells and never uses up its budget.

What an object reaches is retained (`Heap.Retains`) while the object is among
the roots and only new objects are changed.  A lookup that starts within reach
of the object stays as it was.
-/

namespace LazyDispatch

namespace Heap

/-! ## Lookups -/

/-- The value of a promise that was forced before. -/
def forcedValue? (heap : Heap) (ref : Ref) : Option Ref :=
  match heap.get? ref with
  | some ⟨.promise (.forced _ value), _⟩ => some value
  | _ => none

/-- The value that a binding stands for, unless it takes an evaluation or a
fault to tell. -/
def settledValue? (heap : Heap) : Binding → Option (Option Ref)
  | ⟨.unbound, _⟩ | ⟨.missing, none⟩ => some none
  | ⟨.bound, value⟩ => some value
  | ⟨.promise, some ref⟩ | ⟨.missing, some ref⟩ => (heap.forcedValue? ref).map some
  | ⟨.promise, none⟩ => none

/-- The function that a frame binds a symbol to, if it binds it to one, unless
it takes an evaluation or a fault to tell. -/
def functionIn? (heap : Heap) (symbol : Symbol) (frame : Frame) :
    Option (Option Ref) :=
  match frame.find? symbol with
  | none => some none
  | some binding =>
    match heap.settledValue? binding with
    | none => none
    | some none => some none
    | some (some value) =>
      (heap.get? value).map fun object => if object.payload.isFunction then some value else none

/-- A symbol is looked up as a function along a path of environments, each
inside the next; the last of them has it. -/
inductive LooksUp (heap : Heap) (symbol : Symbol) (fn : Ref) : List Ref → Prop
  | here {env : Ref} {found : Environment} {attributes : List (Symbol × Ref)}
      (hget : heap.get? env = some ⟨.environment found, attributes⟩)
      (hfn : heap.functionIn? symbol found.frame = some (some fn)) : LooksUp heap symbol fn [env]
  | outward {env outer : Ref} {path : List Ref} {found : Environment}
      {attributes : List (Symbol × Ref)}
      (hget : heap.get? env = some ⟨.environment found, attributes⟩)
      (hpass : heap.functionIn? symbol found.frame = some none)
      (hparent : found.parent = some outer) (hlooks : LooksUp heap symbol fn (outer :: path)) :
      LooksUp heap symbol fn (env :: outer :: path)

/-- A name resolves to a function from an environment. -/
def Finds (heap : Heap) (symbol : Symbol) (env fn : Ref) : Prop :=
  ∃ path, heap.LooksUp symbol fn (env :: path)

theorem get?_of_forcedValue? {heap : Heap} {ref value : Ref}
    (hforced : heap.forcedValue? ref = some value) :
    ∃ expr attributes, heap.get? ref = some ⟨.promise (.forced expr value), attributes⟩ := by
  unfold forcedValue? at hforced
  split at hforced
  · next expr value attributes hget =>
      cases hforced
      exact ⟨expr, attributes, hget⟩
  · cases hforced

/-- How a binding comes by its value. -/
inductive Settles (heap : Heap) : Binding → Option Ref → Prop
  | unbound (value : Option Ref) : Settles heap ⟨.unbound, value⟩ none
  | missing : Settles heap ⟨.missing, none⟩ none
  | bound (value : Option Ref) : Settles heap ⟨.bound, value⟩ value
  | promise {ref value : Ref} (hforced : heap.forcedValue? ref = some value) :
      Settles heap ⟨.promise, some ref⟩ (some value)
  | default {ref value : Ref} (hforced : heap.forcedValue? ref = some value) :
      Settles heap ⟨.missing, some ref⟩ (some value)

theorem settles_of_settledValue? {heap : Heap} {binding : Binding}
    {value? : Option Ref} (hsettled : heap.settledValue? binding = some value?)
    : heap.Settles binding value? := by
  unfold settledValue? at hsettled
  split at hsettled
  · cases hsettled
    exact .unbound _
  · cases hsettled
    exact .missing
  · cases hsettled
    exact .bound _
  · obtain ⟨value, hforced, rfl⟩ := Option.map_eq_some_iff.mp hsettled
    exact .promise hforced
  · obtain ⟨value, hforced, rfl⟩ := Option.map_eq_some_iff.mp hsettled
    exact .default hforced
  · cases hsettled

namespace LooksUp

variable {heap : Heap} {symbol : Symbol} {fn env : Ref} {path other : List Ref}

/-- Every environment on the path is live. -/
theorem isLive (hlooks : heap.LooksUp symbol fn path) :
    ∀ ref ∈ path, heap.isLive ref = true := by
  induction hlooks with
  | here hget _ =>
      intro ref hmem
      rw [List.mem_singleton.mp hmem]
      exact isLive_of_get? hget
  | outward hget _ _ _ ih =>
      intro ref hmem
      rcases List.mem_cons.mp hmem with rfl | hrest
      · exact isLive_of_get? hget
      · exact ih ref hrest

/-- The first environment determines the path. -/
theorem unique (hlooks : heap.LooksUp symbol fn (env :: path)) :
    ∀ {other}, heap.LooksUp symbol fn (env :: other) → path = other := by
  generalize hwhole : env :: path = whole at hlooks
  induction hlooks generalizing env path with
  | here hget hfn =>
      cases hwhole
      intro other hother
      cases hother with
      | here _ _ => rfl
      | outward hget' hpass _ _ =>
          cases hget.symm.trans hget'
          cases hfn.symm.trans hpass
  | outward hget hpass hparent _ ih =>
      cases hwhole
      intro other hother
      cases hother with
      | here hget' hfn =>
          cases hget.symm.trans hget'
          cases hfn.symm.trans hpass
      | outward hget' _ hparent' hrest =>
          cases hget.symm.trans hget'
          cases hparent.symm.trans hparent'
          rw [ih rfl hrest]

/-- From every environment on the path, the rest of it is a path. -/
theorem exists_suffix (hlooks : heap.LooksUp symbol fn path) (hmem : env ∈ path) :
    ∃ rest, heap.LooksUp symbol fn (env :: rest) ∧ rest.length < path.length := by
  induction hlooks with
  | here hget hfn =>
      cases List.mem_singleton.mp hmem
      exact ⟨[], .here hget hfn, Nat.one_pos⟩
  | outward hget hpass hparent hlooks ih =>
      rcases List.mem_cons.mp hmem with rfl | hrest
      · exact ⟨_, .outward hget hpass hparent hlooks, Nat.lt_succ_self _⟩
      · obtain ⟨rest, hsuffix, hlt⟩ := ih hrest
        exact ⟨rest, hsuffix, Nat.lt_succ_of_lt hlt⟩

/-- No environment is passed twice. -/
theorem nodup (hlooks : heap.LooksUp symbol fn path) : path.Nodup := by
  induction hlooks with
  | here _ _ => exact List.nodup_singleton _
  | outward hget hpass hparent hlooks ih =>
      refine List.nodup_cons.mpr ⟨fun hmem => ?_, ih⟩
      -- The path from the second visit on would be the whole path from the
      -- first one on.
      obtain ⟨rest, hsuffix, hlt⟩ := hlooks.exists_suffix hmem
      have heq := unique (.outward hget hpass hparent hlooks) hsuffix
      rw [heq] at hlt
      exact absurd hlt (Nat.lt_irrefl _)

/-- A path is no longer than the heap has cells. -/
theorem length_le (hlooks : heap.LooksUp symbol fn path) :
    path.length ≤ heap.totalCells := by
  have hall : path.countP heap.isLive = path.length :=
    List.countP_eq_length.mpr fun ref hmem => hlooks.isLive ref hmem
  rw [← hall]
  exact countP_isLive_le hlooks.nodup

end LooksUp

end Heap

namespace Eval

variable {state : Interpreter} {symbol : Symbol} {env fn : Ref} (run : Runner)

/-- A promise that was forced before is forced without evaluation. -/
theorem force_of_forcedValue? {ref value : Ref}
    (hforced : state.heap.forcedValue? ref = some value) :
    force run ref state = .ok value state := by
  obtain ⟨expr, attributes, hget⟩ := Heap.get?_of_forcedValue? hforced
  unfold force
  rw [bind_of_ok (lift_of_ok (promiseAt_of_get? hget))]
  rfl

theorem bindingValue?_of_settles {binding : Binding} {value? : Option Ref}
    (hsettles : state.heap.Settles binding value?) :
    bindingValue? run binding state = .ok value? state := by
  cases hsettles with
  | unbound value => rfl
  | missing => rfl
  | bound value => rfl
  | promise hforced => exact bind_of_ok (force_of_forcedValue? run hforced)
  | default hforced => exact bind_of_ok (force_of_forcedValue? run hforced)

theorem functionInFrame?_of_functionIn? {frame : Frame} {fn? : Option Ref}
    (hfn : state.heap.functionIn? symbol frame = some fn?) :
    functionInFrame? run symbol frame state = .ok fn? state := by
  unfold Heap.functionIn? at hfn
  unfold functionInFrame?
  cases hfind : frame.find? symbol with
  | none =>
      rw [hfind] at hfn
      cases hfn
      rfl
  | some binding =>
      simp only [hfind] at hfn
      cases hsettled : state.heap.settledValue? binding with
      | none =>
          rw [hsettled] at hfn
          cases hfn
      | some value? =>
          show (bindingValue? run binding >>= _) state = _
          rw [bind_of_ok (bindingValue?_of_settles run (Heap.settles_of_settledValue? hsettled))]
          rw [hsettled] at hfn
          cases value? with
          | none =>
              cases hfn
              rfl
          | some value =>
              obtain ⟨object, hget, rfl⟩ := Option.map_eq_some_iff.mp hfn
              show (liftM (payload value) >>= _ : Eval _) state = _
              rw [bind_of_ok (lift_of_ok (payload_of_get? hget))]
              rfl

/-- **A lookup that evaluates nothing** finds its function, with every runner. -/
theorem findFunFrom_of_looksUp {path : List Ref}
    (hlooks : state.heap.LooksUp symbol fn path) :
    ∀ budget, path.length ≤ budget → ∀ env ∈ path.head?,
      findFunFrom run symbol budget (some env) state = .ok (some fn) state := by
  induction hlooks with
  | here hget hfn =>
      intro budget hbudget env henv
      cases henv
      rw [List.length_singleton] at hbudget
      obtain ⟨budget, rfl⟩ : ∃ fewer, budget = fewer + 1 := ⟨budget - 1, by omega⟩
      unfold findFunFrom
      rw [bind_of_ok (lift_of_ok (environmentAt_of_get? hget)),
        bind_of_ok (functionInFrame?_of_functionIn? run hfn)]
      rfl
  | outward hget hpass hparent _ ih =>
      intro budget hbudget env henv
      cases henv
      rw [List.length_cons] at hbudget
      obtain ⟨budget, rfl⟩ : ∃ fewer, budget = fewer + 1 := ⟨budget - 1, by omega⟩
      unfold findFunFrom
      rw [bind_of_ok (lift_of_ok (environmentAt_of_get? hget)),
        bind_of_ok (functionInFrame?_of_functionIn? run hpass)]
      show findFunFrom run symbol budget _ state = _
      rw [hparent]
      exact ih budget (by omega) _ rfl

theorem findFun_of_finds (hfinds : state.heap.Finds symbol env fn) :
    findFun run symbol env state = .ok fn state := by
  obtain ⟨path, hlooks⟩ := hfinds
  have hlength := hlooks.length_le
  have hfind : findFun? run symbol env state = .ok (some fn) state := by
    unfold findFun?
    have hbudget : walkBudget state = .ok (state.heap.totalCells + 1) := rfl
    rw [bind_of_ok (lift_of_ok hbudget)]
    exact findFunFrom_of_looksUp run hlooks _ (by omega) env rfl
  unfold findFun
  rw [bind_of_ok hfind]
  rfl

end Eval

namespace Heap

variable {value : Ref} {binding : Binding}

/-! ## What is retained -/

/-- An object holds a reference. -/
def Refers (heap : Heap) (ref other : Ref) : Prop :=
  ∃ object, heap.get? ref = some object ∧ other ∈ object.edges

/-- All that an object leads to is there later on as it was. -/
def Retains (heap : Heap) (root : Ref) (after : Heap) : Prop :=
  ∀ ref object, Relation.ReflTransGen heap.Refers root ref → heap.get? ref = some object →
    after.get? ref = some object

variable {heap middle after : Heap} {root ref other env fn : Ref} {object : HeapObject}
  {roots : List Ref} {symbol : Symbol}

theorem refers_of_payload {payload : Object} {attributes : List (Symbol × Ref)}
    (hget : heap.get? ref = some ⟨payload, attributes⟩)
    (hedge : other ∈ payload.edges) :
    heap.Refers ref other :=
  ⟨_, hget, List.mem_append_right _ hedge⟩

/-- What a root leads to is reachable. -/
theorem reachable_of_refers (hroot : root ∈ roots)
    (hleads : Relation.ReflTransGen heap.Refers root ref)
    (hget : heap.get? ref = some object) :
    heap.Reachable roots ref.address := by
  induction hleads generalizing object with
  | refl => exact .root hroot hget
  | tail _ hrefers ih =>
      obtain ⟨holder, hholder, hedge⟩ := hrefers
      exact .edge (ih hholder) (get?_eq_some_iff.mp hholder) hedge hget

namespace Retains

theorem get? (hretains : heap.Retains root after)
    (hget : heap.get? root = some object) :
    after.get? root = some object :=
  hretains root object .refl hget

theorem leads (hretains : heap.Retains root after)
    (hleads : Relation.ReflTransGen heap.Refers root ref) :
    Relation.ReflTransGen after.Refers root ref := by
  induction hleads with
  | refl => exact .refl
  | tail hbefore hrefers ih =>
      obtain ⟨holder, hholder, hedge⟩ := hrefers
      exact ih.tail ⟨holder, hretains _ holder hbefore hholder, hedge⟩

theorem trans (hfirst : heap.Retains root middle)
    (hsecond : middle.Retains root after) :
    heap.Retains root after := by
  intro ref object hleads hget
  exact hsecond ref object (hfirst.leads hleads) (hfirst ref object hleads hget)

/-- What leads on retains less. -/
theorem of_leads (hretains : heap.Retains root after)
    (hleads : Relation.ReflTransGen heap.Refers root ref) :
    heap.Retains ref after := by
  intro other object hother hget
  exact hretains other object (hleads.trans hother) hget

theorem of_refers (hretains : heap.Retains root after)
    (hrefers : heap.Refers root ref) :
    heap.Retains ref after :=
  hretains.of_leads (.single hrefers)

/-- A root is retained by an allocation. -/
theorem allocate (hheap : heap.Coherent)
    (hok : heap.allocate object roots = .ok fn after) (hroot : root ∈ roots) :
    heap.Retains root after := by
  intro ref target hleads hget
  have hreach := reachable_of_refers (List.mem_append_left object.edges hroot) hleads hget
  exact get?_allocate_of_reachable hheap hok hreach hget

/-- A new object is changed. -/
theorem update (hretains : heap.Retains root after)
    (hfresh : heap.get? env = none) (change : HeapObject → HeapObject) :
    heap.Retains root (after.update env change) := by
  intro ref object hleads hget
  rw [get?_update (hretains ref object hleads hget), if_neg]
  intro heq
  rw [heq, hget] at hfresh
  cases hfresh

end Retains

/-! ## Retained lookups -/

theorem forcedValue?_of_retains (hretains : heap.Retains ref after)
    (hforced : heap.forcedValue? ref = some value) : after.forcedValue? ref = some value := by
  obtain ⟨expr, attributes, hget⟩ := get?_of_forcedValue? hforced
  rw [forcedValue?, hretains.get? hget]

theorem settledValue?_of_retains {value? : Option Ref}
    (hretains : ∀ ref, binding.value = some ref → heap.Retains ref after)
    (hsettled : heap.settledValue? binding = some value?) :
    after.settledValue? binding = some value? := by
  cases settles_of_settledValue? hsettled with
  | unbound value => rfl
  | missing => rfl
  | bound value => rfl
  | promise hforced =>
      rw [settledValue?, forcedValue?_of_retains (hretains _ rfl) hforced]
      rfl
  | default hforced =>
      rw [settledValue?, forcedValue?_of_retains (hretains _ rfl) hforced]
      rfl

theorem leads_of_forcedValue?
    (hforced : heap.forcedValue? ref = some value) :
    Relation.ReflTransGen heap.Refers ref value := by
  obtain ⟨expr, attributes, hget⟩ := get?_of_forcedValue? hforced
  exact .single (refers_of_payload hget (List.mem_singleton_self _))

/-- What a binding holds leads to its value. -/
theorem Settles.leads
    (hsettles : heap.Settles binding (some value)) :
    ∃ ref, binding.value = some ref ∧ Relation.ReflTransGen heap.Refers ref value := by
  cases hsettles with
  | bound _ => exact ⟨value, rfl, .refl⟩
  | promise hforced => exact ⟨_, rfl, leads_of_forcedValue? hforced⟩
  | default hforced => exact ⟨_, rfl, leads_of_forcedValue? hforced⟩

section Environments

variable {found : Environment} {attributes : List (Symbol × Ref)}
  (hget : heap.get? env = some ⟨.environment found, attributes⟩)
include hget

theorem refers_of_find?
    (hfind : found.frame.find? symbol = some binding)
    (hvalue : binding.value = some ref) : heap.Refers env ref := by
  have hedge : ref ∈ found.frame.edges :=
    List.mem_filterMap.mpr ⟨(symbol, binding), mem_of_lookup hfind, hvalue⟩
  exact refers_of_payload hget (List.mem_append_right _ hedge)

theorem refers_of_parent (hparent : found.parent = some other) :
    heap.Refers env other :=
  refers_of_payload hget (List.mem_append_left _ (Option.mem_toList.mpr hparent))

/-- What a frame says about a symbol stays. -/
theorem functionIn?_of_retains {fn? : Option Ref}
    (hretains : heap.Retains env after)
    (hfn : heap.functionIn? symbol found.frame = some fn?) :
    after.functionIn? symbol found.frame = some fn? := by
  unfold functionIn? at hfn ⊢
  cases hfind : found.frame.find? symbol with
  | none =>
      rw [hfind] at hfn
      exact hfn
  | some binding =>
      simp only [hfind] at hfn ⊢
      have hholds : ∀ ref, binding.value = some ref → heap.Retains ref after :=
        fun ref hvalue => hretains.of_refers (refers_of_find? hget hfind hvalue)
      cases hsettled : heap.settledValue? binding with
      | none =>
          rw [hsettled] at hfn
          cases hfn
      | some value? =>
          rw [hsettled] at hfn
          rw [settledValue?_of_retains hholds hsettled]
          cases value? with
          | none => exact hfn
          | some value =>
              obtain ⟨object, hobject, rfl⟩ := Option.map_eq_some_iff.mp hfn
              obtain ⟨ref, hvalue, hleads⟩ := (settles_of_settledValue? hsettled).leads
              have hkept := ((hholds ref hvalue).of_leads hleads).get? hobject
              exact Option.map_eq_some_iff.mpr ⟨object, hkept, rfl⟩

theorem leads_of_functionIn?
    (hfn : heap.functionIn? symbol found.frame = some (some fn)) :
    Relation.ReflTransGen heap.Refers env fn := by
  unfold functionIn? at hfn
  cases hfind : found.frame.find? symbol with
  | none =>
      rw [hfind] at hfn
      cases hfn
  | some binding =>
      simp only [hfind] at hfn
      split at hfn
      · cases hfn
      · cases hfn
      · next value hsettled =>
          obtain ⟨object, hobject, heq⟩ := Option.map_eq_some_iff.mp hfn
          split at heq
          · cases heq
            obtain ⟨ref, hvalue, hleads⟩ := (settles_of_settledValue? hsettled).leads
            exact .head (refers_of_find? hget hfind hvalue) hleads
          · cases heq

end Environments

/-- A lookup from an environment that is retained stays as it is. -/
theorem LooksUp.retains {path : List Ref} (hlooks : heap.LooksUp symbol fn path) :
    (∀ env ∈ path.head?, heap.Retains env after) → after.LooksUp symbol fn path := by
  induction hlooks with
  | here hget hfn =>
      intro hretains
      have hkept := hretains _ rfl
      exact .here (hkept.get? hget) (functionIn?_of_retains hget hkept hfn)
  | outward hget hpass hparent _ ih =>
      intro hretains
      have hkept := hretains _ rfl
      refine .outward (hkept.get? hget) (functionIn?_of_retains hget hkept hpass) hparent (ih ?_)
      intro outer houter
      cases houter
      exact hkept.of_refers (refers_of_parent hget hparent)

/-- An environment leads to the functions that are found from it. -/
theorem LooksUp.leads {path : List Ref} (hlooks : heap.LooksUp symbol fn path) :
    ∀ env ∈ path.head?, Relation.ReflTransGen heap.Refers env fn := by
  induction hlooks with
  | here hget hfn =>
      intro env henv
      cases henv
      exact leads_of_functionIn? hget hfn
  | outward hget _ hparent _ ih =>
      intro env henv
      cases henv
      exact .head (refers_of_parent hget hparent) (ih _ rfl)

theorem Finds.retains (hfinds : heap.Finds symbol env fn)
    (hretains : heap.Retains env after) :
    after.Finds symbol env fn := by
  obtain ⟨path, hlooks⟩ := hfinds
  refine ⟨path, hlooks.retains ?_⟩
  intro first hfirst
  cases hfirst
  exact hretains

theorem Finds.leads (hfinds : heap.Finds symbol env fn) :
    Relation.ReflTransGen heap.Refers env fn := by
  obtain ⟨path, hlooks⟩ := hfinds
  exact hlooks.leads env rfl

end Heap

end LazyDispatch
