import LazyDispatch.Interpreter.Start
import LazyDispatch.Proofs.RefEval

/-!
# Sessions under a reference law

A session reads terms and evaluates expressions, one after the other, without a
host.  If an interpreter starts in a sound state, then every state of a session
is sound, whether its evaluations end with values or with errors.
-/

namespace LazyDispatch

open Eval

/-- The states of a session that only makes certain evaluations. -/
inductive Interpreter.Visits (admits : Nat → Expr → Interpreter → Prop) (start : Interpreter) :
    Interpreter → Prop
  | start : Visits admits start start
  | resolve {state after : Interpreter} {term : Term} {expr : Expr}
      (hvisits : Visits admits start state) (hresolve : resolve term state = .ok expr after) :
      Visits admits start after
  | eval {state after : Interpreter} {expr : Expr} {budget : Nat}
      (hvisits : Visits admits start state) (hadmits : admits budget expr state)
      (heval : (evalTopLevel (perform {} budget) expr).Finishes state after) :
      Visits admits start after

/-! ## Reading terms -/

namespace Term

open Naming

/-- A step of naming only adds names. -/
def Adds {α : Type} (step : StateM Naming α) : Prop :=
  ∀ naming : Naming, naming.symbols.Grows (step.run naming).2.symbols

/-- A value adds no names. -/
theorem adds_pure {α : Type} (value : α) : Adds (pure value) := fun _ => List.prefix_rfl

/-- Two steps add what each of them adds. -/
theorem Adds.bind {α β : Type} {step : StateM Naming α}
    {next : α → StateM Naming β} (hstep : Adds step)
    (hnext : ∀ value, Adds (next value)) : Adds (step >>= next) :=
  fun naming => (hstep naming).trans (hnext _ _)

/-- Interning only adds a name. -/
theorem adds_intern (name : String) : Adds (intern name) :=
  fun naming => naming.symbols.grows_intern name

/-- So does interning a name that may be absent. -/
theorem adds_intern? (name : Option String) : Adds (intern? name) := by
  cases name with
  | none => exact adds_pure _
  | some name => exact (adds_intern name).bind fun _ => adds_pure _

/-- A fresh site adds no names. -/
theorem adds_freshSite : Adds freshSite := fun _ => List.prefix_rfl

mutual

/-- Resolving a term only adds names. -/
theorem adds_resolve : (term : Term) → Adds term.resolve
  | literal _ => adds_freshSite.bind fun _ => adds_pure _
  | symbol name => adds_freshSite.bind fun _ => (adds_intern name).bind fun _ => adds_pure _
  | missing => adds_freshSite.bind fun _ => adds_pure _
  | call head args => adds_freshSite.bind fun _ => (adds_resolve head).bind fun _ =>
      (adds_resolveArgs args).bind fun _ => adds_pure _
  | function formals body => adds_freshSite.bind fun _ => adds_freshSite.bind fun _ =>
      (adds_resolveFormals formals).bind fun _ => (adds_resolve body).bind fun _ => adds_pure _
  | block terms => adds_freshSite.bind fun _ => (adds_resolveAll terms).bind fun _ => adds_pure _
  | branch condition yes no => adds_freshSite.bind fun _ => (adds_resolve condition).bind fun _ =>
      (adds_resolve yes).bind fun _ => (adds_resolve? no).bind fun _ => adds_pure _
  | assign _ name value => adds_freshSite.bind fun _ => (adds_intern name).bind fun _ =>
      (adds_resolve value).bind fun _ => adds_pure _

/-- So does resolving the arguments of a call. -/
theorem adds_resolveArgs : (args : List (Option String × Term)) → Adds (resolveArgs args)
  | [] => adds_pure _
  | (tag, value) :: rest => (adds_intern? tag).bind fun _ => (adds_resolve value).bind fun _ =>
      (adds_resolveArgs rest).bind fun _ => adds_pure _

/-- So does resolving the formals of a function. -/
theorem adds_resolveFormals : (formals : List (String × Option Term)) →
    Adds (resolveFormals formals)
  | [] => adds_pure _
  | (name, default) :: rest =>
      (adds_intern name).bind fun _ => (adds_resolve? default).bind fun _ =>
      (adds_resolveFormals rest).bind fun _ => adds_pure _

/-- So does resolving the terms of a block. -/
theorem adds_resolveAll : (terms : List Term) → Adds (resolveAll terms)
  | [] => adds_pure _
  | term :: rest =>
      (adds_resolve term).bind fun _ => (adds_resolveAll rest).bind fun _ =>
        adds_pure _

/-- So does resolving a term that may be absent. -/
theorem adds_resolve? : (term : Option Term) → Adds (resolve? term)
  | none => adds_pure _
  | some term => (adds_resolve term).bind fun _ => adds_pure _

end

end Term

namespace RefLaw

variable {law : RefLaw} {state after : Interpreter}

/-- A step that does not give up ends where its twin does. -/
theorem Coincide.reach_twin {α : Type} {reach : Interpreter → Prop}
    {post : Interpreter → α → Prop} {action twin : Eval α}
    (hcoincide : law.Coincide reach post state action twin)
    (hgoes : law.stalls → ∀ other, action state ≠ .error .outOfFuel other)
    (hfinishes : twin.Finishes state after) : reach after := by
  have hsame := hcoincide.twin_of_ne hgoes
  cases hfinishes with
  | value hvalue => exact (hcoincide.value (hsame.symm.trans hvalue)).1
  | error herror => exact (hcoincide.error (hsame.symm.trans herror)).1

/-- Resolving a term leaves the store alone. -/
theorem agree_resolve (hstate : law.Sound state) (term : Term) :
    law.Obeys .settled (fun _ _ => True) state (resolve term) :=
  .quiet hstate ⟨⟨rfl, rfl, rfl, Term.adds_resolve term state.naming⟩, rfl⟩ rfl rfl

/-- **Every state of a session is sound** if its evaluations lead from sound
states to sound states. -/
theorem sound_of_visits_of {admits : Nat → Expr → Interpreter → Prop}
    (heval : ∀ {state after budget expr}, law.Sound state → admits budget expr state →
      (evalTopLevel (perform {} budget) expr).Finishes state after → law.Sound after)
    (hstate : law.Sound state) (hvisits : state.Visits admits after) : law.Sound after := by
  induction hvisits with
  | start => exact hstate
  | resolve _ hresolve ih => exact ((agree_resolve ih _).value hresolve).1.sound
  | eval _ hadmits hfinishes ih => exact heval ih hadmits hfinishes

/-- Evaluations do so under a law that keeps the method cache empty. -/
theorem sound_of_visits (hcache : ∀ state, law.inv state → state.cache = .empty)
    (hlax : law.Lax) (hstate : law.Sound state)
    (hvisits : state.Visits (fun _ expr _ => law.expr expr) after) :
    law.Sound after := by
  refine sound_of_visits_of
    (fun {state after budget expr} hstate hexpr hfinishes => ?_) hstate hvisits
  have hruns := runs_perform hcache hlax budget
  have hagree := agree_evalTopLevel hruns hstate hexpr
  cases hfinishes with
  | value hvalue => exact (hagree.value hvalue).1.sound
  | error herror => exact (hagree.error herror).1.sound

/-- The names of the base environment are bound. -/
theorem coincide_installBase (hbinds : ∀ state, law.inv state →
    law.binds state.reserved.deferredDefault ∧
    ∀ builtin symbol, state.naming.symbols.name? symbol =
    some (Builtin.name builtin) → law.binds symbol) (hstate : law.Sound state) :
    law.Coincide law.Sound (fun _ _ => True) state Interpreter.installBase
      Interpreter.installBase := by
  have hbind : ∀ {state : Interpreter} {name : Symbol} {ref : Ref}, law.Sound state →
      law.binds name → law.Now .value state ref → law.Coincide law.Sound (fun _ _ => True) state
        (defineVar state.fixed.base name ref) (defineVar state.fixed.base name ref) :=
    fun hstate hname hnow => (coincide_defineVar hstate hstate
      (fun _ _ _ hsound => hsound) (law.has_now (kept_base hstate)) hname
      hnow).imp (fun _ hsound => hsound) fun _ _ _ _ => trivial
  have hbuiltin : ∀ {state : Interpreter} (builtin : Builtin), law.Sound state →
      law.Coincide law.Sound (fun _ _ => True) state (Interpreter.installBuiltin builtin)
        (Interpreter.installBuiltin builtin) := by
    intro state builtin hstate
    have hmeets : (Object.builtin builtin).Meets (law.Now · state) law.loose law.expr
        state.reserved.dots := trivial
    have hallocate : law.Obeys .settled _ state _ := agree_allocValue hstate ⟨rfl, rfl⟩ hmeets
    refine hallocate.bind_of (fun _ hreach => hreach.sound) fun ref allocated hallocated hnow => ?_
    have hsame : allocated.SameStore { allocated with
        naming := ((Naming.intern builtin.name).run allocated.naming).2 } :=
      ⟨⟨rfl, rfl, rfl, allocated.naming.symbols.grows_intern _⟩, rfl⟩
    have hnamed : law.Reaches .settled allocated _ :=
      reaches_of_same hallocated.sound hsame rfl rfl
    exact .of_eq (bind_of_ok rfl) (bind_of_ok rfl) (.of_eq (bind_of_ok rfl) (bind_of_ok rfl)
      (hbind hnamed.sound ((hbinds _ hnamed.sound.inv).2 builtin _
        (allocated.naming.symbols.name?_intern builtin.name)) (law.has_same hsame hnow)))
  have hall : ∀ {state : Interpreter} (builtins : List Builtin), law.Sound state →
      law.Coincide law.Sound (fun _ _ => True) state (builtins.forM Interpreter.installBuiltin)
        (builtins.forM Interpreter.installBuiltin) := by
    intro state builtins hstate
    induction builtins generalizing state with
    | nil => exact .of_ok rfl rfl hstate trivial
    | cons builtin rest ih =>
        exact (hbuiltin builtin hstate).bind_of (fun _ hsound => hsound)
          fun _ _ hsound _ => ih hsound
  exact (hall Builtin.all hstate).bind_of (fun _ hsound => hsound) fun _ middle hmiddle _ =>
    .of_eq (bind_of_ok rfl) (bind_of_ok rfl)
      (hbind hmiddle (hbinds _ hmiddle.inv).1
        (law.has_now (kept_fixed hmiddle (by simp [Fixed.edges]))))

end RefLaw

end LazyDispatch
