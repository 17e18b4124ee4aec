import LazyDispatch.Proofs.LinkPaths
import LazyDispatch.Proofs.ScopeChains

/-!
# Assignment to enclosing frames

Lookup and super-assignment both walk outward along enclosing environments.
Lookup starts with the frame of the environment itself and ends without an
answer.  Super-assignment passes that frame over, and where no frame has the
symbol it falls back on the global frame, whether or not the walk came by it.

Both are said here about the list of environments that a walk visits
(`Heap.Scopes`).  Lookup finds the first binding on the list
(`findVar_of_scopes`), and super-assignment binds the symbol in one frame
(`setVar_of_scopes`).  The frame stays where it is on every list, so what is
seen of it from an environment depends only on the frames before it on the list
of that environment (`findSome?_of_update`).
-/

namespace LazyDispatch

/-! ## Searches -/

section Search

variable {α β : Type} {before after : α → Option β} {item head : α} {answer : β} {items : List α}

/-- A search of a list comes to an item: no item before it has an answer. -/
def SearchReaches (answers : α → Option β) (item : α) (items : List α) : Prop :=
  ∃ first rest, items = first ++ item :: rest ∧ ∀ other ∈ first, answers other = none

theorem searchReaches_cons_self (answers : α → Option β) (item : α)
    (items : List α) :
    SearchReaches answers item (item :: items) :=
  ⟨[], items, rfl, nofun⟩

theorem searchReaches_cons_of_ne (hhead : head ≠ item) :
    SearchReaches before item (head :: items) ↔
      before head = none ∧ SearchReaches before item items := by
  constructor
  · intro hreaches
    obtain ⟨first, rest, hsplit, hnone⟩ := hreaches
    cases first with
    | nil => exact absurd (List.cons.inj hsplit).1 hhead
    | cons other first =>
        obtain ⟨rfl, rfl⟩ := List.cons.inj hsplit
        exact ⟨hnone head List.mem_cons_self, first, rest, rfl,
          fun other hmem => hnone other (List.mem_cons_of_mem _ hmem)⟩
  · intro hreaches
    obtain ⟨hempty, first, rest, rfl, hnone⟩ := hreaches
    exact ⟨head :: first, rest, rfl, List.forall_mem_cons.mpr ⟨hempty, hnone⟩⟩

/-- The answer for one item changes.  A search that comes to the item comes to
the new answer, and any other search to the answer that it had. -/
theorem findSome?_of_update (hitem : after item = some answer)
    (hother : ∀ other, other ≠ item → after other = before other) (items : List α) :
    (SearchReaches before item items → items.findSome? after = some answer) ∧
      (¬SearchReaches before item items → items.findSome? after = items.findSome? before) := by
  classical
  induction items with
  | nil =>
      refine ⟨fun hreaches => ?_, fun _ => rfl⟩
      obtain ⟨first, rest, hsplit, -⟩ := hreaches
      cases first <;> cases hsplit
  | cons head items ih =>
      by_cases hhead : head = item
      · subst hhead
        rw [List.findSome?_cons, hitem]
        exact ⟨fun _ => rfl, fun hnot => absurd (searchReaches_cons_self before head items) hnot⟩
      · rw [List.findSome?_cons, List.findSome?_cons, hother head hhead,
          searchReaches_cons_of_ne hhead]
        cases before head with
        | some found => exact ⟨fun hreaches => absurd hreaches.1 nofun, fun _ => rfl⟩
        | none =>
            exact ⟨fun hreaches => ih.1 hreaches.2,
              fun hnot => ih.2 fun hlater => hnot ⟨rfl, hlater⟩⟩

end Search

namespace Heap

variable {heap : Heap} {ref outer : Ref} {cursor : Option Ref} {scopes : List Ref} {symbol : Symbol}
  {env : Environment} {attributes : List (Symbol × Ref)}

/-- A reference resolves to an environment. -/
def IsEnvironment (heap : Heap) (ref : Ref) : Prop :=
  ∃ env attributes, heap.get? ref = some ⟨.environment env, attributes⟩

/-- Environments are enclosed by environments, and not in a circle. -/
structure WellNested (heap : Heap) : Prop where
  enclosing : ∀ inner outer, heap.parent? inner = some outer → heap.IsEnvironment outer
  acyclic : Acyclic fun inner outer => heap.parent? inner = some outer

/-- The environments from one on outward. -/
inductive Scopes (heap : Heap) : Option Ref → List Ref → Prop
  | outermost : Scopes heap none []
  | outward {ref : Ref} {env : Environment} {attributes : List (Symbol × Ref)} {scopes : List Ref}
      (hget : heap.get? ref = some ⟨.environment env, attributes⟩)
      (hrest : Scopes heap env.parent scopes) : Scopes heap (some ref) (ref :: scopes)

/-- The frame of an environment has a symbol. -/
def Has (heap : Heap) (symbol : Symbol) (ref : Ref) : Bool :=
  (heap.binding? (ref, symbol)).isSome

/-- The walk outward from an environment comes to a frame before any other frame
that has the symbol. -/
def ComesFirst (heap : Heap) (symbol : Symbol) (ref target : Ref) : Prop :=
  ∃ scopes, heap.Scopes (some ref) scopes ∧
    SearchReaches (fun scope => heap.binding? (scope, symbol)) target scopes

/-! ## The environments of a walk -/

theorem parent?_of_get?
    (hget : heap.get? ref = some ⟨.environment env, attributes⟩) :
    heap.parent? ref = env.parent := by
  rw [parent?, hget]

theorem IsEnvironment.isLive (henv : heap.IsEnvironment ref) :
    heap.isLive ref = true := by
  obtain ⟨env, attributes, hget⟩ := henv
  exact isLive_of_get? hget

theorem WellNested.endsWithin (hnested : heap.WellNested) (henv : heap.IsEnvironment ref) :
    EndsWithin (fun inner outer => heap.parent? inner = some outer) heap.totalCells ref :=
  hnested.acyclic.endsWithin
    (fun inner outer hparent => (hnested.enclosing inner outer hparent).isLive)
    henv.isLive

/-- A walk visits finitely many environments. -/
theorem WellNested.exists_scopes (hnested : heap.WellNested) (henv : heap.IsEnvironment ref) :
    ∃ above, heap.Scopes (some ref) (ref :: above) ∧ above.length < heap.totalCells := by
  have hends := hnested.endsWithin henv
  generalize heap.totalCells = steps at hends
  induction hends with
  | @step steps ref hnext ih =>
      obtain ⟨env, attributes, hget⟩ := henv
      have hparent := parent?_of_get? hget
      cases houter : env.parent with
      | none =>
          have hrest : heap.Scopes env.parent [] := houter ▸ .outermost
          exact ⟨[], .outward hget hrest, Nat.succ_pos _⟩
      | some outer =>
          have hlink := hparent.trans houter
          obtain ⟨above, hscopes, hlength⟩ := ih outer hlink (hnested.enclosing ref outer hlink)
          have hrest : heap.Scopes env.parent (outer :: above) := houter ▸ hscopes
          exact ⟨outer :: above, .outward hget hrest, Nat.succ_lt_succ hlength⟩

theorem Scopes.unique (hscopes : heap.Scopes cursor scopes) :
    ∀ {others}, heap.Scopes cursor others → others = scopes := by
  induction hscopes with
  | outermost =>
      intro others hothers
      cases hothers
      rfl
  | outward hget _ ih =>
      intro others hothers
      cases hothers with
      | outward hsame hrest =>
          cases hget.symm.trans hsame
          rw [ih hrest]

/-- What a walk visits are environments. -/
theorem Scopes.isEnvironment (hscopes : heap.Scopes cursor scopes) :
    ∀ scope ∈ scopes, heap.IsEnvironment scope := by
  induction hscopes with
  | outermost => exact nofun
  | outward hget _ ih =>
      intro scope hmem
      rcases List.mem_cons.mp hmem with rfl | hrest
      · exact ⟨_, _, hget⟩
      · exact ih scope hrest

end Heap

/-! ## Walks -/

namespace Eval

variable {state : Interpreter} {cursor : Option Ref} {ref env : Ref} {scopes above : List Ref}

theorem findVarFrom_of_scopes (hscopes : state.heap.Scopes cursor scopes) (symbol : Symbol) :
    ∀ budget, scopes.length ≤ budget → findVarFrom symbol budget cursor state =
      .ok ((scopes.findSome? fun scope => state.heap.binding? (scope, symbol)).getD .unbound) := by
  induction hscopes with
  | outermost =>
      intro budget _
      cases budget <;> rfl
  | @outward ref found attributes scopes hget _ ih =>
      intro budget hbudget
      obtain ⟨budget, rfl⟩ : ∃ fewer, budget = fewer + 1 := ⟨budget - 1, by
        rw [List.length_cons] at hbudget
        omega⟩
      have hread : (read : Query Interpreter) state = .ok state := rfl
      unfold findVarFrom
      refine (Query.bind_of_ok hread).trans ?_
      rw [hget, List.findSome?_cons, Heap.binding?_of_get? hget]
      dsimp only
      cases found.frame.find? symbol with
      | some binding => rfl
      | none => exact ih budget (Nat.le_of_succ_le_succ hbudget)

/-- **Lookup finds the first binding** on the way outward. -/
theorem findVar_of_scopes (hscopes : state.heap.Scopes (some ref) scopes)
    (hlength : scopes.length ≤ state.heap.totalCells) (symbol : Symbol) :
    findVar symbol ref state =
      .ok ((scopes.findSome? fun scope => state.heap.binding? (scope, symbol)).getD .unbound) := by
  cases hscopes with
  | @outward _ found attributes above hget hrest =>
      have hbudget : walkBudget state = .ok (state.heap.totalCells + 1) := rfl
      have hwalk := findVarFrom_of_scopes hrest symbol (state.heap.totalCells + 1)
        (Nat.le_trans (Nat.le_of_succ_le hlength) (Nat.le_succ _))
      unfold findVar
      refine (Query.bind_of_ok (environmentAt_of_get? hget)).trans ?_
      rw [List.findSome?_cons, Heap.binding?_of_get? hget]
      cases hfind : found.frame.find? symbol with
      | some binding => rfl
      | none => exact (Query.bind_of_ok hbudget).trans hwalk

theorem setVarFrom_of_scopes (hscopes : state.heap.Scopes cursor scopes) (symbol : Symbol)
    (value : Ref) : ∀ budget, scopes.length ≤ budget → setVarFrom symbol value budget cursor state =
      defineVar ((scopes.find? (state.heap.Has symbol)).getD state.fixed.global)
        symbol value state := by
  induction hscopes with
  | outermost =>
      intro budget _
      cases budget <;> exact bind_of_ok rfl
  | @outward ref found attributes scopes hget _ ih =>
      intro budget hbudget
      obtain ⟨budget, rfl⟩ : ∃ fewer, budget = fewer + 1 := ⟨budget - 1, by
        rw [List.length_cons] at hbudget
        omega⟩
      have hhas : state.heap.Has symbol ref = found.frame.contains symbol := by
        rw [Heap.Has, Heap.binding?_of_get? hget]
        rfl
      unfold setVarFrom
      refine (bind_of_ok (lift_of_ok (environmentAt_of_get? hget))).trans ?_
      rw [List.find?_cons, hhas]
      cases hcontains : found.frame.contains symbol with
      | true => rfl
      | false => exact ih budget (Nat.le_of_succ_le_succ hbudget)

/-- **Super-assignment binds the symbol in one frame**: the first one above its
own that has it, or else the global one. -/
theorem setVar_of_scopes (hscopes : state.heap.Scopes (some env) (env :: above))
    (hlength : above.length ≤ state.heap.totalCells) (symbol : Symbol)
    (value : Ref) :
    setVar env symbol value state =
      defineVar ((above.find? (state.heap.Has symbol)).getD state.fixed.global)
        symbol value state := by
  cases hscopes with
  | outward hget hrest =>
      have hbudget : walkBudget state = .ok (state.heap.totalCells + 1) := rfl
      unfold setVar
      refine (bind_of_ok (lift_of_ok hbudget)).trans ?_
      refine (bind_of_ok (lift_of_ok (environmentAt_of_get? hget))).trans ?_
      exact setVarFrom_of_scopes hrest symbol value _ (Nat.le_succ_of_le hlength)

end Eval

/-! ## One binding -/

namespace Heap

variable {heap : Heap} {target ref : Ref} {env : Environment} {attributes : List (Symbol × Ref)}
  {cursor : Option Ref} {scopes : List Ref} {symbol : Symbol} {value : Ref}

/-- The heap after a symbol was bound in the frame of an environment. -/
def withBinding (heap : Heap) (target : Ref) (env : Environment)
    (symbol : Symbol) (value : Ref) : Heap :=
  heap.update target (.become (.environment ⟨env.parent, env.frame.bind symbol value⟩))

theorem get?_withBinding_of_ne (hne : ref ≠ target) :
    (heap.withBinding target env symbol value).get? ref = heap.get? ref := by
  cases hget : (heap.withBinding target env symbol value).get? ref with
  | some found =>
      obtain ⟨object, hobject, rfl⟩ := get?_of_update hget
      rw [hobject, if_neg hne.symm]
  | none =>
      cases hbefore : heap.get? ref with
      | none => rfl
      | some object => cases (get?_update hbefore target _).symm.trans hget

theorem totalCells_update (heap : Heap) (ref : Ref)
    (change : HeapObject → HeapObject) :
    (heap.update ref change).totalCells = heap.totalCells := by
  have hsum : ∀ pools : Array Pool, total Pool.totalCells pools =
      total id (pools.map Pool.totalCells) := fun pools => (total_map id Pool.totalCells pools).symm
  rw [totalCells, totalCells, hsum, hsum, update, modifyPool, map_modify_of_fixed]
  exact fun pool => rfl

variable (hget : heap.get? target = some ⟨.environment env, attributes⟩)
include hget

theorem get?_withBinding_self : (heap.withBinding target env symbol value).get? target =
    some ⟨.environment ⟨env.parent, env.frame.bind symbol value⟩, attributes⟩ := by
  rw [withBinding, get?_update hget, if_pos rfl]
  rfl

theorem binding?_withBinding_self :
    (heap.withBinding target env symbol value).binding? (target, symbol) = some (.bound value) := by
  rw [binding?_of_get? (get?_withBinding_self hget)]
  exact env.frame.find?_insert_self symbol (.bound value)

theorem binding?_withBinding_of_ne {place : Ref × Symbol} (hne : place ≠ (target, symbol)) :
    (heap.withBinding target env symbol value).binding? place = heap.binding? place := by
  obtain ⟨ref, other⟩ := place
  by_cases href : ref = target
  · subst href
    have hother : other ≠ symbol := fun heq => hne (heq ▸ rfl)
    rw [binding?_of_get? (get?_withBinding_self hget), binding?_of_get? hget]
    exact env.frame.find?_insert_of_ne (.bound value) hother
  · rw [binding?, binding?, get?_withBinding_of_ne href]

theorem parent?_withBinding (ref : Ref) :
    (heap.withBinding target env symbol value).parent? ref = heap.parent? ref := by
  by_cases href : ref = target
  · rw [href, parent?_of_get? (get?_withBinding_self hget), parent?_of_get? hget]
  · rw [parent?, parent?, get?_withBinding_of_ne href]

/-- Walks visit the same environments as before. -/
theorem Scopes.withBinding (hscopes : heap.Scopes cursor scopes) :
    (heap.withBinding target env symbol value).Scopes cursor scopes := by
  induction hscopes with
  | outermost => exact .outermost
  | @outward ref found _ _ hfound _ ih =>
      by_cases href : ref = target
      · subst href
        cases hget.symm.trans hfound
        exact .outward (get?_withBinding_self hget) ih
      · exact .outward ((get?_withBinding_of_ne href).trans hfound) ih

end Heap

/-! ## What is seen of an assignment -/

/-- The state after a symbol was bound in the frame of an environment. -/
def Interpreter.withBinding (state : Interpreter) (target : Ref)
    (env : Environment) (symbol : Symbol) (value : Ref) : Interpreter :=
  { state with heap := state.heap.withBinding target env symbol value }

namespace Eval

variable {state : Interpreter} {target ref : Ref} {env : Environment}
  {attributes : List (Symbol × Ref)} {symbol : Symbol} {value : Ref}
  (hnested : state.heap.WellNested)
  (hget : state.heap.get? target = some ⟨.environment env, attributes⟩)
include hnested hget

/-- Both before and after, lookup searches the same environments. -/
theorem findVar_withBinding_eq (href : state.heap.IsEnvironment ref)
    (other : Symbol) :
    ∃ scopes, state.heap.Scopes (some ref) scopes ∧
      findVar other ref state = .ok ((scopes.findSome? fun scope =>
        state.heap.binding? (scope, other)).getD .unbound) ∧
      findVar other ref (state.withBinding target env symbol value) =
        .ok ((scopes.findSome? fun scope =>
        (state.heap.withBinding target env symbol value).binding?
          (scope, other)).getD .unbound) := by
  obtain ⟨above, hscopes, hlength⟩ := hnested.exists_scopes href
  refine ⟨ref :: above, hscopes, findVar_of_scopes hscopes hlength other, ?_⟩
  refine @findVar_of_scopes (state.withBinding target env symbol value) _ _
    (hscopes.withBinding hget) ?_ other
  show (ref :: above).length ≤ (state.heap.withBinding target env symbol value).totalCells
  rw [Heap.withBinding, Heap.totalCells_update]
  exact hlength

/-- Other symbols are looked up as before. -/
theorem findVar_withBinding_of_ne (href : state.heap.IsEnvironment ref) {other : Symbol}
    (hne : other ≠ symbol) :
    findVar other ref (state.withBinding target env symbol value) = findVar other ref state := by
  obtain ⟨scopes, -, hbefore, hafter⟩ := findVar_withBinding_eq hnested hget href other
  have hsame : ∀ scope, (state.heap.withBinding target env symbol value).binding? (scope, other) =
      state.heap.binding? (scope, other) :=
    fun scope => Heap.binding?_withBinding_of_ne hget fun heq => hne (Prod.mk.inj heq).2
  rw [hafter, hbefore]
  simp only [hsame]

/-- The symbol is looked up as before, unless the walk comes to the changed
frame first. -/
theorem findVar_withBinding (href : state.heap.IsEnvironment ref) :
    (state.heap.ComesFirst symbol ref target →
      findVar symbol ref (state.withBinding target env symbol value) = .ok (.bound value)) ∧
    (¬state.heap.ComesFirst symbol ref target →
      findVar symbol ref (state.withBinding target env symbol value) =
        findVar symbol ref state) := by
  obtain ⟨scopes, hscopes, hbefore, hafter⟩ := findVar_withBinding_eq hnested hget href symbol
  obtain ⟨hcomes, hpasses⟩ := @findSome?_of_update _ _
    (fun scope => state.heap.binding? (scope, symbol)) (fun scope =>
    (state.heap.withBinding target env symbol value).binding? (scope, symbol))
    target (.bound value) (Heap.binding?_withBinding_self hget)
    (fun scope hne => Heap.binding?_withBinding_of_ne hget fun heq => hne
      (Prod.mk.inj heq).1) scopes
  rw [hafter, hbefore]
  constructor
  · intro hfirst
    obtain ⟨others, hothers, hreaches⟩ := hfirst
    rw [hscopes.unique hothers] at hreaches
    rw [hcomes hreaches]
    rfl
  · intro hlater
    rw [hpasses fun hreaches => hlater ⟨scopes, hscopes, hreaches⟩]

omit hnested hget in
/-- **Super-assignment changes exactly one binding.**  It binds the symbol in
the nearest frame above the environment that has it, or else in the global
frame, and leaves all other bindings and objects alone.  From each environment,
the symbol is seen with its new value if the walk outward comes to that frame
before any other frame that has the symbol, and as before otherwise; all other
symbols are seen as before. -/
theorem superassignment_changes_one_binding (hnested : state.heap.WellNested)
    (hglobal : state.heap.IsEnvironment state.fixed.global) {inner : Ref}
    (hinner : state.heap.IsEnvironment inner) (symbol : Symbol) (value : Ref) :
    ∃ above target heap, state.heap.Scopes (some inner) (inner :: above) ∧
      target = (above.find? (state.heap.Has symbol)).getD state.fixed.global ∧
      setVar inner symbol value state = .ok () { state with heap } ∧
      heap.binding? (target, symbol) = some (.bound value) ∧
      (∀ place, place ≠ (target, symbol) → heap.binding? place = state.heap.binding? place) ∧
      (∀ ref, heap.parent? ref = state.heap.parent? ref) ∧
      (∀ ref, ref ≠ target → heap.get? ref = state.heap.get? ref) ∧
      ∀ env, state.heap.IsEnvironment env →
        (∃ seen, findVar symbol env state = .ok seen ∧
          (state.heap.ComesFirst symbol env target →
            findVar symbol env { state with heap } = .ok (.bound value)) ∧
          (¬state.heap.ComesFirst symbol env target →
            findVar symbol env { state with heap } = .ok seen)) ∧
        ∀ other, other ≠ symbol →
          findVar other env { state with heap } = findVar other env state := by
  obtain ⟨above, hscopes, hlength⟩ := hnested.exists_scopes hinner
  generalize htarget : (above.find? (state.heap.Has symbol)).getD state.fixed.global = target
  have henv : state.heap.IsEnvironment target := by
    rw [← htarget]
    cases hfind : above.find? (state.heap.Has symbol) with
    | none => exact hglobal
    | some scope =>
        exact hscopes.isEnvironment scope (List.mem_cons_of_mem _ (List.mem_of_find?_eq_some hfind))
  obtain ⟨env, attributes, hget⟩ := henv
  have hassign : setVar inner symbol value state =
      .ok () (state.withBinding target env symbol value) := by
    rw [setVar_of_scopes hscopes (Nat.le_of_lt hlength), htarget]
    exact updateFrame_of_get? hget _
  refine ⟨above, target, _, hscopes, htarget.symm, hassign, Heap.binding?_withBinding_self hget,
    fun _ => Heap.binding?_withBinding_of_ne hget, Heap.parent?_withBinding hget,
    fun _ => Heap.get?_withBinding_of_ne, ?_⟩
  intro ref href
  obtain ⟨seen, hseen⟩ : ∃ seen, findVar symbol ref state = .ok seen := by
    obtain ⟨outer, houter, hfits⟩ := hnested.exists_scopes href
    exact ⟨_, findVar_of_scopes houter hfits symbol⟩
  refine ⟨⟨seen, hseen, ?_⟩, fun other hne => findVar_withBinding_of_ne hnested hget href hne⟩
  rw [← hseen]
  exact findVar_withBinding hnested hget href

end Eval

/-! ## Nested frames that shadow each other -/

section Witness

open Eval

/-- Whether a reference resolves to an environment. -/
def Heap.holdsEnvironment (heap : Heap) (ref : Ref) : Bool :=
  match heap.get? ref with
  | some ⟨.environment _, _⟩ => true
  | _ => false

theorem Heap.isEnvironment_of_holds {heap : Heap} {ref : Ref}
    (hholds : heap.holdsEnvironment ref = true) : heap.IsEnvironment ref := by
  unfold Heap.holdsEnvironment at hholds
  split at hholds
  · next env attributes hget => exact ⟨env, attributes, hget⟩
  · cases hholds

/-- Whether environments are enclosed by environments at lower places. -/
def Heap.nestsDownward (heap : Heap) : Bool :=
  heap.refs.all fun ref =>
    (heap.parent? ref).all fun outer =>
      heap.holdsEnvironment outer && outer.index.toNat < ref.index.toNat

theorem Heap.wellNested_of_nestsDownward {heap : Heap}
    (hcheck : heap.nestsDownward = true) :
    heap.WellNested := by
  have hlink : ∀ inner outer, heap.parent? inner = some outer →
      heap.IsEnvironment outer ∧ outer.index.toNat < inner.index.toNat := by
    intro inner outer hparent
    obtain ⟨env, attributes, hget, -⟩ := Heap.parent?_eq_some hparent
    have hall := List.all_eq_true.mp hcheck inner (Heap.mem_refs_of_get? hget)
    rw [hparent, Option.all_some, Bool.and_eq_true] at hall
    exact ⟨Heap.isEnvironment_of_holds hall.1, of_decide_eq_true hall.2⟩
  exact ⟨fun inner outer hparent => (hlink inner outer hparent).1,
    Heap.acyclic_of_descends (·.index.toNat) fun inner outer hparent =>
      (hlink inner outer hparent).2⟩

/-- Makes an environment inside another one that is inside the global one; both
outer ones bind a name. -/
def nestFrames : Eval (Symbol × Ref × Ref) := do
  let state ← get
  let symbol ← intern "x"
  let outer ← allocEnvironment (some state.fixed.global)
  let _ ← protect outer
  let inner ← allocEnvironment (some outer)
  let _ ← protect inner
  defineVar outer symbol state.fixed.null
  defineVar state.fixed.global symbol state.fixed.deferred
  return (symbol, outer, inner)

/-- Whether the frames are nested and bound like that. -/
def framesNested (made : Symbol × Ref × Ref) (state : Interpreter) : Bool :=
  state.heap.nestsDownward && state.heap.holdsEnvironment state.fixed.global &&
    state.heap.holdsEnvironment made.2.2 && state.heap.parent? made.2.2 = some made.2.1 &&
    state.heap.binding? (made.2.2, made.1) = none && state.heap.Has made.1 made.2.1 &&
    made.2.1 ≠ state.fixed.global &&
    state.heap.binding? (state.fixed.global, made.1) = some (.bound state.fixed.deferred)

set_option maxRecDepth 1000000 in
theorem exists_nestFrames : ∃ start symbol outer inner state,
    Interpreter.start smallConfig .empty = .ok start ∧
    nestFrames start = .ok (symbol, outer, inner) state ∧ state.heap.WellNested ∧
    state.heap.IsEnvironment state.fixed.global ∧ state.heap.IsEnvironment inner ∧
    state.heap.parent? inner = some outer ∧ state.heap.binding? (inner, symbol) = none ∧
    state.heap.Has symbol outer = true ∧ outer ≠ state.fixed.global ∧
    state.heap.binding? (state.fixed.global, symbol) = some (.bound state.fixed.deferred) := by
  have hcheck : freshPasses nestFrames framesNested = true := by decide +kernel
  obtain ⟨start, ⟨symbol, outer, inner⟩, state, hstart, hmade, htest⟩ :=
    exists_of_freshPasses hcheck
  simp only [framesNested, Bool.and_eq_true, decide_eq_true_eq] at htest
  obtain ⟨⟨⟨⟨⟨⟨⟨hnested, hglobal⟩, hinner⟩, hparent⟩, hnone⟩, hhas⟩, hne⟩, hbinding⟩ := htest
  exact ⟨start, symbol, outer, inner, state, hstart, hmade,
    Heap.wellNested_of_nestsDownward hnested,
    Heap.isEnvironment_of_holds hglobal, Heap.isEnvironment_of_holds hinner,
    hparent, hnone, hhas, hne, hbinding⟩

/-- The name is assigned in the frame in the middle and seen from the innermost
one, and the global frame keeps its own value. -/
theorem superassignment_changes_one_binding_nestFrames : ∃ start symbol outer inner state,
    Interpreter.start smallConfig .empty = .ok start ∧
    nestFrames start = .ok (symbol, outer, inner) state ∧ state.heap.WellNested ∧
    state.heap.IsEnvironment state.fixed.global ∧ state.heap.IsEnvironment inner ∧
    ∃ heap, setVar inner symbol state.fixed.base state = .ok () { state with heap } ∧
      heap.binding? (outer, symbol) = some (.bound state.fixed.base) ∧
      heap.binding? (state.fixed.global, symbol) = some (.bound state.fixed.deferred) ∧
      findVar symbol inner { state with heap } = .ok (.bound state.fixed.base) := by
  obtain ⟨start, symbol, outer, inner, state, hstart, hmade, hnested, hglobal,
    hinner, hparent, hnone, hhas, hne, hbinding⟩ := exists_nestFrames
  obtain ⟨above, target, heap, hscopes, htarget, hassign, hbound, hkept, -, -, hseen⟩ :=
    superassignment_changes_one_binding hnested hglobal hinner symbol state.fixed.base
  -- The first frame above is the one in the middle.
  obtain ⟨rest, rfl⟩ : ∃ rest, above = outer :: rest := by
    cases hscopes with
    | outward hget hrest =>
        rw [← Heap.parent?_of_get? hget, hparent] at hrest
        cases hrest with
        | outward _ _ => exact ⟨_, rfl⟩
  have houter : target = outer := by
    rw [htarget, List.find?_cons, hhas]
    rfl
  subst houter
  have hother : (state.fixed.global, symbol) ≠ (target, symbol) :=
    fun heq => hne (Prod.mk.inj heq).1.symm
  obtain ⟨⟨_, -, hfirst, -⟩, -⟩ := hseen inner hinner
  refine ⟨start, symbol, target, inner, state, hstart, hmade, hnested, hglobal,
    hinner, heap, hassign, hbound, (hkept _ hother).trans hbinding, hfirst ?_⟩
  exact ⟨_, hscopes, [inner], rest, rfl, List.forall_mem_singleton.mpr hnone⟩

end Witness

end LazyDispatch
