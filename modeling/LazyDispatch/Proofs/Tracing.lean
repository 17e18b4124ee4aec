import LazyDispatch.Proofs.HeapCells
import Mathlib.Logic.Relation

/-!
# Tracing marks what the roots reach

`Reachable` is the least set of addresses that contains the cell of every root
that resolves and is closed under the references, held by its objects, that
resolve.  The tracer computes it with a stack of pending references and a mark
in each cell.  What it comes upon are the roots and the references of the
reachable objects (`ComesUpon`).

The order in which a tracer visits references should not matter, nor how often
one is pushed.  `TraceStep` is a tracer that is free in both respects: it visits
any pending reference and pushes the references of the object in any order and
any number of times.  For it we prove

* `wellFounded_traceStep` - it always stops, on cyclic heaps too, because a
  visit either marks a cell or shortens the list of pending references;
* `Tracing.step` - the invariant of the tracer: what is marked or pending is
  reachable, and every root and every reference of a marked object is pending,
  or its cell is marked and it is noted if it is stale;
* `Tracing.markedAt_iff` - when nothing is pending, the marked cells are the
  reachable ones;
* `Tracing.staleTraced_iff` - and a stale reference is noted exactly if the
  tracer came upon one;
* `eq_trace_of_run` - so all its runs end in the same heap, the one that
  `Heap.trace` computes.
-/

namespace LazyDispatch

/-- A cell without its mark. -/
def Cell.unmark (cell : Cell) : Cell :=
  match cell with
  | ⟨generation, .live object _⟩ => ⟨generation, .live object false⟩
  | ⟨generation, .free next⟩ => ⟨generation, .free next⟩

/-- Whether a tracer may still mark a cell, as a number. -/
def Cell.unvisited (cell : Cell) : Nat :=
  if cell.isLive && !cell.isMarked then 1 else 0

/-- The number of cells of a pool that a tracer may still mark. -/
def Pool.unvisited (pool : Pool) : Nat :=
  total Cell.unvisited pool.cells

/-- A pool without its marks. -/
def Pool.unmark (pool : Pool) : Pool :=
  { pool with
    cells := pool.cells.map Cell.unmark
    size_cells := by rw [Array.size_map, pool.size_cells] }

namespace Heap

variable {found rest : List Ref}

variable {heap visited start : Heap} {roots pending : List Ref} {ref : Ref}
  {object : HeapObject}

/-- A heap without what a tracer writes: its marks, and its note of a stale
reference. -/
def unmark (heap : Heap) : Heap :=
  { heap with
    pools := heap.pools.map Pool.unmark
    stats := { heap.stats with staleTraced := false } }

/-- The number of cells that a tracer may still mark. -/
def unvisited (heap : Heap) : Nat :=
  total Pool.unvisited heap.pools

/-- The object at an address is marked. -/
def MarkedAt (heap : Heap) (address : Address) : Prop :=
  ∃ cell, heap.cellAt? address = some cell ∧ cell.isMarked = true

/-- The addresses that the roots reach. -/
inductive Reachable (heap : Heap) (roots : List Ref) : Address → Prop
  | root {ref : Ref} {object : HeapObject} (hroot : ref ∈ roots)
      (hget : heap.get? ref = some object) :
      Reachable heap roots ref.address
  | edge {address : Address} {generation : Generation}
      {object target : HeapObject} {ref : Ref}
      (hreach : Reachable heap roots address)
      (hcontent : heap.content? address = some (generation, some object))
      (hedge : ref ∈ object.edges) (hget : heap.get? ref = some target) :
      Reachable heap roots ref.address

/-- A tracer comes upon the roots, and upon the references of reachable objects. -/
inductive ComesUpon (heap : Heap) (roots : List Ref) : Ref → Prop
  | root {ref : Ref} (hroot : ref ∈ roots) : ComesUpon heap roots ref
  | edge {address : Address} {generation : Generation} {object : HeapObject}
      {ref : Ref} (hreach : Reachable heap roots address)
      (hcontent : heap.content? address = some (generation, some object))
      (hedge : ref ∈ object.edges) : ComesUpon heap roots ref

/-- The tracer came upon a reference without a cell of its generation. -/
def ComesUponStale (heap : Heap) (roots : List Ref) : Prop :=
  ∃ ref, heap.ComesUpon roots ref ∧ heap.cell? ref = none

/-- One visit of a tracer that takes its pending references in any order, and
pushes those it finds in any order and any number of times. -/
inductive TraceStep : List Ref × Heap → List Ref × Heap → Prop
  | visit {pending rest found : List Ref} {ref : Ref} {heap : Heap}
      (hpick : pending.Perm (ref :: rest))
      (hfound : ∀ edge, edge ∈ found ↔ edge ∈ (heap.visit ref).1) :
      TraceStep (pending, heap) (found ++ rest, (heap.visit ref).2)

/-! ## Heaps that differ in marks only -/

theorem cellAt?_unmark (heap : Heap) (address : Address) :
    heap.unmark.cellAt? address = (heap.cellAt? address).map Cell.unmark := by
  rw [cellAt?_eq_bind, cellAt?_eq_bind, unmark, Array.getElem?_map]
  cases heap.pools[address.sizeClass]? with
  | none => rfl
  | some pool => simp [Pool.unmark]

/-- Marks are not part of the content. -/
theorem content?_unmark (heap : Heap) :
    heap.unmark.content? = heap.content? := by
  funext address
  rw [content?, content?, cellAt?_unmark]
  cases heap.cellAt? address with
  | none => rfl
  | some cell =>
      obtain ⟨generation, state⟩ := cell
      cases state <;> rfl

/-- Heaps that differ in marks only have the same content. -/
theorem content?_eq_of_unmark_eq {other : Heap}
    (hsame : heap.unmark = other.unmark) : heap.content? = other.content? := by
  rw [← content?_unmark, hsame, content?_unmark]

/-- References resolve alike in heaps of the same content. -/
theorem get?_eq_of_content?_eq {other : Heap}
    (hsame : heap.content? = other.content?) : heap.get? = other.get? := by
  funext ref
  rw [get?_eq_content, get?_eq_content, hsame]

/-- A change of one item that `f` does not see. -/
theorem map_modify_of_fixed {α β : Type} {f : α → β} {change : α → α}
    (hfixed : ∀ item, f (change item) = f item) (items : Array α)
    (index : Nat) : (items.modify index change).map f = items.map f := by
  refine Array.ext_getElem? fun other => ?_
  rw [Array.getElem?_map, Array.getElem?_map, Array.getElem?_modify]
  split
  · cases items[other]? with
    | none => rfl
    | some item => exact congrArg some (hfixed item)
  · rfl

/-- What a tracer comes upon is reachable if it resolves. -/
theorem ComesUpon.reachable (hupon : heap.ComesUpon roots ref)
    (hget : heap.get? ref = some object) :
    heap.Reachable roots ref.address := by
  cases hupon with
  | root hroot => exact .root hroot hget
  | edge hreach hcontent hedge => exact .edge hreach hcontent hedge hget

/-- More roots reach more. -/
theorem Reachable.mono {more : List Ref} {address : Address}
    (hreach : heap.Reachable roots address) (hmore : roots ⊆ more) :
    heap.Reachable more address := by
  induction hreach with
  | root hroot hget => exact .root (hmore hroot) hget
  | edge _ hcontent hedge hget ih => exact .edge ih hcontent hedge hget

/-- Whether there is a cell for a reference can be told from the content. -/
theorem cell?_eq_none_of_content?_eq {other : Heap}
    (hsame : heap.content? = other.content?)
    (hcell : heap.cell? ref = none) : other.cell? ref = none := by
  have hcontent := congrFun hsame ref.address
  unfold content? at hcontent
  unfold cell? at hcell ⊢
  cases hother : other.cellAt? ref.address with
  | none => rfl
  | some cell =>
      rw [hother] at hcontent
      obtain ⟨found, hfound, heq⟩ := Option.map_eq_some_iff.mp hcontent
      have hgeneration : found.generation = cell.generation := congrArg Prod.fst heq
      rw [hfound] at hcell
      simpa [Option.filter, hgeneration] using hcell

/-- Marking a cell changes marks only. -/
theorem unmark_mark (heap : Heap) (ref : Ref) :
    (heap.mark ref).unmark = heap.unmark := by
  have hcell : ∀ cell : Cell, cell.mark.unmark = cell.unmark := by
    intro cell
    obtain ⟨generation, state⟩ := cell
    cases state <;> rfl
  have hpool : ∀ pool : Pool, (pool.mark ref.address.index).unmark = pool.unmark := by
    intro pool
    simp only [Pool.unmark, Pool.mark, map_modify_of_fixed hcell]
  simp only [unmark, mark, modifyPool, map_modify_of_fixed hpool]

/-- A cell is determined by its mark and the rest of it. -/
theorem cell_eq_of_unmark_eq {cell other : Cell}
    (hsame : cell.unmark = other.unmark)
    (hmark : cell.isMarked = other.isMarked) : cell = other := by
  obtain ⟨generation, state⟩ := cell
  obtain ⟨otherGeneration, otherState⟩ := other
  cases state with
  | free next =>
      cases otherState with
      | free otherNext => exact hsame
      | live object marked => cases hsame
  | live object marked =>
      cases otherState with
      | free otherNext => cases hsame
      | live otherObject otherMarked =>
          cases hsame
          cases hmark
          rfl

/-- Cells that differ in marks only are equal if the same ones are marked. -/
theorem cellAt?_eq_of_unmark_eq {other : Heap}
    (hsame : heap.unmark = other.unmark)
    (hmarks : ∀ address, heap.MarkedAt address ↔ other.MarkedAt address)
    (address : Address) : heap.cellAt? address = other.cellAt? address := by
  have hunmark := congrArg (·.cellAt? address) hsame
  have hmark := hmarks address
  simp only [cellAt?_unmark] at hunmark
  unfold MarkedAt at hmark
  cases hcell : heap.cellAt? address with
  | none =>
      rw [hcell] at hunmark
      exact (Option.map_eq_none_iff.mp hunmark.symm).symm
  | some cell =>
      rw [hcell] at hunmark
      obtain ⟨otherCell, hother, heq⟩ := Option.map_eq_some_iff.mp hunmark.symm
      rw [hcell, hother] at hmark
      have hmark : cell.isMarked = otherCell.isMarked := by
        rw [Bool.eq_iff_iff]
        simpa using hmark
      rw [hother, cell_eq_of_unmark_eq heq.symm hmark]

/-- A pool is determined by its cells and the rest of it. -/
theorem pool_eq_of_unmark_eq {pool other : Pool}
    (hsame : pool.unmark = other.unmark) (hcells : pool.cells = other.cells) :
    pool = other := by
  obtain ⟨⟩ := pool
  obtain ⟨⟩ := other
  simp only [Pool.unmark, Pool.mk.injEq] at hsame hcells ⊢
  obtain ⟨rfl, rfl, rfl, rfl, -, rfl, rfl, rfl⟩ := hsame
  exact ⟨rfl, rfl, rfl, rfl, hcells, rfl, rfl, rfl⟩

/-- A heap is determined by the set of its marked cells, its note of a stale
reference and the rest of it. -/
theorem eq_of_unmark_eq {other : Heap} (hsame : heap.unmark = other.unmark)
    (hmarks : ∀ address, heap.MarkedAt address ↔ other.MarkedAt address)
    (hstale : heap.stats.staleTraced = other.stats.staleTraced) :
    heap = other := by
  have hcells := cellAt?_eq_of_unmark_eq hsame hmarks
  obtain ⟨settings, pools, stats⟩ := heap
  obtain ⟨otherSettings, otherPools, otherStats⟩ := other
  obtain ⟨collections, last, reclaimed, stale⟩ := stats
  simp only [unmark, Heap.mk.injEq, CollectionStats.mk.injEq] at hsame hstale
  obtain ⟨rfl, hpools, rfl, rfl, rfl, -⟩ := hsame
  subst hstale
  simp only [Heap.mk.injEq, true_and, and_true]
  refine Array.ext_getElem? fun sizeClass => ?_
  have hpool := congrArg (·[sizeClass]?) hpools
  simp only [Array.getElem?_map] at hpool
  cases hleft : pools[sizeClass]? with
  | none =>
      rw [hleft] at hpool
      exact (Option.map_eq_none_iff.mp hpool.symm).symm
  | some pool =>
      rw [hleft] at hpool
      obtain ⟨otherPool, hright, heq⟩ := Option.map_eq_some_iff.mp hpool.symm
      rw [hright]
      refine congrArg some (pool_eq_of_unmark_eq heq.symm ?_)
      refine Array.ext_getElem? fun index => ?_
      have hat := hcells ⟨sizeClass, index⟩
      simpa [cellAt?_eq_bind, hleft, hright] using hat

/-! ## One visit -/

/-- A visit marks a cell and finds the references of its object.  Or it does
nothing, if the cell is free or marked already.  Or there is no cell, and this
is noted. -/
theorem visit_cases (heap : Heap) (ref : Ref) :
    (∃ object, heap.cell? ref = some ⟨ref.generation, .live object false⟩ ∧
      heap.visit ref = (object.edges, heap.mark ref)) ∨
    (heap.cell? ref ≠ none ∧ heap.visit ref = ([], heap) ∧
      ∀ object, heap.get? ref = some object → heap.MarkedAt ref.address) ∨
    (heap.cell? ref = none ∧ heap.visit ref = ([], heap.noteStale)) := by
  unfold visit
  split
  · next generation object hcell =>
      have hgeneration := (Option.filter_eq_some_iff.mp hcell).2
      simp only [decide_eq_true_eq] at hgeneration
      exact Or.inl ⟨object, hgeneration ▸ hcell, rfl⟩
  · next found hother hcell =>
      refine Or.inr (Or.inl ⟨?_, rfl, fun object hget => ?_⟩)
      · rw [hcell]
        exact Option.some_ne_none _
      · obtain ⟨marked, hlive⟩ := exists_cell_of_get? hget
        cases hcell.symm.trans hlive
        cases marked with
        | false => exact absurd rfl (hother _ _)
        | true => exact ⟨_, (Option.filter_eq_some_iff.mp hlive).1, rfl⟩
  · next hnone => exact Or.inr (Or.inr ⟨hnone, rfl⟩)

/-- A tracer that finds nothing pushes nothing. -/
theorem found_eq_nil
    (hvisit : heap.visit ref = ([], visited))
    (hfound : ∀ edge, edge ∈ found ↔ edge ∈ (heap.visit ref).1) :
    found = [] := by
  rw [hvisit] at hfound
  exact List.eq_nil_iff_forall_not_mem.mpr fun edge hedge =>
    absurd ((hfound edge).mp hedge) List.not_mem_nil

/-- Marking a live cell adds it to the marked ones. -/
theorem markedAt_mark {generation : Generation} {marked : Bool}
    (hcell : heap.cell? ref = some ⟨generation, .live object marked⟩)
    (address : Address) :
    (heap.mark ref).MarkedAt address ↔
      address = ref.address ∨ heap.MarkedAt address := by
  have hat := (Option.filter_eq_some_iff.mp hcell).1
  unfold MarkedAt
  rw [cellAt?_mark]
  split
  · next heq =>
      subst heq
      rw [hat]
      exact ⟨fun _ => Or.inl rfl, fun _ => ⟨_, rfl, rfl⟩⟩
  · next hne => exact (or_iff_right hne).symm

/-- Marking a cell leaves one less to visit. -/
theorem unvisited_mark {generation : Generation}
    (hcell : heap.cell? ref = some ⟨generation, .live object false⟩) :
    (heap.mark ref).unvisited + 1 = heap.unvisited := by
  obtain ⟨pool, hpool, hcell⟩ :=
    exists_pool_of_cellAt? (Option.filter_eq_some_iff.mp hcell).1
  have hcells : (pool.mark ref.address.index).unvisited + 1 = pool.unvisited :=
    total_modify Cell.unvisited hcell Cell.mark
  have hpools := total_modify Pool.unvisited hpool (·.mark ref.address.index)
  simp only [unvisited, mark, modifyPool]
  omega

/-- **A tracer always stops**, whatever it visits next and however often it
pushes a reference: a visit marks a cell, or there are fewer references
pending. -/
theorem wellFounded_traceStep :
    WellFounded fun after before => TraceStep before after := by
  refine Subrelation.wf ?_ (InvImage.wf
    (fun state : List Ref × Heap => (state.2.unvisited, state.1.length))
    (Prod.lex Nat.lt_wfRel Nat.lt_wfRel).wf)
  intro after before hstep
  obtain ⟨hpick, hfound⟩ := hstep
  next pending rest found ref heap =>
    have hfewer : rest.length < pending.length := by
      rw [hpick.length_eq]
      exact Nat.lt_succ_self _
    rcases heap.visit_cases ref with ⟨object, hcell, hvisit⟩ | ⟨-, hvisit, -⟩ |
      ⟨-, hvisit⟩
    · refine Prod.Lex.left _ _ ?_
      rw [hvisit]
      exact Nat.lt_of_lt_of_eq (Nat.lt_succ_self _) (unvisited_mark hcell)
    · show Prod.Lex _ _ (_, (found ++ rest).length) _
      rw [found_eq_nil hvisit hfound, hvisit, List.nil_append]
      exact Prod.Lex.right _ hfewer
    · show Prod.Lex _ _ (_, (found ++ rest).length) _
      rw [found_eq_nil hvisit hfound, hvisit, List.nil_append]
      exact Prod.Lex.right _ hfewer

/-! ## The invariant of the tracer -/

/-- A reference has been followed: its cell is marked if it resolves, and it is
noted if it is stale. -/
structure Followed (start heap : Heap) (ref : Ref) : Prop where
  marked : ∀ object, start.get? ref = some object → heap.MarkedAt ref.address
  noted : start.cell? ref = none → heap.stats.staleTraced = true

/-- A reference will be followed, or it has been. -/
def Covered (start : Heap) (state : List Ref × Heap) (ref : Ref) : Prop :=
  ref ∈ state.1 ∨ Followed start state.2 ref

/-- What holds of a tracer that began in `start` with the given roots. -/
structure Tracing (start : Heap) (roots : List Ref)
    (state : List Ref × Heap) : Prop where
  unmark_eq : state.2.unmark = start.unmark
  pending_upon : ∀ ref ∈ state.1, start.ComesUpon roots ref
  marked_reachable : ∀ address,
    state.2.MarkedAt address → start.Reachable roots address
  noted_stale : state.2.stats.staleTraced = true →
    start.stats.staleTraced = true ∨ start.ComesUponStale roots
  keeps_note : start.stats.staleTraced = true → state.2.stats.staleTraced = true
  roots_covered : ∀ ref ∈ roots, Covered start state ref
  edges_covered : ∀ address generation object, state.2.MarkedAt address →
    start.content? address = some (generation, some object) →
    ∀ ref ∈ object.edges, Covered start state ref

/-- A tracer begins without marks and with the roots pending. -/
theorem tracing_start
    (hunmarked : ∀ address, ¬ start.MarkedAt address)
    (hpending : ∀ ref, ref ∈ pending ↔ ref ∈ roots) :
    Tracing start roots (pending, start) where
  unmark_eq := rfl
  pending_upon ref href := .root ((hpending ref).mp href)
  marked_reachable address hmarked := absurd hmarked (hunmarked address)
  noted_stale hnoted := Or.inl hnoted
  keeps_note hnoted := hnoted
  roots_covered ref href := Or.inl ((hpending ref).mpr href)
  edges_covered address _ _ hmarked := absurd hmarked (hunmarked address)

/-- What was followed stays followed. -/
theorem Followed.mono
    (hfollowed : Followed start heap ref)
    (hmarks : ∀ address, heap.MarkedAt address → visited.MarkedAt address)
    (hnote : heap.stats.staleTraced = true → visited.stats.staleTraced = true) :
    Followed start visited ref := by
  constructor
  · intro object hget
    exact hmarks _ (hfollowed.marked object hget)
  · intro hnone
    exact hnote (hfollowed.noted hnone)

/-- A visit covers the reference that it takes. -/
theorem Covered.step {other : Ref}
    (hother : Covered start (pending, heap) other)
    (hpick : pending.Perm (ref :: rest))
    (hmarks : ∀ address, heap.MarkedAt address → visited.MarkedAt address)
    (hnote : heap.stats.staleTraced = true → visited.stats.staleTraced = true)
    (hself : Followed start visited ref) :
    Covered start (found ++ rest, visited) other := by
  rcases hother with hpending | hfollowed
  · rcases List.mem_cons.mp (hpick.mem_iff.mp hpending) with rfl | hrest
    · exact Or.inr hself
    · exact Or.inl (List.mem_append_right _ hrest)
  · exact Or.inr (hfollowed.mono hmarks hnote)

/-- A visit that marks nothing keeps the invariant if it notes a stale
reference. -/
theorem Tracing.pass (hbefore : Tracing start roots (pending, heap))
    (hpick : pending.Perm (ref :: rest)) (hunmark : visited.unmark = heap.unmark)
    (hmarks : ∀ address, visited.MarkedAt address ↔ heap.MarkedAt address)
    (hnote : heap.stats.staleTraced = true → visited.stats.staleTraced = true)
    (hnoted : visited.stats.staleTraced = true →
      heap.stats.staleTraced = true ∨ start.cell? ref = none)
    (hself : Followed start visited ref) :
    Tracing start roots ([] ++ rest, visited) where
  unmark_eq := hunmark.trans hbefore.unmark_eq
  pending_upon other hother := hbefore.pending_upon other
    (hpick.mem_iff.mpr (List.mem_cons_of_mem _ hother))
  marked_reachable address hmarked :=
    hbefore.marked_reachable address ((hmarks address).mp hmarked)
  noted_stale hstale := by
    rcases hnoted hstale with hbegun | hnone
    · exact hbefore.noted_stale hbegun
    · have hupon := hbefore.pending_upon ref (hpick.mem_iff.mpr List.mem_cons_self)
      exact Or.inr ⟨ref, hupon, hnone⟩
  keeps_note hbegun := hnote (hbefore.keeps_note hbegun)
  roots_covered other hother := (hbefore.roots_covered other hother).step hpick
    (fun address => (hmarks address).mpr) hnote hself
  edges_covered address generation object hmarked hobject other hother :=
    (hbefore.edges_covered address generation object ((hmarks address).mp hmarked)
      hobject other hother).step hpick (fun address => (hmarks address).mpr) hnote hself

/-- A visit that marks a cell keeps the invariant: all references of its object
are pending now. -/
theorem Tracing.mark
    (hbefore : Tracing start roots (pending, heap))
    (hpick : pending.Perm (ref :: rest))
    (hcell : heap.cell? ref = some ⟨ref.generation, .live object false⟩)
    (hobject : start.get? ref = some object)
    (hfound : ∀ edge, edge ∈ found ↔ edge ∈ object.edges) :
    Tracing start roots (found ++ rest, heap.mark ref) := by
  have hreach : start.Reachable roots ref.address :=
    (hbefore.pending_upon ref (hpick.mem_iff.mpr List.mem_cons_self)).reachable hobject
  have hmark := markedAt_mark hcell
  have hkeep : ∀ address, heap.MarkedAt address → (heap.mark ref).MarkedAt address :=
    fun address hmarked => (hmark address).mpr (Or.inr hmarked)
  have hself : Followed start (heap.mark ref) ref := by
    refine ⟨fun _ _ => (hmark _).mpr (Or.inl rfl), fun hnone => ?_⟩
    rw [get?, hnone] at hobject
    cases hobject
  refine ⟨?_, ?_, ?_, hbefore.noted_stale, hbefore.keeps_note, ?_, ?_⟩
  · rw [unmark_mark, hbefore.unmark_eq]
  · intro other hother
    rcases List.mem_append.mp hother with hnew | hold
    · exact .edge hreach (get?_eq_some_iff.mp hobject) ((hfound other).mp hnew)
    · exact hbefore.pending_upon other
        (hpick.mem_iff.mpr (List.mem_cons_of_mem _ hold))
  · intro address haddress
    rcases (hmark address).mp haddress with rfl | hold
    · exact hreach
    · exact hbefore.marked_reachable address hold
  · exact fun other hother =>
      (hbefore.roots_covered other hother).step hpick hkeep id hself
  · intro address generation target haddress htarget other hother
    rcases (hmark address).mp haddress with rfl | hold
    · cases (get?_eq_some_iff.mp hobject).symm.trans htarget
      exact Or.inl (List.mem_append_left _ ((hfound other).mpr hother))
    · exact (hbefore.edges_covered address generation target hold htarget
        other hother).step hpick hkeep id hself

/-- **One visit keeps the invariant.** -/
theorem Tracing.step
    {before after : List Ref × Heap} (hbefore : Tracing start roots before)
    (hstep : TraceStep before after) : Tracing start roots after := by
  obtain ⟨hpick, hfound⟩ := hstep
  next pending rest found ref heap =>
  have hcontent : heap.content? = start.content? :=
    content?_eq_of_unmark_eq hbefore.unmark_eq
  have hget : heap.get? = start.get? := get?_eq_of_content?_eq hcontent
  rcases heap.visit_cases ref with ⟨object, hcell, hvisit⟩ |
    ⟨hsome, hvisit, hmarked⟩ | ⟨hnone, hvisit⟩
  · have hobject : start.get? ref = some object := by
      rw [← hget, get?, hcell]
      rfl
    rw [hvisit] at hfound ⊢
    exact hbefore.mark hpick hcell hobject hfound
  · -- The visit does nothing, since nothing is left to do for the reference.
    rw [found_eq_nil hvisit hfound, hvisit]
    refine hbefore.pass hpick rfl (fun _ => Iff.rfl) id Or.inl ⟨?_, fun hnone => ?_⟩
    · rw [← hget]
      exact hmarked
    · exact absurd (cell?_eq_none_of_content?_eq hcontent.symm hnone) hsome
  · -- The visit notes that the reference is stale.
    rw [found_eq_nil hvisit hfound, hvisit]
    have hstale := cell?_eq_none_of_content?_eq hcontent hnone
    refine hbefore.pass hpick rfl (fun _ => Iff.rfl) (fun _ => rfl)
      (fun _ => Or.inr hstale) ⟨fun object hobject => ?_, fun _ => rfl⟩
    rw [get?, hstale] at hobject
    cases hobject

/-- **When nothing is pending, the marked cells are the reachable ones.** -/
theorem Tracing.markedAt_iff
    (htracing : Tracing start roots ([], heap)) (address : Address) :
    heap.MarkedAt address ↔ start.Reachable roots address := by
  refine ⟨htracing.marked_reachable address, fun hreach => ?_⟩
  induction hreach with
  | root hroot hget =>
      rcases htracing.roots_covered _ hroot with hpending | hfollowed
      · cases hpending
      · exact hfollowed.marked _ hget
  | edge _ hcontent hedge hget ih =>
      rcases htracing.edges_covered _ _ _ ih hcontent _ hedge with
        hpending | hfollowed
      · cases hpending
      · exact hfollowed.marked _ hget

/-- **When nothing is pending, a stale reference is noted exactly if the tracer
came upon one**, or if one was noted before. -/
theorem Tracing.staleTraced_iff
    (htracing : Tracing start roots ([], heap)) :
    heap.stats.staleTraced = true ↔
      start.stats.staleTraced = true ∨ start.ComesUponStale roots := by
  refine ⟨htracing.noted_stale, fun hstale => ?_⟩
  rcases hstale with hbegun | ⟨ref, hupon, hnone⟩
  · exact htracing.keeps_note hbegun
  · have hcovered : Covered start ([], heap) ref := by
      cases hupon with
      | root hroot => exact htracing.roots_covered ref hroot
      | edge hreach hcontent hedge =>
          have hmarked := (htracing.markedAt_iff _).mpr hreach
          exact htracing.edges_covered _ _ _ hmarked hcontent ref hedge
    rcases hcovered with hpending | hfollowed
    · cases hpending
    · exact hfollowed.noted hnone

/-! ## Whole runs -/

/-- The invariant holds along every run. -/
theorem Tracing.run
    {before after : List Ref × Heap} (hbefore : Tracing start roots before)
    (hrun : Relation.ReflTransGen TraceStep before after) :
    Tracing start roots after := by
  induction hrun with
  | refl => exact hbefore
  | tail _ hstep ih => exact ih.step hstep

/-- The tracer that the heap uses is one of these. -/
theorem run_trace (heap : Heap) (pending : List Ref) :
    Relation.ReflTransGen TraceStep (pending, heap)
      ([], heap.trace pending) := by
  fun_induction trace heap pending with
  | case1 heap => exact .refl
  | case2 heap ref pending found visited hvisit huntraced ih =>
      refine .head ?_ ih
      have hstep : TraceStep (ref :: pending, heap)
          (found.reverse ++ pending, (heap.visit ref).2) :=
        .visit (List.Perm.refl _) fun edge => by rw [hvisit, List.mem_reverse]
      rwa [hvisit] at hstep

/-- **All runs end in the same heap**: neither the order nor the multiplicity
of roots and references matters. -/
theorem eq_trace_of_run
    (hunmarked : ∀ address, ¬ start.MarkedAt address)
    (hpending : ∀ ref, ref ∈ pending ↔ ref ∈ roots)
    (hrun : Relation.ReflTransGen TraceStep (pending, start) ([], heap)) :
    heap = start.trace roots := by
  have hany := (tracing_start hunmarked hpending).run hrun
  have hown := (tracing_start hunmarked fun _ => Iff.rfl).run
    (run_trace start roots)
  refine eq_of_unmark_eq (hany.unmark_eq.trans hown.unmark_eq.symm) ?_ ?_
  · exact fun address => (hany.markedAt_iff address).trans
      (hown.markedAt_iff address).symm
  · rw [Bool.eq_iff_iff]
    exact hany.staleTraced_iff.trans hown.staleTraced_iff.symm

end Heap

end LazyDispatch
