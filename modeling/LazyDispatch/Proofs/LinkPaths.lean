import LazyDispatch.Proofs.CreationOrder
import Mathlib.Data.List.Chain
import Mathlib.Logic.Relation

/-!
# Paths along links

Objects are linked in several ways: an environment to the one that encloses it,
a list to its items.  If links of one sort never lead back to where they
started, then no path along them visits an object twice.  So a path is no longer
than the heap has cells, and what follows links needs no more fuel than that
(`Acyclic.endsWithin`).
-/

namespace LazyDispatch.Heap

variable {link : Ref → Ref → Prop} {heap : Heap} {ref next : Ref} {object : HeapObject}
  {path : List Ref} {steps : Nat}

/-- No object is linked to itself, directly or over others. -/
def Acyclic (link : Ref → Ref → Prop) : Prop :=
  ∀ ref, ¬Relation.TransGen link ref ref

/-- Following links from a reference takes fewer than so many steps. -/
inductive EndsWithin (link : Ref → Ref → Prop) : Nat → Ref → Prop
  | step {steps : Nat} {ref : Ref} (hnext : ∀ next, link ref next → EndsWithin link steps next) :
      EndsWithin link (steps + 1) ref

theorem EndsWithin.mono {more : Nat} (hends : EndsWithin link steps ref)
    (hle : steps ≤ more) :
    EndsWithin link more ref := by
  induction hends generalizing more with
  | step _ ih =>
      obtain ⟨more, rfl⟩ : ∃ fewer, more = fewer + 1 := ⟨more - 1, by omega⟩
      exact .step fun next hlink => ih next hlink (Nat.le_of_succ_le_succ hle)

theorem endsWithin_of_paths
    (hpaths : ∀ path, (ref :: path).IsChain link → path.length < steps) :
    EndsWithin link steps ref := by
  induction steps generalizing ref with
  | zero => exact absurd (hpaths [] (.singleton ref)) (Nat.lt_irrefl 0)
  | succ steps ih =>
      refine .step fun next hlink => ih fun path hpath => ?_
      exact Nat.lt_of_succ_lt_succ (hpaths (next :: path) (.cons_cons hlink hpath))

/-! ## Links that never lead back -/

/-- A path along such links visits no object twice. -/
theorem Acyclic.nodup (hacyclic : Acyclic link) (hpath : path.IsChain link) :
    path.Nodup := by
  have hlater : path.Pairwise (Relation.TransGen link) :=
    List.isChain_iff_pairwise.mp (hpath.imp fun _ _ hlink => .single hlink)
  refine hlater.imp fun {first second} hleads heq => ?_
  rw [heq] at hleads
  exact hacyclic second hleads

theorem isLive_of_isChain (hlive : ∀ ref next, link ref next → heap.isLive next = true)
    (hpath : (ref :: path).IsChain link) : ∀ later ∈ path, heap.isLive later = true := by
  induction path generalizing ref with
  | nil => exact nofun
  | cons next path ih =>
      obtain ⟨hlink, hrest⟩ := List.isChain_cons_cons.mp hpath
      intro later hlater
      rcases List.mem_cons.mp hlater with rfl | hmem
      · exact hlive ref later hlink
      · exact ih hrest later hmem

/-- **Following links comes to an end** within as many steps as the heap has
cells. -/
theorem Acyclic.endsWithin (hacyclic : Acyclic link)
    (hlive : ∀ ref next, link ref next → heap.isLive next = true)
    (href : heap.isLive ref = true) :
    EndsWithin link heap.totalCells ref := by
  apply endsWithin_of_paths
  intro path hpath
  have hall : (ref :: path).countP heap.isLive = (ref :: path).length := by
    apply List.countP_eq_length.mpr
    intro later hlater
    rcases List.mem_cons.mp hlater with rfl | hmem
    · exact href
    · exact isLive_of_isChain hlive hpath later hmem
  have hcount : (ref :: path).countP heap.isLive ≤ heap.totalCells :=
    countP_isLive_le (hacyclic.nodup hpath)
  rw [hall] at hcount
  exact hcount

/-- Links that lead downward never lead back. -/
theorem acyclic_of_descends (rank : Ref → Nat)
    (hdescends : ∀ ref next, link ref next → rank next < rank ref) :
    Acyclic link := by
  have hall : ∀ {ref next}, Relation.TransGen link ref next → rank next < rank ref := by
    intro ref next hleads
    induction hleads with
    | single hlink => exact hdescends _ _ hlink
    | tail _ hlink ih => exact Nat.lt_trans (hdescends _ _ hlink) ih
  exact fun ref hleads => Nat.lt_irrefl _ (hall hleads)

/-! ## All references -/

/-- The references to the cells of a pool, in their generations. -/
def poolRefs (sizeClass : Nat) (pool : Pool) : List Ref :=
  pool.cells.toList.mapIdx fun index cell =>
    .ofParts (.ofNat 8 sizeClass) (.ofNat 32 index) cell.generation

/-- The references to all cells, in their generations. -/
def refs (heap : Heap) : List Ref :=
  (heap.pools.toList.mapIdx poolRefs).flatten

/-- What resolves is among them. -/
theorem mem_refs_of_get? (hget : heap.get? ref = some object) :
    ref ∈ heap.refs := by
  obtain ⟨cell, hcell, -⟩ := Option.bind_eq_some_iff.mp hget
  obtain ⟨hat, hgeneration⟩ := Option.filter_eq_some_iff.mp hcell
  obtain ⟨pool, hpool, hindex⟩ := exists_pool_of_cellAt? hat
  refine List.mem_flatten.mpr ⟨poolRefs ref.address.sizeClass pool, ?_, ?_⟩
  · refine List.mem_iff_getElem?.mpr ⟨ref.address.sizeClass, ?_⟩
    rw [List.getElem?_mapIdx, Array.getElem?_toList, hpool]
    rfl
  · refine List.mem_iff_getElem?.mpr ⟨ref.address.index, ?_⟩
    rw [poolRefs, List.getElem?_mapIdx, Array.getElem?_toList, hindex]
    have hsame : cell.generation = ref.generation := of_decide_eq_true hgeneration
    simp [hsame, Ref.address, Ref.ofParts_eta]

end LazyDispatch.Heap
