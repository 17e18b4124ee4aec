import LazyDispatch.Heap.Basic
import LazyDispatch.Proofs.FreeList
import Mathlib.Data.List.Nodup

/-!
# What the check of a heap decides

A pool keeps two counters and the head of its free list, all three apart from
the cells.  Nothing in the type of a pool says that they agree: a counter may be
off, and the links may run in a circle, lead to a live cell, or lead out of the
pool.  `Pool.Accounted` says what it means that they agree.

The check counts the live cells and follows the list for no more steps than the
free counter allows.  It does not look for a cell that it has met before, and it
does not count the free cells.  That this is enough is the subject of this
module: the check passes exactly the accounted pools (`Pool.verify_eq_ok_iff`),
and a heap passes exactly if all of its pools do.  A heap that does not pass
names the first pool at fault.
-/

namespace LazyDispatch

namespace Pool

/-- The counters of a pool are right, and its free list ends and visits every
free cell exactly once. -/
structure Accounted (pool : Pool) : Prop where
  allocatedCells_eq : pool.allocatedCells = pool.cells.countP Cell.isLive
  freeCells_eq : pool.freeCells = pool.cells.countP fun cell => !cell.isLive
  listed : ∃ visited, Threaded pool.cells pool.freeHead visited ∧
    ∀ index, FreeAt pool.cells index → visited.count index = 1

/-- The counters of a pool next to the number of its cells, as its check reports
them. -/
def counters (pool : Pool) : Inconsistency :=
  ⟨pool.sizeClass, pool.allocatedCells, pool.freeCells, pool.totalCells⟩

theorem length_freeIndices (pool : Pool) :
    pool.freeIndices.length = pool.cells.countP fun cell => !cell.isLive := by
  rw [countP_eq_length_filter_range, freeIndices]

/-- The free list of an accounted pool makes it coherent. -/
theorem Accounted.exists_coherent {pool : Pool} (hpool : pool.Accounted) :
    ∃ free, pool.Coherent free := by
  obtain ⟨visited, hthreaded, honce⟩ := hpool.listed
  have hfree : ∀ index, index ∈ visited ↔ FreeAt pool.cells index := by
    intro index
    constructor
    · exact hthreaded.freeAt
    · intro hindex
      rw [← List.count_pos_iff, honce index hindex]
      exact Nat.one_pos
  have hlength : pool.freeCells = visited.length := by
    rw [hthreaded.length_eq hfree, length_freeIndices]
    exact hpool.freeCells_eq
  have hlive : pool.allocatedCells = pool.liveCells := hpool.allocatedCells_eq
  have hall := pool.liveCells_add_freeIndices
  rw [← hthreaded.length_eq hfree] at hall
  exact ⟨visited, Coherent.of_counted hthreaded hfree hlength (by omega)⟩

/-- A coherent pool is accounted. -/
theorem Coherent.accounted {pool : Pool} {free : List Nat}
    (hpool : pool.Coherent free) : pool.Accounted where
  allocatedCells_eq := hpool.allocatedCells_eq
  freeCells_eq := by
    rw [hpool.freeCells_eq, hpool.threaded.length_eq hpool.mem_free, length_freeIndices]
  listed := by
    refine ⟨free, hpool.threaded, ?_⟩
    intro index hindex
    exact List.count_eq_one_of_mem hpool.nodup ((hpool.mem_free index).mpr hindex)

/-- **The check of a pool** passes exactly the accounted pools. -/
theorem verify_eq_ok_iff (pool : Pool) :
    pool.verify = .ok () ↔ pool.Accounted := by
  constructor
  · intro hverify
    obtain ⟨free, hfree⟩ := exists_coherent_of_verify hverify
    exact hfree.accounted
  · intro hpool
    obtain ⟨free, hfree⟩ := hpool.exists_coherent
    exact hfree.verify

/-- Whatever the check does not pass, it reports with its counters. -/
theorem verify_eq_error_iff (pool : Pool) :
    pool.verify = .error pool.counters ↔ ¬ pool.Accounted := by
  rw [← verify_eq_ok_iff]
  unfold verify
  split
  · exact iff_of_false nofun (not_not_intro rfl)
  · exact iff_of_true rfl nofun

/-- The links of these two free cells run in a circle.  The check gives up when
it has followed more links than there are free cells. -/
example : Pool.verify ⟨0, 16, 2, 1, #[⟨0, .free (some 1)⟩, ⟨0, .free (some 0)⟩],
    some 0, 2, 0, rfl⟩ = .error ⟨0, 0, 2, 2⟩ := rfl

end Pool

namespace Heap

variable {heap : Heap}

/-- The pools in front of a faulty one are checked and passed over. -/
theorem forM_verify_append {before : List Pool}
    (hbefore : ∀ pool ∈ before, pool.Accounted) (pools : List Pool) :
    (before ++ pools).forM Pool.verify = pools.forM Pool.verify := by
  induction before with
  | nil => rfl
  | cons first rest ih =>
      obtain ⟨hfirst, hrest⟩ := List.forall_mem_cons.mp hbefore
      rw [← ih hrest]
      show (first.verify >>= fun _ => (rest ++ pools).forM Pool.verify) = _
      rw [(Pool.verify_eq_ok_iff first).mpr hfirst]
      rfl

/-- A heap of accounted pools passes its check. -/
theorem verify_eq_ok (hheap : ∀ pool ∈ heap.pools, pool.Accounted) :
    heap.verify = .ok () := by
  simp only [← Array.mem_toList_iff] at hheap
  have hverify := forM_verify_append hheap []
  rw [List.append_nil] at hverify
  exact hverify

/-- The first faulty pool of a heap is the one that is reported. -/
theorem verify_eq_error {before after : List Pool} {pool : Pool}
    (hsplit : heap.pools.toList = before ++ pool :: after)
    (hbefore : ∀ earlier ∈ before, earlier.Accounted) (hpool : ¬ pool.Accounted)
    :
    heap.verify = .error pool.counters := by
  rw [Heap.verify, hsplit, forM_verify_append hbefore]
  show (pool.verify >>= fun _ => after.forM Pool.verify) = _
  rw [pool.verify_eq_error_iff.mpr hpool]
  rfl

/-- A heap in which not every pool is accounted has a first faulty pool. -/
theorem exists_first_faulty (hheap : ¬ ∀ pool ∈ heap.pools, pool.Accounted) :
    ∃ before pool after, heap.pools.toList = before ++ pool :: after ∧
      (∀ earlier ∈ before, earlier.Accounted) ∧ ¬ pool.Accounted := by
  classical
  simp only [← Array.mem_toList_iff] at hheap
  push Not at hheap
  obtain ⟨faulty, hmem, hfaulty⟩ := hheap
  obtain ⟨pool, hfind⟩ : ∃ pool, heap.pools.toList.find? (¬ Pool.Accounted ·) = some pool :=
    Option.isSome_iff_exists.mp (List.find?_isSome.mpr ⟨faulty, hmem, by simpa using hfaulty⟩)
  obtain ⟨hpool, before, after, hsplit, hbefore⟩ := List.find?_eq_some_iff_append.mp hfind
  refine ⟨before, pool, after, hsplit, ?_, by simpa using hpool⟩
  intro earlier hearlier
  simpa using hbefore earlier hearlier

/-- A heap that passes its check has accounted pools only. -/
theorem accounted_of_verify (hverify : heap.verify = .ok ()) :
    ∀ pool ∈ heap.pools, pool.Accounted := by
  by_contra hfaulty
  obtain ⟨before, pool, after, hsplit, hbefore, hpool⟩ := exists_first_faulty hfaulty
  rw [verify_eq_error hsplit hbefore hpool] at hverify
  cases hverify

/-- **The check is complete.**  Whatever the counters, the head and the links of
a pool are, its check passes it exactly if the counters count the live and the
free cells and the free list ends and visits every free cell exactly once;
otherwise the check returns the counters of the pool.  The check of a heap
passes exactly if this holds of every pool; otherwise it returns the counters of
the first pool of which it does not hold. -/
theorem verify_complete :
    (∀ pool : Pool, (pool.verify = .ok () ↔ pool.Accounted) ∧
      (pool.verify = .error pool.counters ↔ ¬ pool.Accounted)) ∧
    ∀ heap : Heap, (heap.verify = .ok () ↔ ∀ pool ∈ heap.pools, pool.Accounted) ∧
      ∀ found, heap.verify = .error found ↔
        ∃ before pool after, heap.pools.toList = before ++ pool :: after ∧
          (∀ earlier ∈ before, earlier.Accounted) ∧ ¬ pool.Accounted ∧
          found = pool.counters := by
  refine ⟨fun pool => ⟨pool.verify_eq_ok_iff, pool.verify_eq_error_iff⟩, fun heap => ?_⟩
  refine ⟨⟨accounted_of_verify, verify_eq_ok⟩, fun found => ⟨?_, ?_⟩⟩
  · intro herror
    have hfaulty : ¬ ∀ pool ∈ heap.pools, pool.Accounted := by
      intro hheap
      rw [verify_eq_ok hheap] at herror
      cases herror
    obtain ⟨before, pool, after, hsplit, hbefore, hpool⟩ := exists_first_faulty hfaulty
    rw [verify_eq_error hsplit hbefore hpool] at herror
    exact ⟨before, pool, after, hsplit, hbefore, hpool, (Except.error.inj herror).symm⟩
  · intro hfirst
    obtain ⟨before, pool, after, hsplit, hbefore, hpool, rfl⟩ := hfirst
    exact verify_eq_error hsplit hbefore hpool

end Heap

end LazyDispatch
