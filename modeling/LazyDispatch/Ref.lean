/-!
# References

A reference names a cell of the heap: the size class of its pool, its index
there, and its generation, which counts how often the cell was reclaimed.  The
three parts are packed into one 64-bit word, so a reference is as cheap to copy
and compare as a number.
-/

namespace LazyDispatch

/-- How often a cell was reclaimed, modulo `2 ^ 24`. -/
abbrev Generation := BitVec 24

/-- The generation after one more reclamation. -/
def Generation.next (generation : Generation) : Generation := generation + 1

/-- Where a cell lies: the size class of its pool and its index there. -/
structure Address where
  sizeClass : Nat
  index : Nat
deriving DecidableEq

/-- A packed reference: size class, generation and index, from the high bits
down. -/
structure Ref where
  word : BitVec 64
deriving DecidableEq

namespace Ref

/-- Packs the three parts. -/
def ofParts (sizeClass : BitVec 8) (index : BitVec 32) (generation : Generation)
    : Ref :=
  ⟨sizeClass ++ generation ++ index⟩

/-- The size class of the pool. -/
def sizeClass (ref : Ref) : BitVec 8 := ref.word.extractLsb' 56 8

/-- The index of the cell in its pool. -/
def index (ref : Ref) : BitVec 32 := ref.word.extractLsb' 0 32

/-- The generation that the cell had when the reference was made. -/
def generation (ref : Ref) : Generation := ref.word.extractLsb' 32 24

/-- The address of the cell. -/
def address (ref : Ref) : Address :=
  ⟨ref.sizeClass.toNat, ref.index.toNat⟩

/-- The reference written out for fault messages. -/
def text (ref : Ref) : String :=
  "ObjectRef \x7b class: " ++ toString ref.sizeClass.toNat ++ ", index: " ++
    toString ref.index.toNat ++ ", generation: " ++ toString ref.generation.toNat ++ " \x7d"

end Ref

end LazyDispatch
