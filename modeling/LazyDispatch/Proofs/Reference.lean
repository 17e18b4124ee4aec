import LazyDispatch.Ref

/-!
# The parts of a packed reference

A reference packs a size class, a generation and an index into one word.
Packing loses nothing: each part is read back as it was put in, and a word is
the packing of its own parts.  So two references are equal as soon as they name
the same cell in the same generation (`Ref.ext_address`).
-/

namespace LazyDispatch

namespace Ref

variable (sizeClass : BitVec 8) (index : BitVec 32) (generation : Generation)

/-- The size class is read back. -/
theorem sizeClass_ofParts :
    (ofParts sizeClass index generation).sizeClass = sizeClass := by
  apply BitVec.eq_of_getLsbD_eq
  intro bit hbit
  simp only [Ref.sizeClass, ofParts, BitVec.getLsbD_extractLsb',
    BitVec.getLsbD_append]
  grind

/-- The index is read back. -/
theorem index_ofParts :
    (ofParts sizeClass index generation).index = index := by
  apply BitVec.eq_of_getLsbD_eq
  intro bit hbit
  simp only [Ref.index, ofParts, BitVec.getLsbD_extractLsb',
    BitVec.getLsbD_append]
  grind

/-- The generation is read back. -/
theorem generation_ofParts :
    (ofParts sizeClass index generation).generation = generation := by
  apply BitVec.eq_of_getLsbD_eq
  intro bit hbit
  simp only [Ref.generation, ofParts, BitVec.getLsbD_extractLsb',
    BitVec.getLsbD_append]
  grind

/-- Every reference is the packing of its parts. -/
theorem ofParts_eta (ref : Ref) :
    ofParts ref.sizeClass ref.index ref.generation = ref := by
  obtain ⟨word⟩ := ref
  refine congrArg Ref.mk (BitVec.eq_of_getLsbD_eq ?_)
  intro bit hbit
  simp only [Ref.sizeClass, Ref.generation, Ref.index,
    BitVec.getLsbD_extractLsb', BitVec.getLsbD_append]
  grind

/-- The address of a packed reference, if its numbers fit. -/
theorem address_ofParts {sizeClass index : Nat} (hclass : sizeClass < 256)
    (hindex : index < 4294967296) :
    (ofParts (.ofNat 8 sizeClass) (.ofNat 32 index) generation).address =
      ⟨sizeClass, index⟩ := by
  rw [address, sizeClass_ofParts, index_ofParts, BitVec.toNat_ofNat,
    BitVec.toNat_ofNat, Nat.mod_eq_of_lt hclass, Nat.mod_eq_of_lt hindex]

/-- References to the same cell in the same generation are equal. -/
theorem ext_address {ref other : Ref} (haddress : ref.address = other.address)
    (hgeneration : ref.generation = other.generation) : ref = other := by
  obtain ⟨hclass, hindex⟩ := Address.mk.inj haddress
  rw [← ref.ofParts_eta, ← other.ofParts_eta, BitVec.eq_of_toNat_eq hclass,
    BitVec.eq_of_toNat_eq hindex, hgeneration]

end Ref

end LazyDispatch
