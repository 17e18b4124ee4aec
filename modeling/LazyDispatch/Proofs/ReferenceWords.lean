import LazyDispatch.Proofs.Reference
import Mathlib.Algebra.Group.Nat.Defs
import Mathlib.Logic.Function.Iterate
import Mathlib.Order.Bounds.Defs

/-!
# References as machine words

A reference is one word of 64 bits, and whether it is stale is decided by
comparing its parts.  So the parts must neither overlap nor lose a bit, and a
generation must not come round early.

`Ref.packing_is_faithful` states both.  The layout of a word is also given the
way a machine computes it, with shifts, casts and a mask: there a generation is
the low part of a word of 32 bits, and the mask cuts off the rest, when a word
is packed, when it is read, and when a cell is reclaimed.
-/

namespace LazyDispatch

/-! ## Generations as words of 32 bits -/

namespace Generation

/-- The bits of a word of 32 bits that belong to a generation. -/
def mask : BitVec 32 := (1 <<< 24) - 1

/-- The mask keeps the low 24 bits. -/
theorem and_mask (word : BitVec 32) :
    word &&& mask = (word.setWidth 24).setWidth 32 := by
  apply BitVec.eq_of_toNat_eq
  have hmask : mask.toNat = 2 ^ 24 - 1 := by decide
  rw [BitVec.toNat_and, hmask, Nat.and_two_pow_sub_one_eq_mod, BitVec.toNat_setWidth,
    BitVec.toNat_setWidth]
  omega

/-- The next generation is the next number, cut by the mask. -/
theorem setWidth_next (generation : Generation) :
    generation.next.setWidth 32 = (generation.setWidth 32 + 1) &&& mask := by
  have hlow : (generation.setWidth 32 + 1).setWidth 24 = generation + 1 := by
    rw [BitVec.setWidth_add _ _ (by decide), BitVec.setWidth_setWidth_of_le _ (by decide),
      BitVec.setWidth_eq]
    rfl
  rw [and_mask, hlow, next]

/-! ## The cycle of generations -/

/-- Reclaiming a cell again and again counts the reclamations. -/
theorem iterate_next (generation : Generation) (steps : Nat) :
    next^[steps] generation = generation + BitVec.ofNat 24 steps := by
  induction steps with
  | zero => simp
  | succ steps ih =>
      rw [Function.iterate_succ_apply', ih, next, BitVec.ofNat_add, BitVec.add_assoc]
      rfl

/-- A generation comes back after every `2 ^ 24` reclamations, and at no other
time. -/
theorem iterate_next_eq_self_iff {generation : Generation} {steps : Nat} :
    next^[steps] generation = generation ↔ 2 ^ 24 ∣ steps := by
  have hlt := generation.isLt
  rw [iterate_next, BitVec.toNat_eq, BitVec.toNat_add, BitVec.toNat_ofNat]
  omega

end Generation

/-! ## The layout of a word -/

namespace Ref

/-- Packing shifts each part to its place, after the mask has cut the
generation. -/
theorem word_ofParts (sizeClass : BitVec 8) (index generation : BitVec 32) :
    (ofParts sizeClass index (generation.setWidth 24)).word =
      index.setWidth 64 ||| (generation &&& Generation.mask).setWidth 64 <<< 32 |||
        sizeClass.setWidth 64 <<< 56 := by
  rw [Generation.and_mask]
  apply BitVec.eq_of_getLsbD_eq
  intro bit hbit
  simp only [ofParts, BitVec.getLsbD_append, BitVec.getLsbD_or, BitVec.getLsbD_shiftLeft,
    BitVec.getLsbD_setWidth]
  grind

/-- The index is what a cast to 32 bits leaves of the word. -/
theorem index_eq_setWidth (ref : Ref) : ref.index = ref.word.setWidth 32 :=
  (BitVec.setWidth_eq_extractLsb' (by decide)).symm

/-- The generation is read by a shift, a cast and the mask. -/
theorem setWidth_generation (ref : Ref) :
    ref.generation.setWidth 32 = (ref.word >>> 32).setWidth 32 &&& Generation.mask := by
  rw [Generation.and_mask]
  apply BitVec.eq_of_getLsbD_eq
  intro bit hbit
  simp only [generation, BitVec.getLsbD_extractLsb', BitVec.getLsbD_setWidth,
    BitVec.getLsbD_ushiftRight]
  grind

/-- The size class is read by a shift and a cast. -/
theorem sizeClass_eq_setWidth (ref : Ref) :
    ref.sizeClass = (ref.word >>> 56).setWidth 8 := by
  apply BitVec.eq_of_getLsbD_eq
  intro bit hbit
  simp only [sizeClass, BitVec.getLsbD_extractLsb', BitVec.getLsbD_setWidth,
    BitVec.getLsbD_ushiftRight]

/-! ## Packing is faithful -/

/-- References are equal exactly if their parts are. -/
theorem eq_iff_parts {ref other : Ref} :
    ref = other ↔ ref.sizeClass = other.sizeClass ∧ ref.index = other.index ∧
      ref.generation = other.generation := by
  constructor
  · intro hsame
    rw [hsame]
    exact ⟨rfl, rfl, rfl⟩
  · intro hparts
    obtain ⟨hclass, hindex, hgeneration⟩ := hparts
    rw [← ref.ofParts_eta, ← other.ofParts_eta, hclass, hindex, hgeneration]

/-- Every word is packed from exactly one triple of parts. -/
theorem bijective_ofParts : Function.Bijective
    fun parts : BitVec 8 × BitVec 32 × Generation => ofParts parts.1 parts.2.1 parts.2.2 := by
  constructor
  · intro parts others hsame
    obtain ⟨hclass, hindex, hgeneration⟩ := eq_iff_parts.mp hsame
    simp only [sizeClass_ofParts, index_ofParts, generation_ofParts] at hclass hindex hgeneration
    exact Prod.ext hclass (Prod.ext hindex hgeneration)
  · intro ref
    exact ⟨(ref.sizeClass, ref.index, ref.generation), ref.ofParts_eta⟩

/-- **Packed references are faithful.**  The parts that are packed are read
back, every word is packed from the parts that are read from it, and so packing
is a bijection and equality of references is equality of their parts.  A
generation comes back for the first time after `2 ^ 24` reclamations.  The last
three parts say that this is the layout of shifts, casts and the mask. -/
theorem packing_is_faithful :
    (∀ sizeClass index generation,
      (ofParts sizeClass index generation).sizeClass = sizeClass ∧
        (ofParts sizeClass index generation).index = index ∧
        (ofParts sizeClass index generation).generation = generation) ∧
      (∀ ref : Ref, ofParts ref.sizeClass ref.index ref.generation = ref) ∧
      Function.Bijective
        (fun parts : BitVec 8 × BitVec 32 × Generation => ofParts parts.1 parts.2.1 parts.2.2) ∧
      (∀ ref other : Ref, ref = other ↔ ref.sizeClass = other.sizeClass ∧
        ref.index = other.index ∧ ref.generation = other.generation) ∧
      (∀ generation : Generation,
        IsLeast {steps | 0 < steps ∧ Generation.next^[steps] generation = generation} (2 ^ 24)) ∧
      (∀ (sizeClass : BitVec 8) (index generation : BitVec 32),
        (ofParts sizeClass index (generation.setWidth 24)).word =
          index.setWidth 64 ||| (generation &&& Generation.mask).setWidth 64 <<< 32 |||
            sizeClass.setWidth 64 <<< 56) ∧
      (∀ ref : Ref, ref.sizeClass = (ref.word >>> 56).setWidth 8 ∧
        ref.index = ref.word.setWidth 32 ∧
        ref.generation.setWidth 32 = (ref.word >>> 32).setWidth 32 &&& Generation.mask) ∧
      ∀ generation : Generation,
        generation.next.setWidth 32 = (generation.setWidth 32 + 1) &&& Generation.mask := by
  refine ⟨fun sizeClass index generation => ⟨sizeClass_ofParts _ _ _, index_ofParts _ _ _,
      generation_ofParts _ _ _⟩, ofParts_eta, bijective_ofParts, fun _ _ => eq_iff_parts, ?_,
    word_ofParts, fun ref => ⟨ref.sizeClass_eq_setWidth, ref.index_eq_setWidth,
      ref.setWidth_generation⟩, Generation.setWidth_next⟩
  intro generation
  constructor
  · exact ⟨Nat.two_pow_pos 24, Generation.iterate_next_eq_self_iff.mpr (Nat.dvd_refl _)⟩
  · intro steps hsteps
    exact Nat.le_of_dvd hsteps.1 (Generation.iterate_next_eq_self_iff.mp hsteps.2)

end Ref

end LazyDispatch
