import AmneziaWg.Lib.GcmField
import AmneziaWg.Qinit.Seal

/-!
# The multiplication of qinit.c

`gcm_gmul` shifts and adds bytes, and treats its two arguments differently. It is the
multiplication of a field all the same, and `ghash_data` evaluates a polynomial there.

* **Laws**: each is read off the residue classes, where `elem` is injective.
-/

namespace AmneziaWg.Qinit

open Linux Gcm Polynomial

/-- The block `80 00 .. 00`. -/
def oneBlock : Block := fun i => if i = 0 then 0x80 else 0

/-- The residue class of a block. -/
noncomputable def blockElem (b : Block) : AdjoinRoot modulus := elem (bits b)

theorem blockElem_injective : Function.Injective blockElem :=
  elem_injective.comp bits_injective

theorem blockElem_gcmGmul (z v : Block) : blockElem (gcmGmul z v) = blockElem z * blockElem v := by
  rw [blockElem, bits_gcmGmul, elem_mul]
  rfl

theorem blockElem_xor (a b : Block) :
    blockElem (fun i => a i ^^^ b i) = blockElem a + blockElem b := by
  rw [blockElem, bits_xor, elem_addBits]
  rfl

theorem blockElem_oneBlock : blockElem oneBlock = 1 := by
  have hbits : bits oneBlock = ofNat 1 := by
    funext i
    revert i
    decide
  rw [blockElem, hbits, elem_one]

/-- `gcm_gmul` multiplies in the field of 2^128 elements, with the laws that follow, and
`ghash_data` evaluates the polynomial of its blocks at `h`. -/
theorem gcmGmul_field :
    Irreducible modulus ∧
    (∀ z v : Block, poly (bits (gcmGmul z v)) = (poly (bits z) * poly (bits v)) %ₘ modulus) ∧
    (∀ z v : Block, gcmGmul z v = gcmGmul v z) ∧
    (∀ u z v : Block, gcmGmul (gcmGmul u z) v = gcmGmul u (gcmGmul z v)) ∧
    (∀ u z v : Block,
      gcmGmul (fun i => u i ^^^ z i) v = fun i => gcmGmul u v i ^^^ gcmGmul z v i) ∧
    (∀ u z v : Block,
      gcmGmul u (fun i => z i ^^^ v i) = fun i => gcmGmul u z i ^^^ gcmGmul u v i) ∧
    (∀ z : Block, gcmGmul oneBlock z = z ∧ gcmGmul z oneBlock = z) ∧
    ∀ (state : Block) (data : Bytes) (h : Block),
      poly (bits (ghashData state data h)) =
        ghashPoly (bits h) (bits state) (blocks data) %ₘ modulus := by
  refine ⟨modulus_irreducible, ?_, ?_, ?_, ?_, ?_, ?_, ?_⟩
  · intro z v
    rw [bits_gcmGmul, poly_mul]
  · intro z v
    apply blockElem_injective
    rw [blockElem_gcmGmul, blockElem_gcmGmul, mul_comm]
  · intro u z v
    apply blockElem_injective
    rw [blockElem_gcmGmul, blockElem_gcmGmul, blockElem_gcmGmul, blockElem_gcmGmul, mul_assoc]
  · intro u z v
    apply blockElem_injective
    rw [blockElem_gcmGmul, blockElem_xor, blockElem_xor, blockElem_gcmGmul, blockElem_gcmGmul,
      add_mul]
  · intro u z v
    apply blockElem_injective
    rw [blockElem_gcmGmul, blockElem_xor, blockElem_xor, blockElem_gcmGmul, blockElem_gcmGmul,
      mul_add]
  · intro z
    constructor
    · apply blockElem_injective
      rw [blockElem_gcmGmul, blockElem_oneBlock, one_mul]
    · apply blockElem_injective
      rw [blockElem_gcmGmul, blockElem_oneBlock, mul_one]
  · intro state data h
    rw [bits_ghashData, poly_ghash]

end AmneziaWg.Qinit
