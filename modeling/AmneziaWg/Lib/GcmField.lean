import AmneziaWg.Lib.Gcm
import Mathlib.Algebra.CharP.Two
import Mathlib.Algebra.Polynomial.OfFn
import Mathlib.Algebra.Field.ZMod
import Mathlib.FieldTheory.Finite.Extension
import Mathlib.RingTheory.AdjoinRoot
import Mathlib.Tactic.ComputeDegree

/-!
# The hash of Galois/Counter Mode in polynomials

A string of 128 bits is a polynomial over the field of two elements, its first bit the constant
coefficient. The product of bit strings is the product of polynomials, reduced.

* **Polynomials**: `poly`, `modulus`.
* **Residue classes**: `elem_mul`, the shifts and additions of `mul` multiply classes.
* **Hash**: `poly_ghash`, the hash is a polynomial with the blocks as coefficients, evaluated at
  the key.
-/

namespace Gcm

open Polynomial Linux

noncomputable section

/-! ## Polynomials -/

/-- A bit as an element of the field of two. -/
def coefficient (b : Bool) : ZMod 2 := if b then 1 else 0

/-- The polynomial of a bit string, with bit `i` the coefficient of `X ^ i`. -/
def poly (b : Bits) : (ZMod 2)[X] := ofFn 128 fun i => coefficient (b i)

/-- The polynomial of the field. -/
def modulus : (ZMod 2)[X] := X ^ 128 + X ^ 7 + X ^ 2 + X + 1

theorem coefficient_xor (a b : Bool) : coefficient (a ^^ b) = coefficient a + coefficient b := by
  cases a <;> cases b <;> decide

theorem coefficient_injective : Function.Injective coefficient := by
  intro a b h
  cases a <;> cases b <;> first | rfl | exact absurd h (by decide)

theorem coeff_poly_of_lt (b : Bits) {n : ℕ} (h : n < 128) :
    (poly b).coeff n = coefficient (b ⟨n, h⟩) := ofFn_coeff_eq_val_of_lt _ h

theorem coeff_poly_of_ge (b : Bits) {n : ℕ} (h : 128 ≤ n) : (poly b).coeff n = 0 :=
  ofFn_coeff_eq_zero_of_ge _ h

theorem poly_injective : Function.Injective poly := by
  intro x y h
  funext i
  exact coefficient_injective (congrFun (injective_ofFn 128 h) i)

theorem poly_addBits (x y : Bits) : poly (addBits x y) = poly x + poly y := by
  rw [poly, poly, poly, ← map_add]
  refine congrArg _ (funext ?_)
  intro i
  exact coefficient_xor (x i) (y i)

theorem poly_zero : poly (fun _ => false) = 0 := map_zero _

theorem modulus_natDegree : modulus.natDegree = 128 := by
  unfold modulus
  compute_degree!

theorem modulus_monic : modulus.Monic := by
  unfold modulus
  monicity!

theorem degree_poly_lt (b : Bits) : (poly b).degree < modulus.degree := by
  rw [degree_eq_natDegree modulus_monic.ne_zero, modulus_natDegree]
  exact ofFn_degree_lt _

theorem poly_reduction : poly reduction = X ^ 7 + X ^ 2 + X + 1 := by
  ext n
  rw [coeff_add, coeff_add, coeff_add, coeff_X_pow, coeff_X_pow, coeff_X, coeff_one]
  by_cases h : n < 8
  · rw [coeff_poly_of_lt _ (by omega)]
    interval_cases n <;> rfl
  · -- neither side has a coefficient from degree eight on
    have hzero : (poly reduction).coeff n = 0 := by
      by_cases hn : n < 128
      · rw [coeff_poly_of_lt _ hn]
        have hoff : reduction ⟨n, hn⟩ = false := by
          simp only [reduction, Fin.ext_iff, Bool.or_eq_false_iff, decide_eq_false_iff_not]
          refine ⟨⟨⟨?_, ?_⟩, ?_⟩, ?_⟩ <;> (intro hc; change n = _ at hc; omega)
        rw [hoff]
        rfl
      · exact coeff_poly_of_ge _ (by omega)
    rw [hzero, if_neg (by omega), if_neg (by omega), if_neg (by omega), if_neg (by omega)]
    rfl

/-- Multiplication by the variable shifts, and the last bit leaves the string. -/
theorem X_mul_poly (v : Bits) :
    X * poly v = poly (shiftRight v) + C (coefficient (v 127)) * X ^ 128 := by
  ext n
  rw [coeff_add, coeff_C_mul_X_pow]
  cases n with
  | zero =>
    rw [coeff_X_mul_zero, coeff_poly_of_lt _ (by omega), if_neg (by omega), add_zero]
    rfl
  | succ n =>
    rw [coeff_X_mul]
    rcases Nat.lt_trichotomy (n + 1) 128 with h | h | h
    · -- inside the string: the bit before
      rw [coeff_poly_of_lt _ (by omega), coeff_poly_of_lt _ h, if_neg (by omega), add_zero]
      rfl
    · -- the last bit has become the coefficient of `X ^ 128`
      have hlast : n = 127 := by omega
      subst hlast
      rw [coeff_poly_of_lt _ (by omega), coeff_poly_of_ge _ (by omega), if_pos rfl, zero_add]
      rfl
    · rw [coeff_poly_of_ge _ (by omega), coeff_poly_of_ge _ (by omega), if_neg (by omega), add_zero]

/-! ## Residue classes -/

/-- Polynomials of one class, of which one is reduced. -/
theorem eq_modByMonic_of_mk_eq {R : Type*} [CommRing R] [Nontrivial R] {g p q : R[X]} (hg : g.Monic)
    (hp : p.degree < g.degree) (h : AdjoinRoot.mk g p = AdjoinRoot.mk g q) : p = q %ₘ g := by
  have hmod := congrArg (AdjoinRoot.modByMonicHom hg) h
  rw [AdjoinRoot.modByMonicHom_mk, AdjoinRoot.modByMonicHom_mk,
    (modByMonic_eq_self_iff hg).mpr hp] at hmod
  exact hmod

/-- The class of a bit string. -/
def elem (b : Bits) : AdjoinRoot modulus := AdjoinRoot.mk modulus (poly b)

theorem elem_injective : Function.Injective elem := by
  intro x y h
  have hmod := eq_modByMonic_of_mk_eq modulus_monic (degree_poly_lt x) h
  rw [(modByMonic_eq_self_iff modulus_monic).mpr (degree_poly_lt y)] at hmod
  exact poly_injective hmod

theorem elem_addBits (x y : Bits) : elem (addBits x y) = elem x + elem y := by
  rw [elem, poly_addBits, map_add]
  rfl

theorem elem_zero : elem (fun _ => false) = 0 := by
  rw [elem, poly_zero, map_zero]

theorem modulus_eq : modulus = X ^ 128 + poly reduction := by
  unfold modulus
  rw [poly_reduction]
  simp only [add_assoc]

theorem elem_add_self (x : Bits) : elem x + elem x = 0 := by
  have hzero : addBits x x = fun _ => false := by
    funext i
    exact Bool.xor_self (x i)
  rw [← elem_addBits, hzero, elem_zero]

/-- The highest power of the variable is the reduction. -/
theorem mk_X_pow : AdjoinRoot.mk modulus (X ^ 128) = elem reduction := by
  have hzero : AdjoinRoot.mk modulus (X ^ 128) + elem reduction = 0 := by
    rw [elem, ← map_add, ← modulus_eq]
    exact AdjoinRoot.mk_self
  rw [eq_neg_of_add_eq_zero_left hzero]
  exact (eq_neg_of_add_eq_zero_left (elem_add_self reduction)).symm

theorem of_coefficient_mul (b : Bool) (e : AdjoinRoot modulus) :
    AdjoinRoot.of modulus (coefficient b) * e = if b then e else 0 := by
  cases b with
  | true => exact (congrArg (· * e) (map_one _)).trans (one_mul e)
  | false => exact (congrArg (· * e) (map_zero _)).trans (zero_mul e)

/-- The second part of a step multiplies by the variable. -/
theorem elem_mulStep_snd (b : Bool) (s : Bits × Bits) :
    elem (mulStep b s).2 = AdjoinRoot.root modulus * elem s.2 := by
  have hshift : AdjoinRoot.root modulus * elem s.2 =
      elem (shiftRight s.2) + AdjoinRoot.of modulus (coefficient (s.2 127)) * elem reduction := by
    rw [elem, ← AdjoinRoot.mk_X, ← map_mul, X_mul_poly, map_add, map_mul, mk_X_pow]
    rfl
  rw [hshift, of_coefficient_mul, mulStep]
  dsimp only
  split
  · rw [elem_addBits]
  · rw [add_zero]

theorem elem_mulStep_fst (b : Bool) (s : Bits × Bits) :
    elem (mulStep b s).1 = elem s.1 + AdjoinRoot.of modulus (coefficient b) * elem s.2 := by
  rw [of_coefficient_mul, mulStep]
  dsimp only
  split
  · rw [elem_addBits]
  · rw [add_zero]

/-- A run of steps over bits adds the multiples of `s.2` that they select. -/
theorem elem_steps {n : ℕ} (x : Fin n → Bool) (s : Bits × Bits) :
    elem ((List.ofFn x).foldl (fun s b => mulStep b s) s).1 =
      elem s.1 + (∑ i : Fin n, AdjoinRoot.of modulus (coefficient (x i)) *
        AdjoinRoot.root modulus ^ (i : ℕ)) * elem s.2 := by
  induction n generalizing s with
  | zero => simp
  | succ n ih =>
    -- the later bits come with one more power of the variable
    have hsum : ∑ i : Fin n, AdjoinRoot.of modulus (coefficient (x i.succ)) *
          AdjoinRoot.root modulus ^ (i.succ : ℕ) =
        (∑ i : Fin n, AdjoinRoot.of modulus (coefficient (x i.succ)) *
          AdjoinRoot.root modulus ^ (i : ℕ)) * AdjoinRoot.root modulus := by
      rw [Finset.sum_mul]
      refine Finset.sum_congr rfl ?_
      intro i _
      rw [Fin.val_succ, pow_succ, mul_assoc]
    rw [List.ofFn_succ, List.foldl_cons, ih, elem_mulStep_fst, elem_mulStep_snd,
      Fin.sum_univ_succ, hsum, Fin.val_zero, pow_zero, mul_one, add_mul, add_assoc, mul_assoc]

theorem elem_eq_sum (x : Bits) :
    elem x = ∑ i : Fin 128, AdjoinRoot.of modulus (coefficient (x i)) *
      AdjoinRoot.root modulus ^ (i : ℕ) := by
  rw [elem, poly, ofFn_eq_sum_monomial, map_sum]
  refine Finset.sum_congr rfl ?_
  intro i _
  rw [← C_mul_X_pow_eq_monomial, map_mul, map_pow, AdjoinRoot.mk_X]
  rfl

theorem elem_mul (x y : Bits) : elem (mul x y) = elem x * elem y := by
  -- all passes, from zero
  have hrun := elem_steps x (fun _ => false, y)
  rw [elem_zero, zero_add, ← elem_eq_sum, List.ofFn_eq_map, List.foldl_map] at hrun
  exact hrun

/-- The product of bit strings is the product of their polynomials, reduced. -/
theorem poly_mul (x y : Bits) : poly (mul x y) = (poly x * poly y) %ₘ modulus := by
  refine eq_modByMonic_of_mk_eq modulus_monic (degree_poly_lt _) ?_
  rw [map_mul]
  exact elem_mul x y

/-! ## The hash -/

/-- Horner's rule, with a factor after every summand. -/
theorem foldl_horner {R β : Type*} [CommSemiring R] (f : β → R) (h s : R) (l : List β) :
    l.foldl (fun y b => (y + f b) * h) s =
      s * h ^ l.length + ∑ i : Fin l.length, f (l.get i) * h ^ (l.length - i) := by
  induction l generalizing s with
  | nil => simp
  | cons b l ih =>
    have hsum : ∑ i : Fin (b :: l).length, f ((b :: l).get i) * h ^ ((b :: l).length - i) =
        f b * h ^ (l.length + 1) + ∑ i : Fin l.length, f (l.get i) * h ^ (l.length - i) := by
      refine (Fin.sum_univ_succ _).trans ?_
      refine congrArg (f b * h ^ (l.length + 1) + ·) (Finset.sum_congr rfl ?_)
      intro i _
      rw [Fin.val_succ, List.length_cons, Nat.add_sub_add_right]
      rfl
    rw [List.foldl_cons, ih, hsum, List.length_cons]
    ring

/-- The polynomial of the hash: the state and then the blocks are the coefficients, and the last
block comes with the first power of the key. -/
def ghashPoly (h state : Bits) (bs : List Block) : (ZMod 2)[X] :=
  poly state * poly h ^ bs.length +
    ∑ i : Fin bs.length, poly (bits (bs.get i)) * poly h ^ (bs.length - i)

theorem elem_ghash (h state : Bits) (bs : List Block) :
    elem (ghash h state bs) = bs.foldl (fun y b => (y + elem (bits b)) * elem h) (elem state) := by
  induction bs generalizing state with
  | nil => rfl
  | cons b bs ih =>
    rw [List.foldl_cons, ← elem_addBits, ← elem_mul, ← ih]
    rfl

/-- The hash is its polynomial, reduced. -/
theorem poly_ghash (h state : Bits) (bs : List Block) :
    poly (ghash h state bs) = ghashPoly h state bs %ₘ modulus := by
  refine eq_modByMonic_of_mk_eq modulus_monic (degree_poly_lt _) ?_
  refine (elem_ghash h state bs).trans ?_
  rw [foldl_horner, ghashPoly, map_add, map_mul, map_pow, map_sum]
  simp only [map_mul, map_pow]
  rfl

/-! ## The field -/

/-- Rabin's test, for a degree that is a power of a prime. -/
theorem irreducible_of_frobenius {p : ℕ} [Fact p.Prime] {g : (ZMod p)[X]} {q e m n : ℕ}
    (hq : q.Prime) (hm : m = q ^ e) (hn : n = q ^ (e + 1)) (hdeg : g.natDegree = n)
    (hfixed : g ∣ X ^ p ^ n - X) (hmoved : IsCoprime g (X ^ p ^ m - X)) : Irreducible g := by
  have hcard : Nat.card (ZMod p) = p := Nat.card_zmod p
  subst hm hn
  have hpos : 0 < g.natDegree := by
    rw [hdeg]
    exact Nat.pow_pos hq.pos
  have hzero : g ≠ 0 := ne_zero_of_natDegree_gt hpos
  rcases WfDvdMonoid.exists_irreducible_factor (not_isUnit_of_natDegree_pos g hpos) hzero with
    ⟨f, hf, hfg⟩
  have hdvd : f.natDegree ∣ q ^ (e + 1) := by
    apply hf.natDegree_dvd_of_dvd_X_pow_card_pow_sub_X
    rw [hcard]
    exact hfg.trans hfixed
  -- so the degree of the factor is a power of `q`, too
  rcases (Nat.dvd_prime_pow hq).mp hdvd with ⟨i, hi, hfdeg⟩
  rcases Nat.lt_or_ge i (e + 1) with hlt | hge
  · -- a factor of smaller degree would divide both coprime polynomials
    have hsmall : f.natDegree ∣ q ^ e := by
      rw [hfdeg]
      exact Nat.pow_dvd_pow q (by omega)
    have hfX := hf.natDegree_dvd_iff_dvd_X_pow_card_pow_sub_X.mp hsmall
    rw [hcard] at hfX
    exact absurd (hmoved.isUnit_of_dvd' hfg hfX) hf.not_isUnit
  · -- a factor of full degree is all of `g`
    have hle : g.natDegree ≤ f.natDegree := by
      rw [hdeg, hfdeg]
      exact Nat.pow_le_pow_right hq.pos hge
    exact (associated_of_dvd_of_natDegree_le hfg hzero hle).irreducible hf

end

/-- The bits of a number, the lowest one first. -/
def ofNat (n : ℕ) : Bits := fun i => n.testBit i

/-- The multiplication, on numbers. -/
def natSteps : ℕ → ℕ → ℕ → ℕ → ℕ
  | 0, _, _, z => z
  | n + 1, x, y, z =>
    natSteps n (x / 2) ((2 * y) ^^^ (y / 2 ^ 127 % 2 * (2 ^ 128 + 0x87))) (z ^^^ (x % 2 * y))

/-- Squared that many times. -/
def natSquares : ℕ → ℕ → ℕ
  | 0, x => x
  | k + 1, x => natSquares k (natSteps 128 x x 0)

theorem ofNat_xor (x y : ℕ) : ofNat (x ^^^ y) = addBits (ofNat x) (ofNat y) := by
  funext i
  exact Nat.testBit_xor x y i

theorem ofNat_zero : ofNat 0 = fun _ => false := by
  funext i
  exact Nat.zero_testBit i

theorem ofNat_double (y : ℕ) : ofNat (2 * y) = shiftRight (ofNat y) := by
  funext i
  rcases i with ⟨i, hi⟩
  cases i with
  | zero => 
    show (2 * y).testBit 0 = false
    rw [Nat.testBit_zero]
    simp
  | succ i =>
    show (2 * y).testBit (i + 1) = y.testBit i
    rw [Nat.testBit_succ, Nat.mul_div_cancel_left y (by omega)]

theorem ofNat_reduction : ofNat (2 ^ 128 + 0x87) = reduction := by
  decide +kernel

/-- A bit times a number is the number or nothing. -/
theorem ofNat_xor_scaled (x n y : ℕ) :
    ofNat (x ^^^ (n % 2 * y)) =
      if decide (n % 2 = 1) then addBits (ofNat x) (ofNat y) else ofNat x := by
  rcases Nat.mod_two_eq_zero_or_one n with h | h
  · rw [h, Nat.zero_mul, Nat.xor_zero]
    rfl
  · rw [h, Nat.one_mul, ofNat_xor]
    rfl

theorem mulStep_ofNat (x y z : ℕ) :
    mulStep (x.testBit 0) (ofNat z, ofNat y) =
      (ofNat (z ^^^ (x % 2 * y)), ofNat ((2 * y) ^^^ (y / 2 ^ 127 % 2 * (2 ^ 128 + 0x87)))) := by
  have hlast : ofNat y 127 = decide (y / 2 ^ 127 % 2 = 1) := Nat.testBit_eq_decide_div_mod_eq
  rw [mulStep, ofNat_xor_scaled, ofNat_xor_scaled, ofNat_double, ofNat_reduction, Nat.testBit_zero,
    ← hlast]

theorem natSteps_eq (n x y z : ℕ) :
    ofNat (natSteps n x y z) =
      ((List.ofFn fun i : Fin n => x.testBit i).foldl (fun s b => mulStep b s)
        (ofNat z, ofNat y)).1 := by
  induction n generalizing x y z with
  | zero => rfl
  | succ n ih =>
    rw [natSteps, ih, List.ofFn_succ, List.foldl_cons, Fin.val_zero, mulStep_ofNat]
    simp only [Fin.val_succ, Nat.testBit_succ]

theorem ofNat_natSteps (x y : ℕ) : ofNat (natSteps 128 x y 0) = mul (ofNat x) (ofNat y) := by
  rw [natSteps_eq, List.ofFn_eq_map, List.foldl_map, ofNat_zero]
  rfl

theorem elem_natSquares (k x : ℕ) : elem (ofNat (natSquares k x)) = elem (ofNat x) ^ 2 ^ k := by
  induction k generalizing x with
  | zero => rw [natSquares, pow_zero, pow_one]
  | succ k ih => rw [natSquares, ih, ofNat_natSteps, elem_mul, ← sq, ← pow_mul, pow_succ']

theorem poly_ofNat_pow {j : ℕ} (hj : j < 128) : poly (ofNat (2 ^ j)) = X ^ j := by
  ext n
  rw [coeff_X_pow]
  by_cases h : n < 128
  · rw [coeff_poly_of_lt _ h, ofNat, Nat.testBit_two_pow, coefficient]
    simp only [decide_eq_true_eq, @eq_comm _ j]
  · rw [coeff_poly_of_ge _ (by omega), if_neg (by omega)]

theorem elem_one : elem (ofNat 1) = 1 := by
  rw [elem, ← pow_zero 2, poly_ofNat_pow (by omega), pow_zero, map_one]

theorem elem_two : elem (ofNat 2) = AdjoinRoot.mk modulus X := by
  have hX : poly (ofNat (2 ^ 1)) = X ^ 1 := poly_ofNat_pow (by omega)
  rw [pow_one X] at hX
  exact congrArg (AdjoinRoot.mk modulus) hX

theorem mk_X_pow_two_pow (k : ℕ) :
    AdjoinRoot.mk modulus (X ^ 2 ^ k) = elem (ofNat (natSquares k 2)) := by
  rw [elem_natSquares, elem_two, map_pow]

theorem natSquares_add (j k x : ℕ) : natSquares (j + k) x = natSquares k (natSquares j x) := by
  induction j generalizing x with
  | zero => rw [Nat.zero_add, natSquares]
  | succ j ih => rw [Nat.succ_add, natSquares, natSquares, ih]

theorem natSquares_half : natSquares 64 2 = 0x61651fea6b5832b944e598a795a299f6 := by
  decide +kernel

theorem natSquares_rest : natSquares 64 0x61651fea6b5832b944e598a795a299f6 = 2 := by
  decide +kernel

/-- The inverse of `X ^ 2 ^ 64 - X`. -/
theorem natSteps_inverse :
    natSteps 128 0x9e4af928ddbc838a41a8cafd2c95b018 (0x61651fea6b5832b944e598a795a299f6 ^^^ 2) 0 =
      1 := by
  decide +kernel

/-- A number with an inverse is coprime to the modulus. -/
theorem isCoprime_of_inverse {p : (ZMod 2)[X]} {u : Bits}
    (h : elem u * AdjoinRoot.mk modulus p = 1) : IsCoprime modulus p := by
  have hmk : AdjoinRoot.mk modulus (poly u * p) = AdjoinRoot.mk modulus 1 := by
    rw [map_mul, map_one]
    exact h
  rcases AdjoinRoot.mk_eq_mk.mp hmk with ⟨w, hw⟩
  refine ⟨-w, poly u, ?_⟩
  rw [sub_eq_iff_eq_add.mp hw]
  ring

theorem dvd_of_natSquares {n : ℕ} (h : natSquares n 2 = 2) : modulus ∣ X ^ 2 ^ n - X := by
  rw [← AdjoinRoot.mk_eq_mk, mk_X_pow_two_pow, h, elem_two]

theorem isCoprime_of_natSquares {m a u : ℕ} (h : natSquares m 2 = a)
    (hu : natSteps 128 u (a ^^^ 2) 0 = 1) : IsCoprime modulus (X ^ 2 ^ m - X) := by
  refine @isCoprime_of_inverse _ (ofNat u) ?_
  rw [CharTwo.sub_eq_add, map_add, mk_X_pow_two_pow, h, ← elem_two, ← elem_addBits, ← ofNat_xor,
    ← elem_mul, ← ofNat_natSteps, hu, elem_one]

/-- Rabin's test on numbers. -/
theorem irreducible_of_natSquares {e m n a u : ℕ} (hm : m = 2 ^ e) (hn : n = 2 ^ (e + 1))
    (hdeg : modulus.natDegree = n) (hall : natSquares n 2 = 2) (hhalf : natSquares m 2 = a)
    (hu : natSteps 128 u (a ^^^ 2) 0 = 1) : Irreducible modulus := by
  have hfixed := dvd_of_natSquares hall
  have hmoved := isCoprime_of_natSquares hhalf hu
  exact irreducible_of_frobenius Nat.prime_two hm hn hdeg hfixed hmoved

/-- The residue classes are a field. -/
theorem modulus_irreducible : Irreducible modulus := by
  have hall : natSquares 128 2 = 2 := by
    rw [natSquares_add 64 64, natSquares_half, natSquares_rest]
  exact @irreducible_of_natSquares 6 64 128 _ _ rfl rfl modulus_natDegree hall natSquares_half
    natSteps_inverse

end Gcm
