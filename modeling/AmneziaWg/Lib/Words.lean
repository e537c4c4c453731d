import Mathlib.Tactic.Ring
import AmneziaWg.Lib.Linux

/-!
# Words and the numbers they denote

* **Bytes**: `leValue`, the number of a buffer whose first byte is the lowest, and `le`, its
  bytes; cutting a buffer is dividing its number.
* **Loads and stores**: `readLe32`, `readLe64`, `le32` and `le64` on these numbers.
* **Bits**: masks, shifts and disjunctions of words as arithmetic, for code that keeps a long
  number in several words.
-/

namespace Words

open Linux

/-! ## Bytes -/

/-- The number that a buffer denotes, the first byte being the lowest. -/
def leValue : Bytes → ℕ
  | [] => 0
  | b :: bs => b.toNat + 256 * leValue bs

/-- `n` in `k` bytes, the lowest first. -/
def le : ℕ → ℕ → Bytes
  | 0, _ => []
  | k + 1, n => BitVec.ofNat 8 n :: le k (n / 256)

@[simp] theorem leValue_nil : leValue [] = 0 := rfl

theorem leValue_cons (b : U8) (bs : Bytes) : leValue (b :: bs) = b.toNat + 256 * leValue bs := rfl

@[simp] theorem length_le (k n : ℕ) : (le k n).length = k := by
  induction k generalizing n with
  | zero => rfl
  | succ k ih => rw [le, List.length_cons, ih]

theorem leValue_lt (bs : Bytes) : leValue bs < 256 ^ bs.length := by
  induction bs with
  | nil => simp
  | cons b bs ih =>
    have hb := b.isLt
    rw [leValue_cons, List.length_cons, Nat.pow_succ]
    omega

theorem leValue_append (xs ys : Bytes) :
    leValue (xs ++ ys) = leValue xs + 256 ^ xs.length * leValue ys := by
  induction xs with
  | nil => simp
  | cons x xs ih =>
    rw [List.cons_append, leValue_cons, leValue_cons, ih, List.length_cons, Nat.pow_succ]
    ring

theorem leValue_zeros (n : ℕ) : leValue (List.replicate n 0) = 0 := by
  induction n with
  | zero => rfl
  | succ n ih => rw [List.replicate_succ, leValue_cons, ih]; rfl

/-- The first bytes are what is left modulo a power. -/
theorem leValue_take (bs : Bytes) (k : ℕ) : leValue (bs.take k) = leValue bs % 256 ^ k := by
  induction bs generalizing k with
  | nil => simp
  | cons b bs ih =>
    cases k with
    | zero => simp [Nat.mod_one]
    | succ k =>
      have hb := b.isLt
      rw [List.take_succ_cons, leValue_cons, leValue_cons, ih, Nat.pow_succ',
        Nat.mod_mul (x := b.toNat + 256 * leValue bs)]
      congr 1
      · omega
      · rw [Nat.add_mul_div_left _ _ (by omega), Nat.div_eq_of_lt hb, Nat.zero_add]

/-- The bytes behind the first ones are the quotient by a power. -/
theorem leValue_drop (bs : Bytes) (k : ℕ) : leValue (bs.drop k) = leValue bs / 256 ^ k := by
  induction bs generalizing k with
  | nil => simp
  | cons b bs ih =>
    cases k with
    | zero => simp
    | succ k =>
      have hb := b.isLt
      rw [List.drop_succ_cons, leValue_cons, ih, Nat.pow_succ', ← Nat.div_div_eq_div_mul,
        Nat.add_mul_div_left _ _ (by omega), Nat.div_eq_of_lt hb, Nat.zero_add]

theorem leValue_le (k n : ℕ) : leValue (le k n) = n % 256 ^ k := by
  induction k generalizing n with
  | zero => simp [le, Nat.mod_one]
  | succ k ih =>
    have hsplit : n % 256 ^ (k + 1) = n % 256 + 256 * (n / 256 % 256 ^ k) := by
      rw [Nat.pow_succ', Nat.mod_mul]
    rw [le, leValue_cons, ih, BitVec.toNat_ofNat, hsplit]

/-- Bytes are the bytes of their number. -/
theorem le_leValue (bs : Bytes) : le bs.length (leValue bs) = bs := by
  induction bs with
  | nil => rfl
  | cons b bs ih =>
    have hb := b.isLt
    have hfirst : BitVec.ofNat 8 (b.toNat + 256 * leValue bs) = b := by
      apply BitVec.eq_of_toNat_eq
      rw [BitVec.toNat_ofNat]
      omega
    have hrest : (b.toNat + 256 * leValue bs) / 256 = leValue bs := by omega
    rw [List.length_cons, le, leValue_cons, hfirst, hrest, ih]

/-- Buffers of one length that denote one number are equal. -/
theorem leValue_inj {xs ys : Bytes} (hlen : xs.length = ys.length) (h : leValue xs = leValue ys) :
    xs = ys := by
  rw [← le_leValue xs, ← le_leValue ys, hlen, h]

theorem le_append (j k n : ℕ) : le (j + k) n = le j n ++ le k (n / 256 ^ j) := by
  induction j generalizing n with
  | zero => simp [le]
  | succ j ih =>
    rw [Nat.add_right_comm, le, le, ih, Nat.pow_succ', Nat.div_div_eq_div_mul, List.cons_append]

/-! ## Loads and stores -/

theorem toNat_readLe32 (b : Bytes) : (readLe32 b).toNat = leValue (b.take 4) := by
  have hread : (readLe32 b).toNat = (b.getD 0 0).toNat + 256 * ((b.getD 1 0).toNat +
      256 * ((b.getD 2 0).toNat + 256 * (b.getD 3 0).toNat)) := by
    have h₀ := (b.getD 0 0).isLt
    have h₁ := (b.getD 1 0).isLt
    have h₂ := (b.getD 2 0).isLt
    have h₃ := (b.getD 3 0).isLt
    rw [readLe32, BitVec.toNat_ofNat]
    omega
  rw [hread]
  -- a byte that is not there counts as zero
  match b with
  | [] => rfl
  | [_] => rfl
  | [_, _] => rfl
  | [_, _, _] => rfl
  | _ :: _ :: _ :: _ :: _ => rfl

theorem toNat_readLe64 (b : Bytes) : (readLe64 b).toNat = leValue (b.take 8) := by
  have hlow := (readLe32 b).isLt
  rw [readLe64, BitVec.toNat_append, Nat.shiftLeft_eq, Nat.mul_comm,
    ← Nat.two_pow_add_eq_or_of_lt hlow, toNat_readLe32, toNat_readLe32, leValue_take, leValue_take,
    leValue_take, leValue_drop]
  omega

theorem le32_eq (v : U32) : le32 v = le 4 v.toNat := by
  have hbyte : ∀ k, (v >>> (8 * k)).setWidth 8 = BitVec.ofNat 8 (v.toNat / 256 ^ k) := by
    intro k
    apply BitVec.eq_of_toNat_eq
    have hpow : 2 ^ (8 * k) = 256 ^ k := by rw [Nat.pow_mul]
    simp [Nat.shiftRight_eq_div_pow, hpow]
  have hlow : v.setWidth 8 = BitVec.ofNat 8 (v.toNat / 256 ^ 0) := hbyte 0
  rw [le32, hlow, hbyte 1, hbyte 2, hbyte 3]
  simp only [le, Nat.div_div_eq_div_mul, Nat.pow_zero, Nat.div_one, Nat.reducePow, Nat.reduceMul]

theorem le64_eq (v : U64) : le64 v = le 8 v.toNat := by
  have hv := v.isLt
  have hlow : le 4 (v.toNat % 2 ^ 32) = le 4 v.toNat := by
    apply leValue_inj (by rw [length_le, length_le])
    rw [leValue_le, leValue_le]
    omega
  have hhigh : (v >>> 32).toNat % 2 ^ 32 = v.toNat / 256 ^ 4 := by
    rw [BitVec.toNat_ushiftRight, Nat.shiftRight_eq_div_pow]
    omega
  rw [le64, le32_eq, le32_eq, BitVec.toNat_setWidth, BitVec.toNat_setWidth, hlow, hhigh,
    show 8 = 4 + 4 from rfl, le_append]

/-! ## Bits -/

/-- A mask of `k` low bits. -/
theorem toNat_and_ones {w : ℕ} (x m : BitVec w) (k : ℕ) (hm : m.toNat = 2 ^ k - 1) :
    (x &&& m).toNat = x.toNat % 2 ^ k := by
  rw [BitVec.toNat_and, hm, Nat.and_two_pow_sub_one_eq_mod]

theorem toNat_shiftRight {w : ℕ} (x : BitVec w) (k : ℕ) : (x >>> k).toNat = x.toNat / 2 ^ k := by
  rw [BitVec.toNat_ushiftRight, Nat.shiftRight_eq_div_pow]

theorem toNat_shiftLeft {w : ℕ} (x : BitVec w) (k : ℕ) :
    (x <<< k).toNat = x.toNat * 2 ^ k % 2 ^ w := by
  rw [BitVec.toNat_shiftLeft, Nat.shiftLeft_eq]

/-- A word below the bits of another one. -/
theorem toNat_or_of_lt {w k : ℕ} {x y : BitVec w} (hx : x.toNat < 2 ^ k)
    (hy : 2 ^ k ∣ y.toNat) : (x ||| y).toNat = x.toNat + y.toNat := by
  rcases hy with ⟨n, hn⟩
  rw [BitVec.toNat_or, hn, Nat.or_comm, ← Nat.two_pow_add_eq_or_of_lt hx, Nat.add_comm]

/-- The product of two words in a word of twice the width. -/
theorem toNat_mul_wide {w v : ℕ} (h : v = w + w) (x y : BitVec w) :
    (x.setWidth v * y.setWidth v).toNat = x.toNat * y.toNat := by
  have hx := x.isLt
  have hy := y.isLt
  have hpow : 2 ^ w ≤ 2 ^ v := Nat.pow_le_pow_right (by omega) (by omega)
  have hlt : x.toNat * y.toNat < 2 ^ v := by
    rw [h, Nat.pow_add]
    exact Nat.mul_lt_mul'' hx hy
  rw [BitVec.toNat_mul, BitVec.toNat_setWidth, BitVec.toNat_setWidth,
    Nat.mod_eq_of_lt (Nat.lt_of_lt_of_le hx hpow), Nat.mod_eq_of_lt (Nat.lt_of_lt_of_le hy hpow),
    Nat.mod_eq_of_lt hlt]

/-- What a wide word has from bit `k` on, in a word with room for it. -/
theorem toNat_carry {v w k : ℕ} {x : BitVec v} (h : x.toNat / 2 ^ k < 2 ^ w) :
    ((x >>> k).setWidth w).toNat = x.toNat / 2 ^ k := by
  rw [BitVec.toNat_setWidth, toNat_shiftRight, Nat.mod_eq_of_lt h]

/-- The `k` low bits of a wide word. -/
theorem toNat_low {v w k : ℕ} (x : BitVec v) {m : BitVec w} (hm : m.toNat = 2 ^ k - 1)
    (hk : k ≤ w) : (x.setWidth w &&& m).toNat = x.toNat % 2 ^ k := by
  rw [toNat_and_ones _ m k hm, BitVec.toNat_setWidth, Nat.mod_mod_of_dvd _ (Nat.pow_dvd_pow 2 hk)]

/-- A carry is added to a wide word. -/
theorem toNat_add_carry {v w : ℕ} {x : BitVec v} {c : BitVec w} (hw : w ≤ v)
    (h : x.toNat + c.toNat < 2 ^ v) : (x + c.setWidth v).toNat = x.toNat + c.toNat := by
  have hc : (c.setWidth v).toNat = c.toNat := BitVec.toNat_setWidth_of_le hw
  rw [BitVec.toNat_add_of_lt (by rw [hc]; exact h), hc]

/-- A mask works on the bits below a position and on those above it. -/
theorem and_split (k x m : ℕ) :
    x &&& m = (x % 2 ^ k &&& m % 2 ^ k) + 2 ^ k * (x / 2 ^ k &&& m / 2 ^ k) := by
  rw [← Nat.and_mod_two_pow, ← Nat.and_div_two_pow, Nat.mod_add_div]

/-- A mask of at most `k` bits sees no other bits. -/
theorem mod_and {k m : ℕ} (x : ℕ) (hm : m < 2 ^ k) : x % 2 ^ k &&& m = x &&& m := by
  have hlt : x &&& m < 2 ^ k := Nat.lt_of_le_of_lt Nat.and_le_right hm
  rw [← Nat.mod_eq_of_lt hlt, Nat.and_mod_two_pow, Nat.mod_eq_of_lt hm]

end Words
