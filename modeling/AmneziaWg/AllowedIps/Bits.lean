import AmneziaWg.Lib.PrefixTree
import AmneziaWg.Lib.Wire
import Mathlib.Data.List.GetD
import Mathlib.Data.Nat.Bitwise
import Mathlib.Tactic.IntervalCases

/-!
# The bits of an address

The trie of allowed IPs keeps addresses in the byte order of the host, word by word, and
looks at them in three ways: as words (`common_bits`), as bytes (`choose`) and in network
order (`swap_endian`).

* **Model**: the functions of `allowedips.c` on keys, for either byte order.
* **Agreement**: `hostBits`, a key as a string of bits; `commonBits_eq` and `chooseBit_eq` say
  what the functions compute on it, `hostBits_swapEndian` that it is the address.
-/

namespace AmneziaWg.AllowedIps

open Linux Wire PrefixTree

/-! ## Model layer -/

/-- The byte order of the host. -/
inductive Endian where
  | little
  | big
deriving DecidableEq

inductive Family where
  | v4
  | v6
deriving DecidableEq

/-- The width of an address. -/
def Family.bits : Family → ℕ
  | .v4 => 32
  | .v6 => 128

/-- A word of `k` bytes in memory. -/
def Endian.store (e : Endian) (k n : ℕ) : Bytes :=
  match e with
  | .little => (be k n).reverse
  | .big => be k n

/-- The word in memory. -/
def Endian.load (e : Endian) (bs : Bytes) : ℕ :=
  match e with
  | .little => beValue bs.reverse
  | .big => beValue bs

/-- `swap_endian`. -/
def swapEndian (e : Endian) (f : Family) (src : Bytes) : Bytes :=
  match f with
  | .v4 => e.store 4 (beValue (src.take 4))
  | .v6 => e.store 8 (beValue (src.take 8)) ++ e.store 8 (beValue ((src.drop 8).take 8))

/-- `bit_at_a`, as `copy_and_assign_cidr` sets it: the byte of a key that has the next bit. -/
def bitAtA (e : Endian) (f : Family) (cidr : ℕ) : ℕ :=
  match e with
  | .little => (cidr / 8) ^^^ ((f.bits / 8 - 1) % 8)
  | .big => cidr / 8

/-- `bit_at_b`: the bit in that byte. -/
def bitAtB (cidr : ℕ) : ℕ := 7 - cidr % 8

/-- `choose`, with `bit_at_a` and `bit_at_b`. -/
def chooseBit (a b : ℕ) (key : Bytes) : Bool := (key.getD a 0 >>> b) &&& 1 == 1

/-- The position of the highest bit, counted from 1. -/
def fls (n : ℕ) : ℕ := if n = 0 then 0 else n.log2 + 1

def fls128 (a b : ℕ) : ℕ := if a ≠ 0 then fls a + 64 else fls b

/-- `common_bits`. -/
def commonBits (e : Endian) (f : Family) (bits key : Bytes) : ℕ :=
  match f with
  | .v4 => 32 - fls (e.load (bits.take 4) ^^^ e.load (key.take 4))
  | .v6 => 128 - fls128 (e.load (bits.take 8) ^^^ e.load (key.take 8))
      (e.load ((bits.drop 8).take 8) ^^^ e.load ((key.drop 8).take 8))

/-! ## Numbers as bit strings -/

/-- The lower `w` bits of a number, the highest first. -/
def msbBits : ℕ → ℕ → Bits
  | 0, _ => []
  | w + 1, n => n.testBit w :: msbBits w n

def byteBits (b : U8) : Bits := msbBits 8 b.toNat

/-- An address in network order as a bit string. -/
def netBits (ip : Bytes) : Bits := ip.flatMap byteBits

/-- Bit `i` of an address in network order, counted from its most significant bit. -/
def netBit (ip : Bytes) (i : ℕ) : Bool := (beValue ip).testBit (8 * ip.length - 1 - i)

@[simp] theorem length_msbBits (w n : ℕ) : (msbBits w n).length = w := by
  induction w with
  | zero => rfl
  | succ w ih => rw [msbBits, List.length_cons, ih]

theorem length_netBits (ip : Bytes) : (netBits ip).length = 8 * ip.length := by
  induction ip with
  | nil => rfl
  | cons b ip ih =>
    have hbyte : (byteBits b).length = 8 := length_msbBits ..
    rw [netBits, List.flatMap_cons, List.length_append, hbyte, ← netBits, ih, List.length_cons]
    omega

variable {w n i : ℕ}

theorem bitAt_msbBits (hi : i < w) : bitAt (msbBits w n) i = n.testBit (w - 1 - i) := by
  induction w generalizing i with
  | zero => cases hi
  | succ w ih =>
    cases i with
    | zero => rfl
    | succ i =>
      have hstep : bitAt (msbBits (w + 1) n) (i + 1) = bitAt (msbBits w n) i := rfl
      rw [hstep, ih (by omega)]
      congr 1
      omega

theorem fls_le (h : n < 2 ^ w) : fls n ≤ w := by
  unfold fls
  split
  · exact Nat.zero_le w
  · next hne => exact (Nat.log2_lt hne).mpr h

theorem fls_eq (hlow : 2 ^ w ≤ n) (hhigh : n < 2 ^ (w + 1)) : fls n = w + 1 := by
  have hne : n ≠ 0 := by
    have := Nat.two_pow_pos w
    omega
  rw [fls, if_neg hne, (Nat.log2_eq_iff hne).mpr ⟨hlow, hhigh⟩]

/-- The highest bit in which two words differ ends their common prefix. -/
theorem common_msbBits (w x y : ℕ) :
    common (msbBits w x) (msbBits w y) = w - fls ((x ^^^ y) % 2 ^ w) := by
  induction w with
  | zero => exact (Nat.zero_sub _).symm
  | succ w ih =>
    have hpos := Nat.two_pow_pos w
    have hbit : (x ^^^ y).testBit w = (x.testBit w ^^ y.testBit w) := Nat.testBit_xor ..
    have hsplit : (x ^^^ y) % 2 ^ (w + 1) = (x ^^^ y) % 2 ^ w + 2 ^ w * ((x ^^^ y) / 2 ^ w % 2) := by
      rw [Nat.pow_succ, Nat.mod_mul]
    have hlow : (x ^^^ y) % 2 ^ w < 2 ^ w := Nat.mod_lt _ hpos
    rw [msbBits, msbBits, common, ih]
    rw [Nat.testBit_eq_decide_div_mod_eq] at hbit
    by_cases hsame : x.testBit w = y.testBit w
    · -- the bit falls out of the sum
      have hzero : (x ^^^ y) / 2 ^ w % 2 = 0 := by
        rw [hsame, Bool.xor_self, decide_eq_false_iff_not] at hbit
        omega
      have hsum : (x ^^^ y) % 2 ^ (w + 1) = (x ^^^ y) % 2 ^ w := by
        rw [hsplit, hzero, Nat.mul_zero, Nat.add_zero]
      have hle := fls_le hlow
      rw [if_pos hsame, hsum]
      omega
    · have hone : (x ^^^ y) / 2 ^ w % 2 = 1 := by
        rw [Bool.eq_not_of_ne hsame, Bool.not_xor, Bool.xor_self, Bool.not_false,
          decide_eq_true_iff] at hbit
        exact hbit
      have htop : fls ((x ^^^ y) % 2 ^ (w + 1)) = w + 1 := by
        apply fls_eq
        · rw [hsplit, hone]
          omega
        · exact Nat.mod_lt _ (Nat.two_pow_pos _)
      rw [if_neg hsame, htop, Nat.sub_self]

/-- The upper and the lower bits of a number. -/
theorem msbBits_add (m k n : ℕ) : msbBits (m + k) n = msbBits m (n / 2 ^ k) ++ msbBits k n := by
  induction m with
  | zero => rw [Nat.zero_add, msbBits, List.nil_append]
  | succ m ih =>
    rw [Nat.succ_add, msbBits, msbBits, ih, Nat.testBit_div_two_pow, List.cons_append]

theorem msbBits_congr {x y : ℕ} (h : x % 2 ^ w = y % 2 ^ w) : msbBits w x = msbBits w y := by
  induction w with
  | zero => rfl
  | succ w ih =>
    have hbit : ∀ z : ℕ, z.testBit w = (z % 2 ^ (w + 1)).testBit w := by
      intro z
      rw [Nat.testBit_mod_two_pow, decide_eq_true (Nat.lt_succ_self w), Bool.true_and]
    have hlow : ∀ z : ℕ, z % 2 ^ w = z % 2 ^ (w + 1) % 2 ^ w := by
      intro z
      exact (Nat.mod_mod_of_dvd z (Nat.pow_dvd_pow 2 (Nat.le_succ w))).symm
    rw [msbBits, msbBits, hbit x, h, ← hbit y, ih (by rw [hlow x, h, ← hlow y])]

/-- The bits of a number in network order, byte by byte. -/
theorem msbBits_beValue (bs : Bytes) : msbBits (8 * bs.length) (beValue bs) = netBits bs := by
  induction bs with
  | nil => rfl
  | cons b bs ih =>
    have hlt := beValue_lt bs
    have hpow : 256 ^ bs.length = 2 ^ (8 * bs.length) := by
      rw [Nat.pow_mul]
    have hbyte : beValue (b :: bs) / 2 ^ (8 * bs.length) = b.toNat := by
      rw [beValue, ← hpow, Nat.add_comm, Nat.add_mul_div_right _ _ (by positivity),
        Nat.div_eq_of_lt hlt, Nat.zero_add]
    have hrest : beValue (b :: bs) % 2 ^ (8 * bs.length) = beValue bs % 2 ^ (8 * bs.length) := by
      rw [beValue, ← hpow, Nat.add_comm, Nat.add_mul_mod_self_right]
    rw [List.length_cons, Nat.mul_add, Nat.mul_one, Nat.add_comm, msbBits_add, hbyte,
      msbBits_congr hrest, ih]
    rfl

variable {ip : Bytes}

theorem bitAt_netBits_eq (hi : i < 8 * ip.length) : bitAt (netBits ip) i = netBit ip i := by
  rw [← msbBits_beValue, bitAt_msbBits hi, netBit]

theorem bitAt_netBits (hi : i < 8 * ip.length) :
    bitAt (netBits ip) i = (ip.getD (i / 8) 0).toNat.testBit (7 - i % 8) := by
  induction ip generalizing i with
  | nil => cases hi
  | cons b ip ih =>
    have hlen : (byteBits b).length = 8 := length_msbBits ..
    rw [netBits, List.flatMap_cons, bitAt]
    by_cases hlt : i < 8
    · rw [List.getD_append _ _ _ _ (by omega), ← bitAt, byteBits, bitAt_msbBits hlt,
        Nat.div_eq_of_lt hlt, Nat.mod_eq_of_lt hlt]
      rfl
    · have hdiv : i / 8 = (i - 8) / 8 + 1 := by omega
      have hmod : i % 8 = (i - 8) % 8 := by omega
      rw [List.length_cons] at hi
      rw [List.getD_append_right _ _ _ _ (by omega), hlen, ← netBits, ← bitAt, ih (by omega), hdiv,
        hmod, List.getD_cons_succ]

/-! ## Agreement -/

section Agreement

variable (e : Endian) (f : Family)

/-- A key as a bit string, the first bit of the address first. -/
def hostBits (key : Bytes) : Bits :=
  match f with
  | .v4 => msbBits 32 (e.load (key.take 4))
  | .v6 => msbBits 64 (e.load (key.take 8)) ++ msbBits 64 (e.load ((key.drop 8).take 8))

theorem length_hostBits (key : Bytes) : (hostBits e f key).length = f.bits := by
  cases f
  · exact length_msbBits ..
  · rw [hostBits, List.length_append, length_msbBits, length_msbBits]
    rfl

theorem load_lt {bs : Bytes} {k : ℕ} (hlen : bs.length ≤ k) (hw : 256 ^ k = 2 ^ w) :
    e.load bs < 2 ^ w := by
  rw [← hw]
  cases e
  · refine (beValue_lt _).trans_le (Nat.pow_le_pow_right (by decide) ?_)
    rw [List.length_reverse]
    exact hlen
  · exact (beValue_lt _).trans_le (Nat.pow_le_pow_right (by decide) hlen)

/-- Words that differ nowhere else than in their lower bits. -/
theorem common_words {x y : ℕ} (hx : x < 2 ^ w) (hy : y < 2 ^ w) :
    common (msbBits w x) (msbBits w y) = w - fls (x ^^^ y) := by
  rw [common_msbBits, Nat.mod_eq_of_lt (Nat.xor_lt_two_pow hx hy)]

/-- `common_bits` is the length of the common prefix. -/
theorem commonBits_eq (bits key : Bytes) :
    commonBits e f bits key = common (hostBits e f bits) (hostBits e f key) := by
  cases f with
  | v4 =>
    have hlt : ∀ bs : Bytes, e.load (bs.take 4) < 2 ^ 32 := fun bs =>
      load_lt e (List.length_take_le ..) (by decide)
    rw [commonBits, hostBits, hostBits, common_words (hlt bits) (hlt key)]
  | v6 =>
    have hlt : ∀ bs : Bytes, e.load (bs.take 8) < 2 ^ 64 := fun bs =>
      load_lt e (List.length_take_le ..) (by decide)
    have hlow := fls_le (Nat.xor_lt_two_pow (hlt (bits.drop 8)) (hlt (key.drop 8)))
    rw [commonBits, hostBits, hostBits, common_append (by simp), length_msbBits,
      common_words (hlt bits) (hlt key), common_words (hlt (bits.drop 8)) (hlt (key.drop 8)), fls128]
    by_cases hzero : e.load (bits.take 8) ^^^ e.load (key.take 8) = 0
    · -- the first words are equal
      rw [if_neg (not_not.mpr hzero), if_pos (by rw [Nat.eq_of_xor_eq_zero hzero])]
      omega
    · have hne : msbBits 64 (e.load (bits.take 8)) ≠ msbBits 64 (e.load (key.take 8)) := by
        intro heq
        have hcommon := common_words (hlt bits) (hlt key)
        have hself : 64 ≤ common (msbBits 64 (e.load (key.take 8))) (msbBits 64 (e.load (key.take 8))) :=
          (le_common_iff (length_msbBits ..).ge).mpr (List.take_prefix ..)
        have hpos : 0 < fls (e.load (bits.take 8) ^^^ e.load (key.take 8)) := by
          rw [fls, if_neg hzero]
          exact Nat.succ_pos _
        rw [heq] at hcommon
        omega
      rw [if_pos hzero, if_neg hne]
      omega

/-- The bytes of a key in the order of the address. -/
def networkOrder (key : Bytes) : Bytes :=
  let word (bs : Bytes) := match e with
    | .little => bs.reverse
    | .big => bs
  match f with
  | .v4 => word (key.take 4)
  | .v6 => word (key.take 8) ++ word ((key.drop 8).take 8)

/-- A word as a bit string. -/
theorem msbBits_load {bs : Bytes} {k : ℕ} (hlen : bs.length = k) :
    msbBits (8 * k) (e.load bs) = netBits (match e with | .little => bs.reverse | .big => bs) := by
  subst hlen
  cases e with
  | little =>
    have hbits := msbBits_beValue bs.reverse
    rw [List.length_reverse] at hbits
    exact hbits
  | big => exact msbBits_beValue bs

variable {key : Bytes}

theorem hostBits_eq (hkey : key.length = f.bits / 8) :
    hostBits e f key = netBits (networkOrder e f key) := by
  cases f with
  | v4 => exact @msbBits_load e (key.take 4) 4 (by rw [List.length_take, hkey]; rfl)
  | v6 =>
    have hfirst := @msbBits_load e (key.take 8) 8 (by rw [List.length_take, hkey]; rfl)
    have hsecond := @msbBits_load e ((key.drop 8).take 8) 8
      (by rw [List.length_take, List.length_drop, hkey]; rfl)
    rw [hostBits, hfirst, hsecond, netBits, netBits, ← List.flatMap_append]
    rfl

/-- `bit_at_a` finds the byte. -/
theorem networkOrder_getD (hkey : key.length = f.bits / 8) (hi : i < f.bits) :
    (networkOrder e f key).getD (i / 8) 0 = key.getD (bitAtA e f i) 0 := by
  unfold bitAtA
  generalize hbyte : i / 8 = a
  cases f with
  | v4 =>
    have ha : a < 4 := by
      have : i < 32 := hi
      omega
    match key, hkey with
    | [b0, b1, b2, b3], _ => interval_cases a <;> cases e <;> rfl
  | v6 =>
    have ha : a < 16 := by
      have : i < 128 := hi
      omega
    match key, hkey with
    | [b0, b1, b2, b3, b4, b5, b6, b7, b8, b9, b10, b11, b12, b13, b14, b15], _ =>
      interval_cases a <;> cases e <;> rfl

theorem chooseBit_eq_testBit (x : U8) (b : ℕ) : ((x >>> b) &&& 1 == 1) = x.toNat.testBit b := by
  have hbit : (x >>> b).getLsbD 0 = x.toNat.testBit b := by
    rw [BitVec.getLsbD_ushiftRight, Nat.add_zero]
    rfl
  have hand : x >>> b &&& 1 = BitVec.setWidth 8 (BitVec.ofBool ((x >>> b).getLsbD 0)) :=
    BitVec.and_one_eq_setWidth_ofBool_getLsbD
  rw [hand, hbit]
  cases x.toNat.testBit b <;> rfl

/-- `choose` is the next bit of the key. -/
theorem chooseBit_eq (hkey : key.length = f.bits / 8) {cidr : ℕ} (hcidr : cidr < f.bits) :
    chooseBit (bitAtA e f cidr) (bitAtB cidr) key = bitAt (hostBits e f key) cidr := by
  have hlen : (networkOrder e f key).length = f.bits / 8 := by
    have := length_hostBits e f key
    rw [hostBits_eq e f hkey, length_netBits] at this
    omega
  have hbits : f.bits = 8 * (f.bits / 8) := by
    cases f <;> rfl
  rw [hostBits_eq e f hkey, bitAt_netBits (by omega), networkOrder_getD e f hkey hcidr, chooseBit,
    bitAtB]
  exact chooseBit_eq_testBit ..

theorem load_store {k : ℕ} (hn : n < 256 ^ k) : e.load (e.store k n) = n := by
  cases e with
  | little => rw [Endian.store, Endian.load, List.reverse_reverse, beValue_be, Nat.mod_eq_of_lt hn]
  | big => rw [Endian.store, Endian.load, beValue_be, Nat.mod_eq_of_lt hn]

theorem length_store (k n : ℕ) : (e.store k n).length = k := by
  cases e <;> simp [Endian.store]

/-- After `swap_endian` a key has the bits of the address. -/
theorem hostBits_swapEndian (hip : ip.length = f.bits / 8) :
    hostBits e f (swapEndian e f ip) = netBits ip := by
  have hword : ∀ (bs : Bytes) (k : ℕ), bs.length = k →
      msbBits (8 * k) (e.load (e.store k (beValue bs))) = netBits bs := by
    intro bs k hlen
    subst hlen
    rw [load_store e (beValue_lt bs), msbBits_beValue]
  cases f with
  | v4 =>
    have hlen : ip.length = 4 := hip
    rw [swapEndian, hostBits, List.take_of_length_le (length_store ..).le,
      List.take_of_length_le hlen.le]
    exact hword ip 4 hlen
  | v6 =>
    have hlen : ip.length = 16 := hip
    have hfirst := hword (ip.take 8) 8 (by rw [List.length_take]; omega)
    have hrest : (ip.drop 8).take 8 = ip.drop 8 :=
      List.take_of_length_le (by rw [List.length_drop]; omega)
    have hsecond := hword ((ip.drop 8).take 8) 8 (by rw [List.length_take, List.length_drop]; omega)
    rw [swapEndian, hostBits, List.take_left' (length_store ..), List.drop_left' (length_store ..),
      List.take_of_length_le (length_store ..).le]
    rw [hfirst, hsecond, netBits, netBits, ← List.flatMap_append, hrest, List.take_append_drop,
      ← netBits]

theorem length_swapEndian (src : Bytes) : (swapEndian e f src).length = f.bits / 8 := by
  cases f
  · exact length_store ..
  · rw [swapEndian, List.length_append, length_store, length_store]
    rfl

end Agreement

end AmneziaWg.AllowedIps
