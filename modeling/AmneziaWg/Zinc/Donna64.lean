import AmneziaWg.Zinc.Poly1305

/-!
# Poly1305 with 64-bit words

`poly1305-donna64.c` keeps the accumulator and the key in three words, of 44, 44 and 42 bits, and
multiplies them in 128 bits. Carries are propagated only as far as the next multiplication needs.

* **Model**: `Limbs`, `Poly1305Internal` and the three functions; the loop body of
  `poly1305_blocks_generic` in the three steps that its comments name.
* **Arithmetic**: each step on the numbers that the words denote, without overflow.
* **Refinement**: `correct`, the core keeps the accumulator modulo `p`; so the tag of a message in
  pieces is the specified one.
-/

namespace AmneziaWg.Zinc.Donna64

open Linux Words

/-! ## Model -/

/-- A number in three words. -/
structure Limbs where
  l0 : U64
  l1 : U64
  l2 : U64

def Limbs.value (l : Limbs) : ℕ := l.l0.toNat + 2 ^ 44 * l.l1.toNat + 2 ^ 88 * l.l2.toNat

/-- `struct poly1305_internal` -/
structure Poly1305Internal where
  r : Limbs
  h : Limbs
  s0 : U64
  s1 : U64

def mask44 : U64 := 0xfffffffffff
def mask42 : U64 := 0x3ffffffffff

/-- Two words of 64 bits cut into limbs, each under a mask. -/
def cut (t0 t1 m0 m1 m2 : U64) : Limbs :=
  ⟨t0 &&& m0, ((t0 >>> 44) ||| (t1 <<< 20)) &&& m1, (t1 >>> 24) &&& m2⟩

def poly1305InitGeneric (key : Bytes) : Poly1305Internal :=
  let r := cut (readLe64 key) (readLe64 (key.drop 8)) 0xffc0fffffff 0xfffffc0ffff 0x00ffffffc0f
  { r := r
    h := ⟨0, 0, 0⟩
    s0 := r.l1 * 20
    s1 := r.l2 * 20 }

/-- `h += m[i]` -/
def addBlock (h : Limbs) (input : Bytes) (hibit : U64) : Limbs :=
  let m := cut (readLe64 input) (readLe64 (input.drop 8)) mask44 mask44 mask42
  ⟨h.l0 + m.l0, h.l1 + m.l1, h.l2 + (m.l2 ||| hibit)⟩

/-- The sums of products, in words of 128 bits. -/
structure Products where
  d0 : BitVec 128
  d1 : BitVec 128
  d2 : BitVec 128

/-- `(u128)x * y` -/
def wideMul (x y : U64) : BitVec 128 := x.setWidth 128 * y.setWidth 128

/-- `h *= r` -/
def mulR (st : Poly1305Internal) (h : Limbs) : Products where
  d0 := wideMul h.l0 st.r.l0 + wideMul h.l1 st.s1 + wideMul h.l2 st.s0
  d1 := wideMul h.l0 st.r.l1 + wideMul h.l1 st.r.l0 + wideMul h.l2 st.s1
  d2 := wideMul h.l0 st.r.l2 + wideMul h.l1 st.r.l1 + wideMul h.l2 st.r.l0

/-- `(partial) h %= p` -/
def reduce (d : Products) : Limbs :=
  let c := (d.d0 >>> 44).setWidth 64
  let h0 := d.d0.setWidth 64 &&& mask44
  let d1 := d.d1 + c.setWidth 128
  let c := (d1 >>> 44).setWidth 64
  let h1 := d1.setWidth 64 &&& mask44
  let d2 := d.d2 + c.setWidth 128
  let c := (d2 >>> 42).setWidth 64
  let h2 := d2.setWidth 64 &&& mask42
  let h0 := h0 + c * 5
  let c := h0 >>> 44
  let h0 := h0 &&& mask44
  let h1 := h1 + c
  ⟨h0, h1, h2⟩

/-- The loop body of `poly1305_blocks_generic`. -/
def poly1305Block (st : Poly1305Internal) (input : Bytes) (padbit : U32) : Poly1305Internal :=
  { st with h := reduce (mulR st (addBlock st.h input (padbit.setWidth 64 <<< 40))) }

/-- Half of `fully carry h`: the source writes it twice. -/
def carry (h : Limbs) : Limbs :=
  let c := h.l1 >>> 44
  let h1 := h.l1 &&& mask44
  let h2 := h.l2 + c
  let c := h2 >>> 42
  let h2 := h2 &&& mask42
  let h0 := h.l0 + c * 5
  let c := h0 >>> 44
  let h0 := h0 &&& mask44
  let h1 := h1 + c
  ⟨h0, h1, h2⟩

/-- `compute h + -p` -/
def minusP (h : Limbs) : Limbs :=
  let g0 := h.l0 + 5
  let c := g0 >>> 44
  let g0 := g0 &&& mask44
  let g1 := h.l1 + c
  let c := g1 >>> 44
  let g1 := g1 &&& mask44
  let g2 := h.l2 + c - (1 <<< 42)
  ⟨g0, g1, g2⟩

/-- `select h if h < p, or h + -p if h >= p` -/
def select (h g : Limbs) : Limbs :=
  let c := (g.l2 >>> 63) - 1
  ⟨(h.l0 &&& ~~~c) ||| (g.l0 &&& c), (h.l1 &&& ~~~c) ||| (g.l1 &&& c),
    (h.l2 &&& ~~~c) ||| (g.l2 &&& c)⟩

/-- `h = (h + nonce)` -/
def addNonce (h : Limbs) (nonce : Quad) : Limbs :=
  let t0 := (nonce.n1.setWidth 64 <<< 32) ||| nonce.n0.setWidth 64
  let t1 := (nonce.n3.setWidth 64 <<< 32) ||| nonce.n2.setWidth 64
  let t := cut t0 t1 mask44 mask44 mask42
  let h0 := h.l0 + t.l0
  let c := h0 >>> 44
  let h0 := h0 &&& mask44
  let h1 := h.l1 + (t.l1 + c)
  let c := h1 >>> 44
  let h1 := h1 &&& mask44
  let h2 := h.l2 + (t.l2 + c)
  let h2 := h2 &&& mask42
  ⟨h0, h1, h2⟩

/-- `mac = h % (2^128)` -/
def store (h : Limbs) : Bytes :=
  le64 (h.l0 ||| (h.l1 <<< 44)) ++ le64 ((h.l1 >>> 20) ||| (h.l2 <<< 24))

def poly1305EmitGeneric (st : Poly1305Internal) (nonce : Quad) : Bytes :=
  let h := carry (carry st.h)
  store (addNonce (select h (minusP h)) nonce)

def core : Core where
  State := Poly1305Internal
  init := poly1305InitGeneric
  block := poly1305Block
  emit := poly1305EmitGeneric

/-! ## Arithmetic -/

theorem toNat_mask44 (x : U64) : (x &&& mask44).toNat = x.toNat % 2 ^ 44 :=
  toNat_and_ones x mask44 44 rfl

theorem toNat_mask42 (x : U64) : (x &&& mask42).toNat = x.toNat % 2 ^ 42 :=
  toNat_and_ones x mask42 42 rfl

theorem toNat_low44 (x : BitVec 128) : (x.setWidth 64 &&& mask44).toNat = x.toNat % 2 ^ 44 :=
  toNat_low x rfl (by decide)

theorem toNat_low42 (x : BitVec 128) : (x.setWidth 64 &&& mask42).toNat = x.toNat % 2 ^ 42 :=
  toNat_low x rfl (by decide)

theorem toNat_one : (1 : U64).toNat = 1 := rfl

/-- What lies above `2^130` comes back five times. -/
theorem toNat_add_five {x c : U64} (h : x.toNat + 5 * c.toNat < 2 ^ 64) :
    (x + c * 5).toNat = x.toNat + 5 * c.toNat := by
  have hfive : (c * 5).toNat = 5 * c.toNat := by
    rw [BitVec.toNat_mul, show (5 : U64).toNat = 5 from rfl]
    omega
  rw [BitVec.toNat_add_of_lt (by rw [hfive]; exact h), hfive]

theorem toNat_wideMul (x y : U64) : (wideMul x y).toNat = x.toNat * y.toNat :=
  toNat_mul_wide rfl x y

/-- The limbs of a number of 128 bits are its bits under the masks. -/
theorem cut_value {t0 t1 m0 m1 m2 : U64} (h0 : m0.toNat < 2 ^ 44) (h1 : m1.toNat < 2 ^ 44) :
    (cut t0 t1 m0 m1 m2).value = (t0.toNat + 2 ^ 64 * t1.toNat) &&&
      (m0.toNat + 2 ^ 44 * m1.toNat + 2 ^ 88 * m2.toNat) := by
  have ht0 := t0.isLt
  have ht1 := t1.isLt
  -- the middle limb takes 20 bits from the lower word and 24 from the upper one
  have hmiddle : ((t0 >>> 44) ||| (t1 <<< 20)).toNat =
      t0.toNat / 2 ^ 44 + t1.toNat * 2 ^ 20 % 2 ^ 64 := by
    rw [toNat_or_of_lt (k := 20), toNat_shiftRight, toNat_shiftLeft]
    · rw [toNat_shiftRight]
      omega
    · rw [toNat_shiftLeft]
      omega
  generalize hx : t0.toNat + 2 ^ 64 * t1.toNat = x
  generalize hm : m0.toNat + 2 ^ 44 * m1.toNat + 2 ^ 88 * m2.toNat = m
  have hx0 : t0.toNat % 2 ^ 44 = x % 2 ^ 44 := by omega
  have hx1 : (t0.toNat / 2 ^ 44 + t1.toNat * 2 ^ 20 % 2 ^ 64) % 2 ^ 44 =
      x / 2 ^ 44 % 2 ^ 44 := by omega
  have hx2 : t1.toNat / 2 ^ 24 = x / 2 ^ 44 / 2 ^ 44 := by omega
  have hm0 : m0.toNat = m % 2 ^ 44 := by omega
  have hm1 : m1.toNat = m / 2 ^ 44 % 2 ^ 44 := by omega
  have hm2 : m2.toNat = m / 2 ^ 44 / 2 ^ 44 := by omega
  simp only [Limbs.value, cut, BitVec.toNat_and, hmiddle, toNat_shiftRight]
  rw [← mod_and t0.toNat h0, ← mod_and (_ / 2 ^ 44 + _) h1, hx0, hx1, hx2, hm0, hm1, hm2,
    and_split 44 x m, and_split 44 (x / 2 ^ 44) (m / 2 ^ 44)]
  ring

/-- Without a mask, the limbs hold the number itself. -/
theorem cut_whole (t0 t1 : U64) :
    (cut t0 t1 mask44 mask44 mask42).value = t0.toNat + 2 ^ 64 * t1.toNat := by
  have ht0 := t0.isLt
  have ht1 := t1.isLt
  rw [cut_value (by decide) (by decide)]
  show _ &&& (2 ^ 130 - 1) = _
  rw [Nat.and_two_pow_sub_one_eq_mod]
  omega

theorem cut_lt (t0 t1 : U64) :
    (cut t0 t1 mask44 mask44 mask42).l0.toNat < 2 ^ 44 ∧
      (cut t0 t1 mask44 mask44 mask42).l1.toNat < 2 ^ 44 ∧
      (cut t0 t1 mask44 mask44 mask42).l2.toNat < 2 ^ 40 := by
  have ht1 := t1.isLt
  simp only [cut, toNat_mask44, toNat_mask42, toNat_shiftRight]
  omega

/-- Sixteen bytes in two words. -/
theorem value_loads (block : Bytes) :
    (readLe64 block).toNat + 2 ^ 64 * (readLe64 (block.drop 8)).toNat =
      leValue (block.take 16) := by
  rw [toNat_readLe64, toNat_readLe64, leValue_take, leValue_take, leValue_take, leValue_drop]
  omega

/-- The accumulator between two blocks: only the middle word may have a carry left. -/
structure Limbs.Carried (h : Limbs) : Prop where
  l0 : h.l0.toNat < 2 ^ 44
  l1 : h.l1.toNat < 2 ^ 44 + 2 ^ 8
  l2 : h.l2.toNat < 2 ^ 42

/-- The accumulator with a block added to it. -/
structure Limbs.Loaded (h : Limbs) : Prop where
  l0 : h.l0.toNat < 2 ^ 45
  l1 : h.l1.toNat < 2 ^ 45 + 2 ^ 8
  l2 : h.l2.toNat < 2 ^ 43

variable {h : Limbs}

theorem addBlock_value {block : Bytes} {padbit : U32} (hh : h.Carried) (hblock : block.length = 16)
    (hpad : padbit.toNat ≤ 1) :
    (addBlock h block (padbit.setWidth 64 <<< 40)).value =
        h.value + (leValue block + 2 ^ 128 * padbit.toNat) ∧
      (addBlock h block (padbit.setWidth 64 <<< 40)).Loaded := by
  obtain ⟨hl0, hl1, hl2⟩ := hh
  have hhibit : (padbit.setWidth 64 <<< 40).toNat = 2 ^ 40 * padbit.toNat := by
    rw [toNat_shiftLeft, BitVec.toNat_setWidth]
    omega
  have hvalue := cut_whole (readLe64 block) (readLe64 (block.drop 8))
  have hlt := cut_lt (readLe64 block) (readLe64 (block.drop 8))
  rw [value_loads, List.take_of_length_le (Nat.le_of_eq hblock)] at hvalue
  unfold addBlock
  generalize cut (readLe64 block) (readLe64 (block.drop 8)) mask44 mask44 mask42 = m
    at hvalue hlt ⊢
  obtain ⟨hm0, hm1, hm2⟩ := hlt
  -- the pad bit stands above the bits of the block
  have htop : (m.l2 ||| (padbit.setWidth 64 <<< 40)).toNat =
      m.l2.toNat + 2 ^ 40 * padbit.toNat := by
    rw [toNat_or_of_lt (k := 40) hm2 (by rw [hhibit]; exact Nat.dvd_mul_right ..), hhibit]
  have h0 : (h.l0 + m.l0).toNat = h.l0.toNat + m.l0.toNat := by
    rw [BitVec.toNat_add]
    omega
  have h1 : (h.l1 + m.l1).toNat = h.l1.toNat + m.l1.toNat := by
    rw [BitVec.toNat_add]
    omega
  have h2 : (h.l2 + (m.l2 ||| (padbit.setWidth 64 <<< 40))).toNat =
      h.l2.toNat + (m.l2.toNat + 2 ^ 40 * padbit.toNat) := by
    rw [BitVec.toNat_add, htop]
    omega
  refine ⟨?_, ?_, ?_, ?_⟩
  · rw [← hvalue]
    simp only [Limbs.value, h0, h1, h2]
    ring
  · show (h.l0 + m.l0).toNat < _
    omega
  · show (h.l1 + m.l1).toNat < _
    omega
  · show (h.l2 + (m.l2 ||| (padbit.setWidth 64 <<< 40))).toNat < _
    omega

/-- The words hold the clamped key, and twenty times its upper limbs. -/
structure Keyed (st : Poly1305Internal) (r : ℕ) : Prop where
  l0 : st.r.l0.toNat < 2 ^ 44
  l1 : st.r.l1.toNat < 2 ^ 44
  l2 : st.r.l2.toNat < 2 ^ 36
  s0 : st.s0.toNat = 20 * st.r.l1.toNat
  s1 : st.s1.toNat = 20 * st.r.l2.toNat
  value : st.r.value = r

variable {st : Poly1305Internal} {r : ℕ}

/-- The sums are the product, but for multiples of `p`: what lies above `2^132` comes back twenty
times, since `2^132 = 4 * p + 20`. -/
theorem mulR_value (hst : Keyed st r) (hh : h.Loaded) :
    (∃ k, h.value * r = (mulR st h).d0.toNat + 2 ^ 44 * (mulR st h).d1.toNat +
        2 ^ 88 * (mulR st h).d2.toNat + p * k) ∧
      (mulR st h).d0.toNat < 2 ^ 92 ∧ (mulR st h).d1.toNat < 2 ^ 92 ∧
      (mulR st h).d2.toNat < 2 ^ 91 := by
  obtain ⟨hr0, hr1, hr2, hs0, hs1, hr⟩ := hst
  obtain ⟨hh0, hh1, hh2⟩ := hh
  -- bounds of the nine products, so that no sum reaches `2^128`
  have b00 := Nat.mul_le_mul (Nat.le_of_lt hh0) (Nat.le_of_lt hr0)
  have b01 := Nat.mul_le_mul (Nat.le_of_lt hh0) (Nat.le_of_lt hr1)
  have b02 := Nat.mul_le_mul (Nat.le_of_lt hh0) (Nat.le_of_lt hr2)
  have b10 := Nat.mul_le_mul (Nat.le_of_lt hh1) (Nat.le_of_lt hr0)
  have b11 := Nat.mul_le_mul (Nat.le_of_lt hh1) (Nat.le_of_lt hr1)
  have b12 := Nat.mul_le_mul (Nat.le_of_lt hh1) (Nat.le_of_lt hr2)
  have b20 := Nat.mul_le_mul (Nat.le_of_lt hh2) (Nat.le_of_lt hr0)
  have b21 := Nat.mul_le_mul (Nat.le_of_lt hh2) (Nat.le_of_lt hr1)
  have b22 := Nat.mul_le_mul (Nat.le_of_lt hh2) (Nat.le_of_lt hr2)
  have hd0 : (mulR st h).d0.toNat = h.l0.toNat * st.r.l0.toNat +
      20 * (h.l1.toNat * st.r.l2.toNat) + 20 * (h.l2.toNat * st.r.l1.toNat) := by
    simp only [mulR, BitVec.toNat_add, toNat_wideMul, hs0, hs1, Nat.mul_left_comm _ 20]
    omega
  have hd1 : (mulR st h).d1.toNat = h.l0.toNat * st.r.l1.toNat +
      h.l1.toNat * st.r.l0.toNat + 20 * (h.l2.toNat * st.r.l2.toNat) := by
    simp only [mulR, BitVec.toNat_add, toNat_wideMul, hs1, Nat.mul_left_comm _ 20]
    omega
  have hd2 : (mulR st h).d2.toNat = h.l0.toNat * st.r.l2.toNat +
      h.l1.toNat * st.r.l1.toNat + h.l2.toNat * st.r.l0.toNat := by
    simp only [mulR, BitVec.toNat_add, toNat_wideMul]
    omega
  rw [hd0, hd1, hd2]
  refine ⟨⟨4 * (h.l1.toNat * st.r.l2.toNat + h.l2.toNat * st.r.l1.toNat +
    2 ^ 44 * (h.l2.toNat * st.r.l2.toNat)), ?_⟩, ?_, ?_, ?_⟩
  · rw [← hr, show p = 1361129467683753853853498429727072845819 from rfl]
    simp only [Limbs.value]
    ring
  · omega
  · omega
  · omega

theorem reduce_value {d : Products} (hd0 : d.d0.toNat < 2 ^ 92) (hd1 : d.d1.toNat < 2 ^ 92)
    (hd2 : d.d2.toNat < 2 ^ 91) :
    (∃ k, d.d0.toNat + 2 ^ 44 * d.d1.toNat + 2 ^ 88 * d.d2.toNat = (reduce d).value + p * k) ∧
      (reduce d).Carried := by
  generalize hl : reduce d = l
  delta reduce at hl
  extract_lets c0 h0 d1 c1 h1 d2 c2 h2 h0' c3 h0'' h1' at hl
  subst hl
  -- one word after the other, in the order of the source
  have hc0 : c0.toNat = d.d0.toNat / 2 ^ 44 := toNat_carry (by omega)
  have hh0 : h0.toNat = d.d0.toNat % 2 ^ 44 := toNat_low44 _
  have hd1' : d1.toNat = d.d1.toNat + c0.toNat := toNat_add_carry (by decide) (by omega)
  have hc1 : c1.toNat = d1.toNat / 2 ^ 44 := toNat_carry (by omega)
  have hh1 : h1.toNat = d1.toNat % 2 ^ 44 := toNat_low44 _
  have hd2' : d2.toNat = d.d2.toNat + c1.toNat := toNat_add_carry (by decide) (by omega)
  have hc2 : c2.toNat = d2.toNat / 2 ^ 42 := toNat_carry (by omega)
  have hh2 : h2.toNat = d2.toNat % 2 ^ 42 := toNat_low42 _
  have hh0' : h0'.toNat = h0.toNat + 5 * c2.toNat := toNat_add_five (by omega)
  have hc3 : c3.toNat = h0'.toNat / 2 ^ 44 := toNat_shiftRight ..
  have hh0'' : h0''.toNat = h0'.toNat % 2 ^ 44 := toNat_mask44 _
  have hh1' : h1'.toNat = h1.toNat + c3.toNat := BitVec.toNat_add_of_lt (by omega)
  -- the carry out of the top comes back five times at the bottom
  refine ⟨⟨c2.toNat, ?_⟩, ?_, ?_, ?_⟩
  · simp only [Limbs.value, p]
    omega
  · show h0''.toNat < _
    omega
  · show h1'.toNat < _
    omega
  · show h2.toNat < _
    omega

/-- The accumulator below `2^130`, each word below its bits. -/
structure Limbs.Full (h : Limbs) : Prop where
  l0 : h.l0.toNat < 2 ^ 44
  l1 : h.l1.toNat < 2 ^ 44
  l2 : h.l2.toNat < 2 ^ 42

theorem Limbs.Full.carried (hh : h.Full) : h.Carried :=
  ⟨hh.l0, Nat.lt_of_lt_of_le hh.l1 (by decide), hh.l2⟩

/-- One pass of carries is enough: if the carry goes all the way round, the middle word has become
small. -/
theorem carry_value (hh : h.Carried) :
    (∃ k, h.value = (carry h).value + p * k) ∧ (carry h).Full := by
  obtain ⟨hl0, hl1, hl2⟩ := hh
  generalize hl : carry h = l
  delta carry at hl
  extract_lets c0 h1 h2 c1 h2' h0 c2 h0' h1' at hl
  subst hl
  have hc0 : c0.toNat = h.l1.toNat / 2 ^ 44 := toNat_shiftRight ..
  have hh1 : h1.toNat = h.l1.toNat % 2 ^ 44 := toNat_mask44 _
  have hh2 : h2.toNat = h.l2.toNat + c0.toNat := BitVec.toNat_add_of_lt (by omega)
  have hc1 : c1.toNat = h2.toNat / 2 ^ 42 := toNat_shiftRight ..
  have hh2' : h2'.toNat = h2.toNat % 2 ^ 42 := toNat_mask42 _
  have hh0 : h0.toNat = h.l0.toNat + 5 * c1.toNat := toNat_add_five (by omega)
  have hc2 : c2.toNat = h0.toNat / 2 ^ 44 := toNat_shiftRight ..
  have hh0' : h0'.toNat = h0.toNat % 2 ^ 44 := toNat_mask44 _
  have hh1' : h1'.toNat = h1.toNat + c2.toNat := BitVec.toNat_add_of_lt (by omega)
  refine ⟨⟨c1.toNat, ?_⟩, ?_, ?_, ?_⟩
  · simp only [Limbs.value, p]
    omega
  · show h0'.toNat < _
    omega
  · show h1'.toNat < _
    omega
  · show h2'.toNat < _
    omega

/-- A mask of zeros selects the first, a mask of ones the second. -/
theorem select_zeros {h g : Limbs} (hg : (g.l2 >>> 63) - 1 = 0#64) : select h g = h := by
  simp only [select, hg, BitVec.not_zero, BitVec.and_allOnes, BitVec.and_zero, BitVec.or_zero]

theorem select_ones {h g : Limbs} (hg : (g.l2 >>> 63) - 1 = BitVec.allOnes 64) :
    select h g = g := by
  simp only [select, hg, BitVec.not_allOnes, BitVec.and_allOnes, BitVec.and_zero, BitVec.zero_or]

/-- Below `2^130` one subtraction is enough. -/
theorem select_value (hh : h.Full) :
    (select h (minusP h)).value = h.value % p ∧ (select h (minusP h)).Full := by
  obtain ⟨hl0, hl1, hl2⟩ := hh
  generalize hg : minusP h = g
  delta minusP at hg
  extract_lets g0 c0 g0' g1 c1 g1' g2 at hg
  subst hg
  have hg0 : g0.toNat = h.l0.toNat + 5 :=
    BitVec.toNat_add_of_lt (show h.l0.toNat + 5 < 2 ^ 64 by omega)
  have hc0 : c0.toNat = g0.toNat / 2 ^ 44 := toNat_shiftRight ..
  have hg0' : g0'.toNat = g0.toNat % 2 ^ 44 := toNat_mask44 _
  have hg1 : g1.toNat = h.l1.toNat + c0.toNat := BitVec.toNat_add_of_lt (by omega)
  have hc1 : c1.toNat = g1.toNat / 2 ^ 44 := toNat_shiftRight ..
  have hg1' : g1'.toNat = g1.toNat % 2 ^ 44 := toNat_mask44 _
  have hg2 : g2.toNat = (h.l2.toNat + c1.toNat + (2 ^ 64 - 2 ^ 42)) % 2 ^ 64 := by
    simp only [g2, BitVec.toNat_sub, BitVec.toNat_add]
    show (2 ^ 64 - 2 ^ 42 + (h.l2.toNat + c1.toNat) % 2 ^ 64) % 2 ^ 64 = _
    omega
  have hsign : (g2 >>> 63).toNat = g2.toNat / 2 ^ 63 := toNat_shiftRight ..
  by_cases hlt : h.l2.toNat + c1.toNat < 2 ^ 42
  · -- `h < p`: the difference is negative, its top bit is set
    have hone : (g2 >>> 63) - 1 = 0#64 := by
      apply BitVec.eq_of_toNat_eq
      rw [BitVec.toNat_sub, hsign, toNat_one, BitVec.toNat_ofNat]
      omega
    rw [@select_zeros h ⟨g0', g1', g2⟩ hone]
    refine ⟨?_, hl0, hl1, hl2⟩
    rw [Nat.mod_eq_of_lt]
    simp only [Limbs.value, p]
    omega
  · -- `h ≥ p`: the difference is what is left
    have hzero : (g2 >>> 63) - 1 = BitVec.allOnes 64 := by
      apply BitVec.eq_of_toNat_eq
      rw [BitVec.toNat_sub, hsign, toNat_one, BitVec.toNat_allOnes]
      omega
    rw [@select_ones h ⟨g0', g1', g2⟩ hzero]
    have hdiff : h.value = (⟨g0', g1', g2⟩ : Limbs).value + p := by
      simp only [Limbs.value, p]
      omega
    have hsmall : (⟨g0', g1', g2⟩ : Limbs).value < p := by
      simp only [Limbs.value, p]
      omega
    refine ⟨?_, ?_, ?_, ?_⟩
    · rw [hdiff, Nat.add_mod_right, Nat.mod_eq_of_lt hsmall]
    · show g0'.toNat < _
      omega
    · show g1'.toNat < _
      omega
    · show g2.toNat < _
      omega

/-- Two words in one. -/
theorem toNat_pair (x y : U32) :
    ((y.setWidth 64 <<< 32) ||| x.setWidth 64).toNat = x.toNat + 2 ^ 32 * y.toNat := by
  have hx := x.isLt
  have hy := y.isLt
  have hlow : (x.setWidth 64).toNat = x.toNat := by
    rw [BitVec.toNat_setWidth]
    omega
  have hhigh : (y.setWidth 64 <<< 32).toNat = 2 ^ 32 * y.toNat := by
    rw [toNat_shiftLeft, BitVec.toNat_setWidth]
    omega
  have hdvd : 2 ^ 32 ∣ (y.setWidth 64 <<< 32).toNat := by
    rw [hhigh]
    exact Nat.dvd_mul_right ..
  rw [BitVec.or_comm, toNat_or_of_lt (k := 32) (by omega) hdvd, hlow, hhigh]

theorem addNonce_value (hh : h.Full) (nonce : Quad) :
    (addNonce h nonce).value = (h.value + nonce.value) % 2 ^ 130 ∧ (addNonce h nonce).Full := by
  obtain ⟨hl0, hl1, hl2⟩ := hh
  generalize hl : addNonce h nonce = l
  delta addNonce at hl
  extract_lets t0 t1 t h0 c0 h0' h1 c1 h1' h2 h2' at hl
  subst hl
  have ht : t.value = nonce.value := by
    rw [cut_whole, toNat_pair, toNat_pair, Quad.value]
    ring
  have hlt := cut_lt t0 t1
  change t.l0.toNat < _ ∧ t.l1.toNat < _ ∧ t.l2.toNat < _ at hlt
  have hh0 : h0.toNat = h.l0.toNat + t.l0.toNat := BitVec.toNat_add_of_lt (by omega)
  have hc0 : c0.toNat = h0.toNat / 2 ^ 44 := toNat_shiftRight ..
  have hh0' : h0'.toNat = h0.toNat % 2 ^ 44 := toNat_mask44 _
  have hh1 : h1.toNat = h.l1.toNat + (t.l1.toNat + c0.toNat) := by
    simp only [h1, BitVec.toNat_add]
    omega
  have hc1 : c1.toNat = h1.toNat / 2 ^ 44 := toNat_shiftRight ..
  have hh1' : h1'.toNat = h1.toNat % 2 ^ 44 := toNat_mask44 _
  have hh2 : h2.toNat = h.l2.toNat + (t.l2.toNat + c1.toNat) := by
    simp only [h2, BitVec.toNat_add]
    omega
  have hh2' : h2'.toNat = h2.toNat % 2 ^ 42 := toNat_mask42 _
  -- what leaves the top word here is a multiple of `2^130`
  rw [← ht]
  clear_value t
  refine ⟨?_, ?_, ?_, ?_⟩
  · simp only [Limbs.value]
    omega
  · show h0'.toNat < _
    omega
  · show h1'.toNat < _
    omega
  · show h2'.toNat < _
    omega

/-- The 128 low bits in two words. -/
theorem store_eq (hh : h.Full) : store h = le 16 (h.value % 2 ^ 128) := by
  obtain ⟨hl0, hl1, hl2⟩ := hh
  have hlow : (h.l0 ||| (h.l1 <<< 44)).toNat = h.value % 2 ^ 64 := by
    rw [toNat_or_of_lt (k := 44) hl0, toNat_shiftLeft]
    · simp only [Limbs.value]
      omega
    · rw [toNat_shiftLeft]
      omega
  have hhigh : ((h.l1 >>> 20) ||| (h.l2 <<< 24)).toNat = h.value / 2 ^ 64 % 2 ^ 64 := by
    rw [toNat_or_of_lt (k := 24), toNat_shiftLeft, toNat_shiftRight]
    · simp only [Limbs.value]
      omega
    · rw [toNat_shiftRight]
      omega
    · rw [toNat_shiftLeft]
      omega
  rw [store, le64_eq, le64_eq, hlow, hhigh, show 16 = 8 + 8 from rfl, le_append]
  congr 1
  · apply leValue_inj (by rw [length_le, length_le])
    rw [leValue_le, leValue_le]
    omega
  · congr 1
    omega

/-! ## Refinement -/

/-- The state holds the key, and the accumulator modulo `p`. -/
structure Holds (st : Poly1305Internal) (r acc : ℕ) : Prop where
  key : Keyed st r
  carried : st.h.Carried
  value : st.h.value % p = acc % p

theorem init_holds {key : Bytes} :
    Holds (poly1305InitGeneric key) (clamp (leValue (key.take 16))) 0 := by
  have hvalue := @cut_value (readLe64 key) (readLe64 (key.drop 8)) 0xffc0fffffff 0xfffffc0ffff
    0x00ffffffc0f (by decide) (by decide)
  rw [value_loads] at hvalue
  have h0 : (poly1305InitGeneric key).r.l0.toNat < 2 ^ 44 := by
    simp only [poly1305InitGeneric, cut, BitVec.toNat_and]
    exact Nat.lt_of_le_of_lt Nat.and_le_right (by decide)
  have h1 : (poly1305InitGeneric key).r.l1.toNat < 2 ^ 44 := by
    simp only [poly1305InitGeneric, cut, BitVec.toNat_and]
    exact Nat.lt_of_le_of_lt Nat.and_le_right (by decide)
  have h2 : (poly1305InitGeneric key).r.l2.toNat < 2 ^ 36 := by
    simp only [poly1305InitGeneric, cut, BitVec.toNat_and]
    exact Nat.lt_of_le_of_lt Nat.and_le_right (by decide)
  have hzero : (⟨0, 0, 0⟩ : Limbs).Carried := ⟨by decide, by decide, by decide⟩
  refine ⟨⟨h0, h1, h2, ?_, ?_, hvalue⟩, hzero, rfl⟩
  · show ((poly1305InitGeneric key).r.l1 * 20).toNat = _
    rw [BitVec.toNat_mul]
    show _ * 20 % 2 ^ 64 = _
    omega
  · show ((poly1305InitGeneric key).r.l2 * 20).toNat = _
    rw [BitVec.toNat_mul]
    show _ * 20 % 2 ^ 64 = _
    omega

theorem block_holds {acc : ℕ} {block : Bytes} {padbit : U32} (h : Holds st r acc)
    (hblock : block.length = 16) (hpad : padbit.toNat ≤ 1) :
    Holds (poly1305Block st block padbit) r
      ((acc + (leValue block + 2 ^ 128 * padbit.toNat)) * r % p) := by
  obtain ⟨hsum, hloaded⟩ := addBlock_value h.carried hblock hpad
  obtain ⟨⟨j, hproduct⟩, hd0, hd1, hd2⟩ := mulR_value h.key hloaded
  obtain ⟨⟨k, hreduced⟩, hcarried⟩ := reduce_value hd0 hd1 hd2
  refine ⟨⟨h.key.l0, h.key.l1, h.key.l2, h.key.s0, h.key.s1, h.key.value⟩, hcarried, ?_⟩
  rw [hsum, hreduced] at hproduct
  exact mod_step h.value hproduct

theorem emit_eq {acc : ℕ} (h : Holds st r acc) (nonce : Quad) :
    poly1305EmitGeneric st nonce = le 16 ((acc % p + nonce.value) % 2 ^ 128) := by
  -- the second pass of carries finds nothing left to do, and changes nothing modulo `p`
  obtain ⟨⟨j, hfirst⟩, hfull⟩ := carry_value h.carried
  obtain ⟨⟨k, hsecond⟩, hfull'⟩ := carry_value hfull.carried
  obtain ⟨hselect, hfull''⟩ := select_value hfull'
  obtain ⟨hsum, hdone⟩ := addNonce_value hfull'' nonce
  have hvalue : (carry (carry st.h)).value % p = acc % p := by
    rw [← h.value, hfirst, hsecond, Nat.add_mul_mod_self_left, Nat.add_mul_mod_self_left]
  rw [poly1305EmitGeneric, store_eq hdone, hsum, hselect, hvalue,
    Nat.mod_mod_of_dvd _ (Nat.pow_dvd_pow 2 (by omega))]

/-- The 64-bit arithmetic is correct. -/
def correct : core.Correct where
  Holds := Holds
  init := fun _ => init_holds
  block := block_holds
  emit := emit_eq

/-- However a message is cut into pieces, `poly1305_update` and `poly1305_final` compute the tag
of RFC 8439. -/
theorem poly1305_streaming {key : Bytes} (hkey : key.length = 32) (chunks : List Bytes) :
    poly1305Final (chunks.foldl poly1305Update (poly1305Init core key)) =
      rfcPoly1305 key chunks.flatten :=
  poly1305_eq correct hkey chunks

theorem poly1305_streaming_split :
    poly1305Final ([[1, 2, 3], List.replicate 20 255, []].foldl poly1305Update
        (poly1305Init core (List.replicate 32 255))) =
      rfcPoly1305 (List.replicate 32 255) (1 :: 2 :: 3 :: List.replicate 20 255) :=
  @poly1305_streaming (List.replicate 32 255) rfl [[1, 2, 3], List.replicate 20 255, []]

end AmneziaWg.Zinc.Donna64
