import AmneziaWg.Dump.Paging
import Mathlib.Data.List.GetD
import Mathlib.Data.Set.Function

/-!
# The prefixes of bogus endpoints

A bogus endpoint is meant to begin with the bits of its prefix and to go on with random bits.
For IPv4 this fails for the length 0, where a shift reaches the width of the word; for IPv6 it
fails for every length that ends inside a byte, since random bytes overwrite that byte.

* **Specification**: `Agrees`, `FreeSuffix`.
* **Model**: the generators once more, with shifts that are defined below the width only.
* **Bits**: what each bit of a generated address is.
-/

namespace AmneziaWg.Dump

open Linux

/-! ## Specification -/

/-- A bit that `get_random_bytes` gives. -/
inductive RandomBit where
  | suffix (i : Fin 32)
  | bytes (k : ℕ) (i : Fin 8)
  | byte (i : Fin 8)

def Draw.bit (draw : Draw) : RandomBit → Bool
  | .suffix i => draw.suffix.getMsbD i
  | .bytes k i => (draw.bytes k).getMsbD i
  | .byte i => draw.byte.getMsbD i

section Spec

variable {α : Type} (bit : α → ℕ → Bool)

/-- Whatever is drawn, the first `n` bits are those of the address. -/
def Agrees (n : ℕ) (addr : α) (gen : Draw → α) : Prop :=
  ∀ draw i, i < n → bit (gen draw) i = bit addr i

/-- The bits from `n` to `w` are random. -/
structure FreeSuffix (n w : ℕ) (gen : Draw → α) : Prop where
  /-- Each is a random bit of its own. -/
  source : ∃ source : ℕ → RandomBit, Set.InjOn source {i | n ≤ i ∧ i < w} ∧
    ∀ draw i, n ≤ i → i < w → bit (gen draw) i = draw.bit (source i)
  /-- Every suffix is drawn. -/
  reachable : ∀ s : ℕ → Bool, ∃ draw, ∀ i, n ≤ i → i < w → bit (gen draw) i = s i

/-- The word with the given bits, the highest one first. -/
def wordOf {w : ℕ} (f : Fin w → Bool) : BitVec w :=
  (BitVec.ofBoolListBE (List.ofFn f)).cast List.length_ofFn

theorem getMsbD_wordOf {w : ℕ} (f : Fin w → Bool) (i : Fin w) : (wordOf f).getMsbD i = f i := by
  simp [wordOf, List.getD_eq_getElem?_getD]

/-- The draw with the given bits. -/
def Draw.ofBits (f : RandomBit → Bool) : Draw where
  suffix := wordOf fun i => f (.suffix i)
  bytes k := wordOf fun i => f (.bytes k i)
  byte := wordOf fun i => f (.byte i)

theorem Draw.bit_ofBits (f : RandomBit → Bool) (r : RandomBit) : (Draw.ofBits f).bit r = f r := by
  cases r with
  | suffix i => exact getMsbD_wordOf _ i
  | bytes k i => exact getMsbD_wordOf _ i
  | byte i => exact getMsbD_wordOf _ i

variable {bit}

/-- Bits that are random bits of their own can be anything. -/
theorem FreeSuffix.of_source {n w : ℕ} {gen : Draw → α} (source : ℕ → RandomBit)
    (hinj : Set.InjOn source {i | n ≤ i ∧ i < w})
    (hbit : ∀ draw i, n ≤ i → i < w → bit (gen draw) i = draw.bit (source i)) :
    FreeSuffix bit n w gen := by
  refine ⟨⟨source, hinj, hbit⟩, ?_⟩
  intro s
  refine ⟨Draw.ofBits fun r => s (Function.invFunOn source {i | n ≤ i ∧ i < w} r), ?_⟩
  intro i hn hw
  rw [hbit _ i hn hw, Draw.bit_ofBits, hinj.leftInvOn_invFunOn ⟨hn, hw⟩]

end Spec

/-! ## Model -/

/-- `x << n` on 32 bits, where C defines it. -/
def shlDefined (x : U32) (n : ℕ) : Option U32 := if n < 32 then some (x <<< n) else none

/-- `generate_ipv4_address_with_prefix`, without a result when a shift is not defined. -/
def generateIpv4Defined (draw : Draw) (p : Prefix U32) : Option U32 := do
  let suffixMask ←
    if p.prefixLen = 32 then some 0 else (shlDefined 1 (32 - p.prefixLen)).map (· - 1)
  return (p.addr &&& ~~~suffixMask) ||| (draw.suffix &&& suffixMask)

/-- `generate_ipv6_address_with_prefix`, without a result when a shift is not defined. The byte
`0xFF` is shifted as an `int`. -/
def generateIpv6Defined (draw : Draw) (p : Prefix Bytes) : Option Bytes :=
  let prefixBytes := p.prefixLen / 8
  let prefixBits := p.prefixLen % 8
  if prefixBytes < 16 then
    let addr := p.addr.take prefixBytes ++ (List.range (16 - prefixBytes)).map draw.bytes
    if prefixBits ≠ 0 then do
      let shifted ← shlDefined 0xFF (8 - prefixBits)
      let mask := shifted.setWidth 8
      return addr.modify prefixBytes fun b => (b &&& mask) ||| (draw.byte &&& ~~~mask)
    else some addr
  else some p.addr

theorem generateIpv4Defined_eq (shift : Shift) (draw : Draw) {p : Prefix U32}
    (h : p.prefixLen ≠ 0) :
    generateIpv4Defined draw p = some (generateIpv4AddressWithPrefix shift draw p) := by
  unfold generateIpv4Defined generateIpv4AddressWithPrefix
  by_cases hfull : p.prefixLen = 32
  · rw [if_pos hfull, if_pos hfull]
    rfl
  · have hlt : 32 - p.prefixLen < 32 := by omega
    rw [if_neg hfull, if_neg hfull, shift.shl_lt _ _ hlt, shlDefined, if_pos hlt]
    rfl

theorem generateIpv4Defined_zero (draw : Draw) {p : Prefix U32} (h : p.prefixLen = 0) :
    generateIpv4Defined draw p = none := by
  unfold generateIpv4Defined
  rw [h]
  rfl

variable {k : ℕ}

/-- The mask of the byte that the prefix ends in. -/
theorem setWidth_shl : ((0xFF : U32) <<< k).setWidth 8 = ((0xFF <<< k : ℕ) : U8) := by
  apply BitVec.eq_of_toNat_eq
  rw [BitVec.toNat_setWidth, BitVec.toNat_shiftLeft, BitVec.natCast_eq_ofNat, BitVec.toNat_ofNat]
  exact Nat.mod_mod_of_dvd _ (by decide)

theorem generateIpv6Defined_eq (draw : Draw) (p : Prefix Bytes) :
    generateIpv6Defined draw p = some (generateIpv6AddressWithPrefix draw p) := by
  unfold generateIpv6Defined generateIpv6AddressWithPrefix
  have hlt : 8 - p.prefixLen % 8 < 32 := by omega
  by_cases hbytes : p.prefixLen / 8 < 16
  · by_cases hbits : p.prefixLen % 8 ≠ 0
    · simp only [if_pos hbytes, if_pos hbits, shlDefined, if_pos hlt, ← setWidth_shl]
      rfl
    · simp only [if_pos hbytes, if_neg hbits]
  · simp only [if_neg hbytes]

/-! ## Bits -/

variable {i : ℕ}

/-- The suffix mask has the bits from `prefixLen` on. -/
theorem getMsbD_suffixMask (shift : Shift) {n : ℕ} (hpos : n ≠ 0) (hn : n ≤ 32) (hi : i < 32) :
    (if n = 32 then 0 else shift.shl 1 (32 - n) - 1 : U32).getMsbD i = decide (n ≤ i) := by
  have hvalue : (if n = 32 then 0 else shift.shl 1 (32 - n) - 1 : U32).toNat =
      2 ^ (32 - n) - 1 := by
    by_cases hfull : n = 32
    · rw [if_pos hfull, hfull]
      rfl
    · have hpow : 2 ^ (32 - n) < 2 ^ 32 := Nat.pow_lt_pow_right (by decide) (by omega)
      have hone : ((1 : U32) <<< (32 - n)).toNat = 2 ^ (32 - n) := by
        rw [BitVec.toNat_shiftLeft, Nat.shiftLeft_eq]
        show 1 * 2 ^ (32 - n) % 2 ^ 32 = _
        rw [Nat.one_mul, Nat.mod_eq_of_lt hpow]
      have hle : (1 : U32) ≤ (1 : U32) <<< (32 - n) := by
        rw [BitVec.le_def, hone]
        exact Nat.one_le_two_pow
      rw [if_neg hfull, shift.shl_lt _ _ (by omega), BitVec.toNat_sub_of_le hle, hone]
      rfl
  rw [BitVec.getMsbD_eq_getLsbD, BitVec.getLsbD, hvalue, Nat.testBit_two_pow_sub_one]
  simp only [hi, decide_true, Bool.true_and, decide_eq_decide]
  omega

/-- The bits of an IPv4 address: those of the prefix, and then random ones. -/
theorem getMsbD_generateIpv4 (shift : Shift) (draw : Draw) {p : Prefix U32} (hpos : p.prefixLen ≠ 0)
    (hlen : p.prefixLen ≤ 32) (hi : i < 32) :
    (generateIpv4AddressWithPrefix shift draw p).getMsbD i =
      if i < p.prefixLen then p.addr.getMsbD i else draw.suffix.getMsbD i := by
  have hmask := getMsbD_suffixMask shift hpos hlen hi
  rw [generateIpv4AddressWithPrefix]
  simp only [BitVec.getMsbD_or, BitVec.getMsbD_and, BitVec.getMsbD_not, hmask, hi, decide_true,
    Bool.true_and]
  by_cases h : i < p.prefixLen
  · simp [h, Nat.not_le_of_lt h]
  · simp [h, Nat.le_of_not_lt h]

/-- Bit `i` of an IPv6 address. -/
def addressBit (addr : Bytes) (i : ℕ) : Bool := (addr.getD (i / 8) 0).getMsbD (i % 8)

/-- The prefix, and then the first draw. -/
theorem getElem?_overwritten (draw : Draw) {addr : Bytes} {j : ℕ} (haddr : addr.length = 16)
    (hk : k < 16) (hj : j < 16) :
    (addr.take k ++ (List.range (16 - k)).map draw.bytes)[j]? =
      some (if j < k then addr.getD j 0 else draw.bytes (j - k)) := by
  have hfront : (addr.take k).length = k := by
    rw [List.length_take]
    omega
  by_cases h : j < k
  · rw [List.getElem?_append_left (by omega), List.getElem?_take_of_lt h, if_pos h,
      List.getElem?_eq_getElem (by omega), List.getD_eq_getElem _ _ (by omega)]
  · rw [List.getElem?_append_right (by omega), hfront, List.getElem?_map,
      List.getElem?_range (by omega), if_neg h]
    rfl

variable {p : Prefix Bytes}

/-- The bytes of an IPv6 address. Where the prefix ends inside a byte, both parts of that byte
are random. -/
theorem getD_generateIpv6 (draw : Draw) (haddr : p.addr.length = 16) {j : ℕ} (hj : j < 16) :
    (generateIpv6AddressWithPrefix draw p).getD j 0 =
      if j < p.prefixLen / 8 then p.addr.getD j 0
      else if j = p.prefixLen / 8 ∧ p.prefixLen % 8 ≠ 0 then
        (draw.bytes 0 &&& ((0xFF <<< (8 - p.prefixLen % 8) : ℕ) : U8)) |||
          (draw.byte &&& ~~~((0xFF <<< (8 - p.prefixLen % 8) : ℕ) : U8))
      else draw.bytes (j - p.prefixLen / 8) := by
  rw [List.getD_eq_getElem?_getD, generateIpv6AddressWithPrefix]
  by_cases hbytes : p.prefixLen / 8 < 16
  · have hbase := getElem?_overwritten draw haddr hbytes hj
    by_cases hbits : p.prefixLen % 8 ≠ 0
    · rw [if_pos hbytes, if_pos hbits, List.getElem?_modify, hbase]
      show (if p.prefixLen / 8 = j then _ else _) = _
      rcases Nat.lt_trichotomy j (p.prefixLen / 8) with h | h | h
      · rw [if_neg (by omega), if_pos h, if_pos h]
      · -- the byte that the prefix ends in has been overwritten before it is masked
        subst h
        rw [if_pos rfl, if_neg (by omega), if_neg (by omega), if_pos ⟨rfl, hbits⟩, Nat.sub_self]
      · rw [if_neg (by omega), if_neg (by omega), if_neg (by omega), if_neg (by omega)]
    · have hwhole : ¬(j = p.prefixLen / 8 ∧ p.prefixLen % 8 ≠ 0) := fun h => hbits h.2
      rw [if_pos hbytes, if_neg hbits, hbase, if_neg hwhole]
      rfl
  · rw [if_neg hbytes, if_pos (by omega), List.getD_eq_getElem?_getD]

/-- Each bit of the byte comes from one of the two draws. -/
theorem getMsbD_splice (mask x y : U8) (hk : k < 8) :
    ((x &&& mask) ||| (y &&& ~~~mask)).getMsbD k =
      if mask.getMsbD k then x.getMsbD k else y.getMsbD k := by
  rw [BitVec.getMsbD_or, BitVec.getMsbD_and, BitVec.getMsbD_and, BitVec.getMsbD_not,
    decide_eq_true hk]
  cases mask.getMsbD k <;> simp

theorem getMsbD_mask {b : ℕ} (hb : b < 8) (hk : k < 8) :
    ((0xFF <<< (8 - b) : ℕ) : U8).getMsbD k = decide (k < b) := by
  have hall : ∀ b < 8, ∀ k < 8, ((0xFF <<< (8 - b) : ℕ) : U8).getMsbD k = decide (k < b) := by
    decide
  exact hall b hb k hk

/-- Where a random bit of an IPv6 address comes from. -/
def source6 (n i : ℕ) : RandomBit :=
  if i / 8 = n / 8 ∧ n % 8 ≠ 0 then .byte (Fin.ofNat 8 i)
  else .bytes (i / 8 - n / 8) (Fin.ofNat 8 i)

theorem source6_injOn (n : ℕ) : Set.InjOn (source6 n) {i | n ≤ i ∧ i < 128} := by
  intro i hi j hj h
  have hbyte := Nat.div_le_div_right hi.1 (c := 8)
  have hbyte' := Nat.div_le_div_right hj.1 (c := 8)
  unfold source6 at h
  split at h <;> split at h
  · -- both in the byte that the prefix ends in
    injection h with hbit
    have hrest : i % 8 = j % 8 := congrArg Fin.val hbit
    omega
  · cases h
  · cases h
  · injection h with hk hbit
    have hrest : i % 8 = j % 8 := congrArg Fin.val hbit
    omega

/-- The bits of an IPv6 address from the prefix on. -/
theorem addressBit_suffix (draw : Draw) (haddr : p.addr.length = 16) (hn : p.prefixLen ≤ i)
    (hi : i < 128) :
    addressBit (generateIpv6AddressWithPrefix draw p) i = draw.bit (source6 p.prefixLen i) := by
  rw [addressBit, getD_generateIpv6 draw haddr (by omega), source6]
  rw [if_neg (by omega)]
  by_cases h : i / 8 = p.prefixLen / 8 ∧ p.prefixLen % 8 ≠ 0
  · have hmask : ((0xFF <<< (8 - p.prefixLen % 8) : ℕ) : U8).getMsbD (i % 8) = false := by
      rw [getMsbD_mask (by omega) (by omega), decide_eq_false_iff_not]
      omega
    rw [if_pos h, if_pos h, getMsbD_splice _ _ _ (by omega), hmask]
    rfl
  · rw [if_neg h, if_neg h]
    rfl

/-- A bit of the last byte that the prefix takes a part of. -/
theorem addressBit_split (draw : Draw) (haddr : p.addr.length = 16) (hlen : p.prefixLen ≤ 128)
    (hn : i < p.prefixLen) (hsplit : p.prefixLen / 8 ≤ i / 8) :
    addressBit (generateIpv6AddressWithPrefix draw p) i = (draw.bytes 0).getMsbD (i % 8) := by
  have hmask : ((0xFF <<< (8 - p.prefixLen % 8) : ℕ) : U8).getMsbD (i % 8) = true := by
    rw [getMsbD_mask (by omega) (by omega), decide_eq_true_eq]
    omega
  rw [addressBit, getD_generateIpv6 draw haddr (by omega), if_neg (by omega), if_pos (by omega),
    getMsbD_splice _ _ _ (by omega), hmask]
  rfl

theorem addressBit_prefix (draw : Draw) (haddr : p.addr.length = 16) (hlen : p.prefixLen ≤ 128)
    (hi : i / 8 < p.prefixLen / 8) :
    addressBit (generateIpv6AddressWithPrefix draw p) i = addressBit p.addr i := by
  rw [addressBit, getD_generateIpv6 draw haddr (by omega), if_pos hi, addressBit]

/-! ## Generated addresses -/

/-- What the parsers accept. -/
theorem parsePrefix_ok {α : Type} {addrStrLen width : ℕ} {pton : Bytes → Option α}
    {text : Option Bytes} {p : Prefix α} (h : parsePrefix addrStrLen width pton text = .ok p) :
    p.prefixLen ≤ width ∧ ∃ s, pton s = some p.addr := by
  cases text with
  | none => cases h
  | some text =>
  cases hslash : text.dropWhile (· ≠ chr '/') with
  | nil =>
    simp only [parsePrefix, hslash] at h
    cases h
  | cons slash len =>
    simp only [parsePrefix, hslash] at h
    split at h
    · cases h
    cases hk : kstrtoint 10 len with
    | error e =>
      rw [hk] at h
      cases h
    | ok prefixLen =>
      simp only [hk, bind, Except.bind] at h
      split at h
      · cases h
      cases haddr : pton (text.takeWhile (· ≠ chr '/')) with
      | none =>
        simp only [haddr] at h
        cases h
      | some addr =>
        simp only [haddr] at h
        cases h
        refine ⟨?_, _, haddr⟩
        show prefixLen.toNat ≤ width
        omega

theorem agrees_ipv4 (shift : Shift) {p : Prefix U32} (hpos : p.prefixLen ≠ 0)
    (hlen : p.prefixLen ≤ 32) :
    Agrees BitVec.getMsbD p.prefixLen p.addr (generateIpv4AddressWithPrefix shift · p) := by
  intro draw i hi
  rw [getMsbD_generateIpv4 shift draw hpos hlen (by omega), if_pos hi]

theorem freeSuffix_ipv4 (shift : Shift) {p : Prefix U32} (hpos : p.prefixLen ≠ 0)
    (hlen : p.prefixLen ≤ 32) :
    FreeSuffix BitVec.getMsbD p.prefixLen 32 (generateIpv4AddressWithPrefix shift · p) := by
  refine FreeSuffix.of_source (fun i => .suffix (Fin.ofNat 32 i)) ?_ ?_
  · intro i hi j hj h
    have hval := congrArg Fin.val (RandomBit.suffix.inj h)
    rwa [Fin.val_ofNat, Fin.val_ofNat, Nat.mod_eq_of_lt hi.2, Nat.mod_eq_of_lt hj.2] at hval
  · intro draw i hn hi
    rw [getMsbD_generateIpv4 shift draw hpos hlen hi, if_neg (by omega), Draw.bit, Fin.val_ofNat,
      Nat.mod_eq_of_lt hi]

theorem freeSuffix_ipv6 (haddr : p.addr.length = 16) :
    FreeSuffix addressBit p.prefixLen 128 (generateIpv6AddressWithPrefix · p) :=
  FreeSuffix.of_source (source6 p.prefixLen) (source6_injOn _)
    fun draw _ hn hi => addressBit_suffix draw haddr hn hi

/-- An IPv6 address stays in its prefix just when the prefix ends with a byte. -/
theorem agrees_ipv6_iff (haddr : p.addr.length = 16) (hlen : p.prefixLen ≤ 128) :
    Agrees addressBit p.prefixLen p.addr (generateIpv6AddressWithPrefix · p) ↔
      p.prefixLen % 8 = 0 := by
  constructor
  · intro h
    by_contra hsplit
    -- draw the complement of the byte that the prefix ends in
    let draw : Draw := ⟨0, fun _ => ~~~p.addr.getD (p.prefixLen / 8) 0, 0⟩
    have hagree := h draw (8 * (p.prefixLen / 8)) (by omega)
    rw [addressBit_split draw haddr hlen (by omega) (by omega), addressBit,
      Nat.mul_div_cancel_left _ (by decide), Nat.mul_mod_right, BitVec.getMsbD_not] at hagree
    simp at hagree
  · intro hwhole draw i hi
    exact addressBit_prefix draw haddr hlen (by omega)

/-- Bogus endpoints that show nothing of the real address, are defined and random beyond the
prefix: for IPv4 unless the length is 0. They stay in the prefix, for IPv6 just when its length is
a number of bytes. -/
theorem bogusEndpoints_prefixed (arch : Arch) (pton : Pton)
    (hpton : ∀ s addr, pton.in6 s = some addr → addr.length = 16) :
    (∀ text p, parseIpv4Prefix pton text = .ok p →
      ((∀ draw, generateIpv4Defined draw p =
        some (generateIpv4AddressWithPrefix arch.shift draw p)) ↔ p.prefixLen ≠ 0) ∧
      (p.prefixLen ≠ 0 →
        Agrees BitVec.getMsbD p.prefixLen p.addr (generateIpv4AddressWithPrefix arch.shift · p) ∧
        FreeSuffix BitVec.getMsbD p.prefixLen 32
          (generateIpv4AddressWithPrefix arch.shift · p))) ∧
    (∀ text p, parseIpv6Prefix pton text = .ok p →
      (∀ draw, generateIpv6Defined draw p = some (generateIpv6AddressWithPrefix draw p)) ∧
      FreeSuffix addressBit p.prefixLen 128 (generateIpv6AddressWithPrefix · p) ∧
      (Agrees addressBit p.prefixLen p.addr (generateIpv6AddressWithPrefix · p) ↔
        p.prefixLen % 8 = 0)) ∧
    ∀ draw ipv4 ipv6, (∀ port addr, shownEndpoint arch draw (some (ipv4, ipv6)) (.inet port addr) =
          .inet port (generateIpv4AddressWithPrefix arch.shift draw ipv4)) ∧
      ∀ port flowinfo addr scopeId,
        shownEndpoint arch draw (some (ipv4, ipv6)) (.inet6 port flowinfo addr scopeId) =
          .inet6 port flowinfo (generateIpv6AddressWithPrefix draw ipv6) scopeId := by
  refine ⟨?_, ?_, ?_⟩
  · intro text p hparse
    have hlen := (parsePrefix_ok hparse).1
    refine ⟨⟨?_, ?_⟩, ?_⟩
    · -- with the length 0 there is no result
      intro hdefined hzero
      have hnone := generateIpv4Defined_zero default hzero
      rw [hdefined default] at hnone
      cases hnone
    · intro hpos draw
      exact generateIpv4Defined_eq arch.shift draw hpos
    · intro hpos
      exact ⟨agrees_ipv4 arch.shift hpos hlen, freeSuffix_ipv4 arch.shift hpos hlen⟩
  · intro text p hparse
    rcases parsePrefix_ok hparse with ⟨hlen, s, hs⟩
    have haddr := hpton s p.addr hs
    exact ⟨fun draw => generateIpv6Defined_eq draw p, freeSuffix_ipv6 haddr,
      agrees_ipv6_iff haddr hlen⟩
  · intro draw ipv4 ipv6
    exact ⟨fun _ _ => rfl, fun _ _ _ _ => rfl⟩

/-- The conversions, on the addresses of two prefixes. -/
def twoPrefixes : Pton where
  in4 s := if s = ascii "127.0.0.0" then some 0x7f000000 else none
  in6 s := if s = ascii "ff80::" then some (0xff :: 0x80 :: List.replicate 14 0) else none

theorem twoPrefixes_in6 (s : Bytes) (addr : Bytes) (h : twoPrefixes.in6 s = some addr) :
    addr.length = 16 := by
  unfold twoPrefixes at h
  dsimp only at h
  split at h
  · cases h
    rfl
  · cases h

/-- The default prefixes. -/
theorem bogusEndpoints_prefixed_default :
    (∀ draw, generateIpv4Defined draw ⟨0x7f000000, 8⟩ =
      some (generateIpv4AddressWithPrefix ⟨(· <<< ·), fun _ _ _ => rfl⟩ draw ⟨0x7f000000, 8⟩)) ∧
    Agrees addressBit 16 (0xff :: 0x80 :: List.replicate 14 0)
      (generateIpv6AddressWithPrefix · ⟨0xff :: 0x80 :: List.replicate 14 0, 16⟩) :=
  let arch : Arch := ⟨true, ⟨(· <<< ·), fun _ _ _ => rfl⟩⟩
  ⟨((bogusEndpoints_prefixed arch twoPrefixes twoPrefixes_in6).1
      (some (ascii "127.0.0.0/8")) ⟨0x7f000000, 8⟩ rfl).1.mpr (by decide),
    ((bogusEndpoints_prefixed arch twoPrefixes twoPrefixes_in6).2.1
      (some (ascii "ff80::/16")) ⟨0xff :: 0x80 :: List.replicate 14 0, 16⟩ rfl).2.2.mpr rfl⟩

/-- With the prefix `ff80::/12` and zeros drawn, the address begins with `ff00`; with the prefix
`127.0.0.0/0` a word of 32 bits is shifted by 32. -/
theorem bogus_endpoint_leaves_prefix :
    (∃ p, parseIpv6Prefix twoPrefixes (some (ascii "ff80::/12")) = .ok p ∧ p.prefixLen = 12 ∧
      addressBit p.addr 8 = true ∧
      addressBit (generateIpv6AddressWithPrefix ⟨0, fun _ => 0, 0⟩ p) 8 = false) ∧
    ∃ p, parseIpv4Prefix twoPrefixes (some (ascii "127.0.0.0/0")) = .ok p ∧ p.prefixLen = 0 ∧
      ∀ draw, generateIpv4Defined draw p = none :=
  ⟨⟨⟨0xff :: 0x80 :: List.replicate 14 0, 12⟩, rfl, rfl, rfl, rfl⟩,
    ⟨0x7f000000, 0⟩, rfl, rfl, fun _ => rfl⟩

end AmneziaWg.Dump
