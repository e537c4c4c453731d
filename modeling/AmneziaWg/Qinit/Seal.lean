import AmneziaWg.Lib.Gcm
import Mathlib.Data.List.GetD
import Mathlib.Tactic.IntervalCases

/-!
# AES-128-GCM in qinit.c

The functions of `qinit.c` that seal the payload, with the block cipher as a parameter, and
that they are Galois/Counter Mode.

* **Model**: `gcmGmul`, `ghashData`, `gcmInc32`, `qinitAes128GcmSeal`.
* **Refinement**: `bits_gcmGmul`, the loops over bytes are the product of the field;
  `decrypt_qinitAes128GcmSeal`.
-/

namespace AmneziaWg.Qinit

open Linux Wire Gcm

/-! ## Model layer -/

/-- The body of the loops of `gcm_gmul`: `result` and `vtmp` after one bit of `z`. -/
def gmulBit (z : Block) (i : Fin 16) (bit : ℕ) (s : Block × Block) : Block × Block :=
  let result := if z i &&& (1 <<< bit) ≠ 0 then fun j => s.1 j ^^^ s.2 j else s.1
  let shifted : Block := fun j =>
    if j = 0 then s.2 0 >>> 1 else (s.2 j >>> 1) ||| ((s.2 (j - 1) &&& 1) <<< 7)
  (result,
    if s.2 15 &&& 1 ≠ 0 then Function.update shifted 0 (shifted 0 ^^^ 0xe1) else shifted)

/-- `gcm_gmul`. -/
def gcmGmul (z v : Block) : Block :=
  ((List.finRange 16).foldl
    (fun s i => [7, 6, 5, 4, 3, 2, 1, 0].foldl (fun s bit => gmulBit z i bit s) s)
    (fun _ => 0, v)).1

/-- `ghash_update`. -/
def ghashUpdate (state blk h : Block) : Block := gcmGmul (fun i => state i ^^^ blk i) h

/-- The loop of `ghash_data` over whole blocks. -/
def ghashBlocks (h : Block) : ℕ → Block → Bytes → Block
  | 0, state, _ => state
  | n + 1, state, data => ghashBlocks h n (ghashUpdate state (block data) h) (data.drop 16)

/-- `ghash_data`. -/
def ghashData (state : Block) (data : Bytes) (h : Block) : Block :=
  let n := data.length / 16
  let state := ghashBlocks h n state data
  let rest := data.drop (16 * n)
  if rest.length > 0 then ghashUpdate state (block rest) h else state

/-- `gcm_inc32`. -/
def gcmInc32 (ctr : Block) : Block :=
  let c : U32 := (ctr 12 ++ ctr 13 ++ ctr 14 ++ ctr 15 : BitVec 32) + 1
  fun j =>
    if j = 12 then (c >>> 24).setWidth 8
    else if j = 13 then (c >>> 16).setWidth 8
    else if j = 14 then (c >>> 8).setWidth 8
    else if j = 15 then c.setWidth 8
    else ctr j

/-- The encryption loop of `qinit_aes128_gcm_seal`, from index `i` on. It may work in place:
every byte is read before it is written. -/
def sealLoop (aes : Block → Block) : ℕ → Block → Block → Bytes → Bytes
  | _, _, _, [] => []
  | i, ctr, ks, b :: pt =>
    let ks' := if i % 16 = 0 then aes ctr else ks
    let ctr' := if i % 16 = 0 then gcmInc32 ctr else ctr
    (b ^^^ ks' ⟨i % 16, mod_lt_block i⟩) :: sealLoop aes (i + 1) ctr' ks' pt

/-- A length in bits, as 64 bits in network order. -/
def lenBytes (len : ℕ) : Bytes :=
  let n := len * 8
  [BitVec.ofNat 8 (n >>> 56), BitVec.ofNat 8 (n >>> 48), BitVec.ofNat 8 (n >>> 40),
    BitVec.ofNat 8 (n >>> 32), BitVec.ofNat 8 (n >>> 24), BitVec.ofNat 8 (n >>> 16),
    BitVec.ofNat 8 (n >>> 8), BitVec.ofNat 8 n]

/-- `J0`: the nonce, three zeros and a one. -/
def j0 (nonce : Bytes) : Block := fun j =>
  if j.val < 12 then nonce.getD j 0 else if j = 15 then 1 else 0

/-- `qinit_aes128_gcm_seal`, with the keyed block cipher. -/
def qinitAes128GcmSeal (aes : Block → Block) (nonce aad pt : Bytes) : Bytes :=
  let h := aes fun _ => 0
  let ct := sealLoop aes 0 (gcmInc32 (j0 nonce)) (fun _ => 0) pt
  let ghash := ghashData (fun _ => 0) aad h
  let ghash := ghashData ghash ct h
  let ghash := ghashUpdate ghash (block (lenBytes aad.length ++ lenBytes ct.length)) h
  let ks := aes (j0 nonce)
  ct ++ bytes fun i => ghash i ^^^ ks i

/-! ## The product -/

theorem and_bit_ne_zero (b : U8) (k : Fin 8) :
    b &&& (1 <<< (7 - k.val)) ≠ 0 ↔ b.getMsbD k = true := by
  have hpow : ((1 <<< (7 - k.val) : ℕ) : U8) = BitVec.twoPow 8 (7 - k.val) := by
    apply BitVec.eq_of_toNat_eq
    rw [BitVec.natCast_eq_ofNat, BitVec.toNat_ofNat, BitVec.toNat_twoPow, Nat.one_shiftLeft]
  have hone : BitVec.twoPow 8 (7 - k.val) ≠ 0 := by
    intro h
    have hoff := congrArg (BitVec.getLsbD · (7 - k.val)) h
    simp at hoff
    omega
  have hbit : b.getMsbD k = b.getLsbD (7 - k.val) := by
    rw [BitVec.getMsbD_eq_getLsbD, decide_eq_true k.isLt]
    rfl
  rw [hpow, BitVec.and_twoPow, hbit]
  by_cases h : b.getLsbD (7 - k.val) = true
  · rw [if_pos h]
    exact ⟨fun _ => h, fun _ => hone⟩
  · rw [if_neg h]
    exact ⟨fun hzero => absurd rfl hzero, fun hset => absurd hset h⟩

theorem shift_first_getMsbD (x : U8) (k : ℕ) (hk : k < 8) :
    (x >>> 1).getMsbD k = if k = 0 then false else x.getMsbD (k - 1) := by
  rw [BitVec.getMsbD_ushiftRight, decide_eq_true hk, Bool.true_and]
  by_cases h : k = 0
  · rw [if_pos h, decide_eq_true (by omega), Bool.not_true, Bool.false_and]
  · rw [if_neg h, decide_eq_false (by omega), Bool.not_false, Bool.true_and]

theorem shift_getMsbD (x y : U8) (k : ℕ) (hk : k < 8) :
    ((x >>> 1) ||| ((y &&& 1) <<< 7)).getMsbD k =
      if k = 0 then y.getMsbD 7 else x.getMsbD (k - 1) := by
  rw [BitVec.getMsbD_or, shift_first_getMsbD x k hk, BitVec.getMsbD_shiftLeft, BitVec.getMsbD_and]
  by_cases h : k = 0
  · subst h
    rw [if_pos rfl, if_pos rfl, Bool.false_or]
    exact Bool.and_true _
  · -- nothing is left of the other byte
    rw [if_neg h, if_neg h, BitVec.getMsbD_of_ge y _ (by omega), Bool.false_and, Bool.or_false]

theorem bits_zero : bits (fun _ => 0) = fun _ => false := by
  funext i
  exact BitVec.getMsbD_zero

theorem bits_xor (a b : Block) : bits (fun j => a j ^^^ b j) = addBits (bits a) (bits b) := by
  funext i
  exact BitVec.getMsbD_xor

/-- The shift of `vtmp` takes the lowest bit of a byte to the next one. -/
theorem bits_shift (v : Block) :
    bits (fun j => if j = 0 then v 0 >>> 1 else (v j >>> 1) ||| ((v (j - 1) &&& 1) <<< 7)) =
      shiftRight (bits v) := by
  funext i
  obtain ⟨n, hn⟩ := i
  have hmod : n % 8 < 8 := Nat.mod_lt _ (by decide)
  simp only [bits, shiftRight]
  by_cases hfirst : n / 8 = 0
  · -- the first byte: zero comes in
    have hj : (⟨n / 8, by omega⟩ : Fin 16) = 0 := Fin.ext hfirst
    rw [if_pos hj, shift_first_getMsbD _ _ hmod]
    by_cases hn0 : n = 0
    · simp [hn0]
    · rw [if_neg (by omega), if_neg hn0]
      congr 2
      · exact Fin.ext (by show 0 = (n - 1) / 8; omega)
      · omega
  · have hj : (⟨n / 8, by omega⟩ : Fin 16) ≠ 0 := fun h => hfirst (congrArg Fin.val h)
    have hn0 : n ≠ 0 := by omega
    rw [if_neg hj, shift_getMsbD _ _ _ hmod, if_neg hn0]
    by_cases hk : n % 8 = 0
    · -- the highest bit comes from the byte before
      have hbyte : (⟨n / 8, by omega⟩ - 1 : Fin 16) = ⟨(n - 1) / 8, by omega⟩ := by
        refine Fin.ext ?_
        rw [Fin.val_sub_one_of_ne_zero hj]
        show n / 8 - 1 = (n - 1) / 8
        omega
      have hlast : (n - 1) % 8 = 7 := by omega
      rw [if_pos hk, hbyte, hlast]
    · rw [if_neg hk]
      congr 2
      · exact Fin.ext (by show n / 8 = (n - 1) / 8; omega)
      · omega

theorem bits_reduce (v : Block) :
    bits (Function.update v 0 (v 0 ^^^ 0xe1)) = addBits (bits v) reduction := by
  have hconst : ∀ k : Fin 8, (0xe1 : U8).getMsbD k = reduction ⟨k.val, by omega⟩ := by
    decide
  funext i
  obtain ⟨n, hn⟩ := i
  simp only [bits, addBits]
  by_cases hfirst : n < 8
  · have hj : (⟨n / 8, by omega⟩ : Fin 16) = 0 := Fin.ext (by show n / 8 = 0; omega)
    have hk : n % 8 = n := Nat.mod_eq_of_lt hfirst
    rw [hj, Function.update_self, hk, BitVec.getMsbD_xor, hconst ⟨n, hfirst⟩]
  · have hj : (⟨n / 8, by omega⟩ : Fin 16) ≠ 0 := by
      intro h
      have hval : n / 8 = 0 := congrArg Fin.val h
      omega
    have hzero : reduction ⟨n, hn⟩ = false := by
      simp only [reduction, Fin.ext_iff]
      simp
      omega
    rw [Function.update_of_ne hj, hzero, Bool.xor_false]

/-- Pass `n` of the two loops. -/
def gmulPass (z : Block) (s : Block × Block) (n : Fin 128) : Block × Block :=
  gmulBit z ⟨n / 8, div_lt_block n⟩ (7 - n % 8) s

/-- One pass is one step of the multiplication. -/
theorem gmulPass_step (z : Block) (n : Fin 128) (s : Block × Block) :
    (bits (gmulPass z s n).1, bits (gmulPass z s n).2) =
      mulStep (bits z n) (bits s.1, bits s.2) := by
  have hbit : z ⟨n / 8, by omega⟩ &&& (1 <<< (7 - n.val % 8)) ≠ 0 ↔ bits z n = true :=
    and_bit_ne_zero (z ⟨n / 8, by omega⟩) ⟨n.val % 8, Nat.mod_lt _ (by decide)⟩
  have hcarry : s.2 15 &&& 1 ≠ 0 ↔ bits s.2 127 = true :=
    and_bit_ne_zero (s.2 15) 7
  unfold gmulPass gmulBit mulStep
  dsimp only
  refine Prod.ext ?_ ?_
  · dsimp only
    by_cases h : bits z n = true
    · rw [if_pos (hbit.mpr h), if_pos h, bits_xor]
    · rw [if_neg (fun hc => h (hbit.mp hc)), if_neg h]
  · dsimp only
    by_cases h : bits s.2 127 = true
    · rw [if_pos (hcarry.mpr h), if_pos h, bits_reduce, bits_shift]
    · rw [if_neg (fun hc => h (hcarry.mp hc)), if_neg h, bits_shift]

/-- The loops make all passes, in order. -/
theorem gcmGmul_eq (z v : Block) :
    gcmGmul z v = ((List.finRange 128).foldl (gmulPass z) (fun _ => 0, v)).1 := by
  have hpasses : (List.finRange 16).flatMap
      (fun i => [7, 6, 5, 4, 3, 2, 1, 0].map fun bit => (i, bit)) =
      (List.finRange 128).map
        fun n => ((⟨n.val / 8, by omega⟩, 7 - n.val % 8) : Fin 16 × ℕ) := by
    decide
  have hfold := congrArg
    (List.foldl (fun s (p : Fin 16 × ℕ) => gmulBit z p.1 p.2 s) (fun _ => 0, v)) hpasses
  rw [List.foldl_flatMap, List.foldl_map] at hfold
  simp only [List.foldl_map] at hfold
  rw [gcmGmul, hfold]
  rfl

/-- `gcm_gmul` computes the product of the field. -/
theorem bits_gcmGmul (z v : Block) : bits (gcmGmul z v) = mul (bits z) (bits v) := by
  -- the two states stay related, pass by pass
  have hrel : ∀ (ns : List (Fin 128)) (s : Block × Block),
      (bits (ns.foldl (gmulPass z) s).1, bits (ns.foldl (gmulPass z) s).2) =
        ns.foldl (fun s n => mulStep (bits z n) s) (bits s.1, bits s.2) := by
    intro ns
    induction ns with
    | nil =>
      intro s
      rfl
    | cons n ns ih =>
      intro s
      rw [List.foldl_cons, List.foldl_cons, ih, gmulPass_step]
  have hstart := congrArg Prod.fst (hrel (List.finRange 128) (fun _ => 0, v))
  dsimp only at hstart
  rw [bits_zero] at hstart
  rw [gcmGmul_eq]
  exact hstart

/-! ## The hash -/

theorem bits_ghashUpdate (state blk h : Block) :
    bits (ghashUpdate state blk h) = mul (addBits (bits state) (bits blk)) (bits h) := by
  rw [ghashUpdate, bits_gcmGmul, bits_xor]

theorem bits_ghashBlocks (h : Block) (n : ℕ) (state : Block) (data : Bytes)
    (hn : 16 * n ≤ data.length) :
    ghash (bits h) (bits (ghashBlocks h n state data)) (blocks (data.drop (16 * n))) =
      ghash (bits h) (bits state) (blocks data) := by
  induction n generalizing state data with
  | zero => rfl
  | succ n ih =>
    have hlen : 16 * n ≤ (data.drop 16).length := by
      rw [List.length_drop]
      omega
    have hrest : data.drop (16 * (n + 1)) = (data.drop 16).drop (16 * n) := by
      rw [List.drop_drop]
      congr 1
      omega
    rw [ghashBlocks, hrest, ih _ _ hlen, blocks_cons (by omega : 0 < data.length), bits_ghashUpdate]
    rfl

/-- `ghash_data` hashes the blocks of the data, the last one filled up. -/
theorem bits_ghashData (state : Block) (data : Bytes) (h : Block) :
    bits (ghashData state data h) = ghash (bits h) (bits state) (blocks data) := by
  have hwhole := bits_ghashBlocks h (data.length / 16) state data (by omega)
  rw [← hwhole]
  unfold ghashData
  dsimp only
  split
  · next hrest =>
    have hshort : ((data.drop (16 * (data.length / 16))).drop 16) = [] := by
      rw [List.drop_drop]
      exact List.drop_eq_nil_of_le (by omega)
    rw [blocks_cons hrest, hshort, blocks_nil, bits_ghashUpdate]
    rfl
  · next hrest =>
    have hnil : data.drop (16 * (data.length / 16)) = [] :=
      List.length_eq_zero_iff.mp (by omega)
    rw [hnil, blocks_nil]
    rfl

/-! ## The counter -/

variable {nonce : Bytes}

theorem j0_eq (h : nonce.length = 12) : j0 nonce = counterBlock nonce 1 := by
  funext j
  obtain ⟨n, hn⟩ := j
  simp only [j0, counterBlock, block]
  by_cases hlt : n < 12
  · rw [if_pos hlt, List.getD_append _ _ _ _ (by omega)]
  · rw [if_neg hlt, List.getD_append_right _ _ _ _ (by omega), h]
    interval_cases n <;> rfl

/-- The four bytes of a counter make the counter. -/
theorem counter_bytes (n : U32) :
    ((n >>> 24).setWidth 8 ++ (n >>> 16).setWidth 8 ++ (n >>> 8).setWidth 8 ++ n.setWidth 8 :
      BitVec 32) = n := by
  ext i hi
  have hbit : n[i] = n.getLsbD i := (BitVec.getLsbD_eq_getElem hi).symm
  simp only [BitVec.getElem_append, BitVec.getElem_setWidth, BitVec.getLsbD_ushiftRight, hbit]
  split
  · rfl
  · split
    · congr 1
      omega
    · split
      · congr 1
        omega
      · congr 1
        omega

/-- A byte of a word. -/
theorem byte_of_word (n : ℕ) {s : ℕ} (hs : s + 8 ≤ 32) :
    BitVec.ofNat 8 (n / 2 ^ s) = (BitVec.ofNat 32 n >>> s).setWidth 8 := by
  apply BitVec.eq_of_getLsbD_eq
  intro i hi
  rw [BitVec.getLsbD_ofNat, BitVec.getLsbD_setWidth, BitVec.getLsbD_ushiftRight,
    BitVec.getLsbD_ofNat, decide_eq_true (show s + i < 32 by omega), Bool.true_and,
    Nat.testBit_div_two_pow, Nat.add_comm]

/-- A number of four bytes, seen as a word. -/
theorem be_four (n : ℕ) :
    be 4 n = [(BitVec.ofNat 32 n >>> 24).setWidth 8, (BitVec.ofNat 32 n >>> 16).setWidth 8,
      (BitVec.ofNat 32 n >>> 8).setWidth 8, (BitVec.ofNat 32 n).setWidth 8] := by
  have hlast := @byte_of_word n 0 (by decide)
  rw [BitVec.ushiftRight_zero] at hlast
  rw [← byte_of_word n (by decide), ← byte_of_word n (by decide), ← byte_of_word n (by decide),
    ← hlast]
  rfl

/-- Where the counter stands in its block. -/
theorem counterBlock_apply (h : nonce.length = 12) (n : ℕ) (j : Fin 16) :
    counterBlock nonce n j = if j.val < 12 then nonce.getD j 0 else (be 4 n).getD (j - 12) 0 := by
  rw [counterBlock, block]
  by_cases hlt : j.val < 12
  · rw [if_pos hlt, List.getD_append _ _ _ _ (by omega)]
  · rw [if_neg hlt, List.getD_append_right _ _ _ _ (by omega), h]

/-- `gcm_inc32` adds one to the counter, in 32 bits. -/
theorem gcmInc32_counterBlock (h : nonce.length = 12) (n : ℕ) :
    gcmInc32 (counterBlock nonce n) = counterBlock nonce (n + 1) := by
  have hword : (counterBlock nonce n 12 ++ counterBlock nonce n 13 ++ counterBlock nonce n 14 ++
      counterBlock nonce n 15 : BitVec 32) = BitVec.ofNat 32 n := by
    simp only [counterBlock_apply h, be_four n]
    exact counter_bytes (BitVec.ofNat 32 n)
  have hsucc : BitVec.ofNat 32 n + 1 = BitVec.ofNat 32 (n + 1) := (BitVec.ofNat_add n 1).symm
  funext j
  simp only [gcmInc32, hword, hsucc]
  rw [counterBlock_apply h (n + 1), be_four (n + 1)]
  obtain ⟨m, hm⟩ := j
  by_cases hlt : m < 12
  · have hne : ∀ k : Fin 16, 12 ≤ k.val → (⟨m, hm⟩ : Fin 16) ≠ k := by
      rintro k hk rfl
      exact absurd hlt (Nat.not_lt.mpr hk)
    rw [if_pos hlt, if_neg (hne 12 (by decide)), if_neg (hne 13 (by decide)),
      if_neg (hne 14 (by decide)), if_neg (hne 15 (by decide)), counterBlock_apply h, if_pos hlt]
  · rw [if_neg hlt]
    interval_cases m <;> rfl

/-! ## Sealing -/

/-- The loop, from an index on: the key stream of the mode. -/
theorem sealLoop_eq (aes : Block → Block) (h : nonce.length = 12) (pt : Bytes) (i : ℕ)
    (ctr ks : Block) (hctr : ctr = counterBlock nonce (2 + (i + 15) / 16))
    (hks : i % 16 ≠ 0 → ks = aes (counterBlock nonce (2 + i / 16))) :
    sealLoop aes i ctr ks pt = pt.mapIdx fun j b => b ^^^ keystream aes nonce (i + j) := by
  induction pt generalizing i ctr ks with
  | nil => rfl
  | cons b pt ih =>
    rw [sealLoop, List.mapIdx_cons]
    -- the block that covers index `i`, and the counter behind it
    have hblock : (if i % 16 = 0 then aes ctr else ks) = aes (counterBlock nonce (2 + i / 16)) := by
      split
      · next hi =>
        rw [hctr]
        congr 3
        omega
      · next hi => exact hks hi
    have hnext : (if i % 16 = 0 then gcmInc32 ctr else ctr) =
        counterBlock nonce (2 + (i + 1 + 15) / 16) := by
      split
      · rw [hctr, gcmInc32_counterBlock h]
        congr 1
        omega
      · rw [hctr]
        congr 2
        omega
    rw [hblock, hnext]
    congr 1
    rw [ih (i + 1) _ _ rfl]
    · refine List.mapIdx_eq_mapIdx_iff.mpr fun j hj => ?_
      rw [show i + 1 + j = i + (j + 1) by omega]
    · intro hi
      congr 3
      omega

theorem sealLoop_ctr (aes : Block → Block) (h : nonce.length = 12) (pt : Bytes) :
    sealLoop aes 0 (gcmInc32 (j0 nonce)) (fun _ => 0) pt = ctr aes nonce pt := by
  rw [j0_eq h, gcmInc32_counterBlock h, sealLoop_eq aes h pt 0 _ _ rfl fun hi => absurd rfl hi]
  simp only [Nat.zero_add]
  rfl

theorem lenBytes_eq (len : ℕ) : lenBytes len = be 8 (8 * len) := by
  simp [lenBytes, be, Nat.shiftRight_eq_div_pow, Nat.mul_comm len 8]

/-- What `qinit_aes128_gcm_seal` writes decrypts to the plaintext. -/
theorem decrypt_qinitAes128GcmSeal (aes : Block → Block) (h : nonce.length = 12) (aad pt : Bytes) :
    decrypt aes nonce aad (qinitAes128GcmSeal aes nonce aad pt) = some pt := by
  rw [qinitAes128GcmSeal, sealLoop_ctr aes h]
  refine decrypt_sealed aes nonce aad ?_
  rw [bits_xor, bits_ghashUpdate, bits_ghashData, bits_ghashData, bits_zero, j0_eq h, lenBytes_eq,
    lenBytes_eq, tag, ghash_append, ghash_append]
  rfl

theorem length_qinitAes128GcmSeal (aes : Block → Block) (h : nonce.length = 12) (aad pt : Bytes) :
    (qinitAes128GcmSeal aes nonce aad pt).length = pt.length + 16 := by
  rw [qinitAes128GcmSeal, sealLoop_ctr aes h, List.length_append, length_ctr, length_bytes]

end AmneziaWg.Qinit
