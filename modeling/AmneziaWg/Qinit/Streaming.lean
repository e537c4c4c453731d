import AmneziaWg.Lib.Blockwise
import AmneziaWg.Lib.Wire
import AmneziaWg.Qinit.Sha256

/-!
# The streaming hash is the hash

`sha256_update` may be called with a message in pieces of any size; `sha256_final` pads what is
left in the buffer, in one block or in two.

* **Specification**: `padded` and `fipsSha256`, of FIPS 180-4; `rfcHmac`, of RFC 2104.
* **Streaming**: `Sha256Ctx.Absorbed` for a context, kept by `sha256Update`.
* **Agreement**: the streaming hash and the HMAC are those of the specification.
-/

namespace AmneziaWg.Qinit

open Linux Wire Blockwise

/-! ## Specification -/

/-- The message, the bit `1`, as few zeros as make room for the length at the end of a block, and
the length in bits. -/
def padded (m : Bytes) : Bytes :=
  m ++ 0x80 :: (List.replicate ((119 - m.length % 64) % 64) 0 ++ be 8 (8 * m.length))

def fipsSha256 (m : Bytes) : Bytes := digest (compressed sha256Compress initialWords 64 (padded m))

/-- The key as long as a block: hashed if it is longer, and filled up with zeros. -/
def rfcKey (key : Bytes) : Bytes :=
  let k := if key.length > 64 then fipsSha256 key else key
  k ++ List.replicate (64 - k.length) 0

def rfcHmac (key msg : Bytes) : Bytes :=
  fipsSha256 ((rfcKey key).map (· ^^^ 0x5c) ++ fipsSha256 ((rfcKey key).map (· ^^^ 0x36) ++ msg))

/-! ## Streaming -/

/-- The context has taken in the message. -/
structure Sha256Ctx.Absorbed (ctx : Sha256Ctx) (m : Bytes) : Prop where
  blocks : Blockwise.Absorbed sha256Compress initialWords 64 ctx.h ctx.buf m
  len : ctx.len = BitVec.ofNat 64 m.length

theorem sha256Init_absorbed : sha256Init.Absorbed [] := ⟨absorbed_nil .., rfl⟩

theorem absorb_len (ctx : Sha256Ctx) (data : Bytes) : (absorb ctx data).len = ctx.len := by
  fun_induction absorb ctx data with
  | case1 => rfl
  | case2 ctx data hpos left hfull ih => exact ih
  | case3 => rfl

/-- The loop of `sha256_update`: fill the buffer, compress it, go on with the rest. -/
theorem absorb_blocks (ctx : Sha256Ctx) (data : Bytes) :
    ∀ {m : Bytes}, Blockwise.Absorbed sha256Compress initialWords 64 ctx.h ctx.buf m →
      Blockwise.Absorbed sha256Compress initialWords 64 (absorb ctx data).h (absorb ctx data).buf
        (m ++ data) := by
  fun_induction absorb ctx data with
  | case1 ctx data hpos left =>
    intro m h
    exact h.append data
  | case2 ctx data hpos left hfull =>
    -- the buffer is filled up to a block, which is compressed
    rename_i ih
    intro m h
    have hroom := ctx.room
    have hblock : (ctx.buf ++ data.take left).length = 64 := by
      rw [List.length_append, List.length_take]
      omega
    have hnext := ih ((h.append (data.take left)).full (by omega) hblock)
    rwa [List.append_assoc, List.take_append_drop] at hnext
  | case3 ctx data hempty =>
    intro m h
    have hnil : data = [] := List.length_eq_zero_iff.mp (by omega)
    rw [hnil, List.append_nil]
    exact h

variable {ctx : Sha256Ctx} {m : Bytes}

theorem sha256Update_absorbed (h : ctx.Absorbed m) (data : Bytes) :
    (sha256Update ctx data).Absorbed (m ++ data) := by
  constructor
  · exact absorb_blocks { ctx with len := ctx.len + BitVec.ofNat 64 data.length } data h.blocks
  · rw [sha256Update, absorb_len, List.length_append, BitVec.ofNat_add, h.len]

theorem foldl_absorbed (h : ctx.Absorbed m) (chunks : List Bytes) :
    (chunks.foldl sha256Update ctx).Absorbed (m ++ chunks.flatten) := by
  induction chunks generalizing ctx m with
  | nil =>
    rw [List.flatten_nil, List.append_nil]
    exact h
  | cons data chunks ih =>
    rw [List.foldl_cons, List.flatten_cons, ← List.append_assoc]
    exact ih (sha256Update_absorbed h data)

/-! ## Agreement -/

theorem storeBe64_eq (v : U64) : storeBe64 v = be 8 v.toNat := by
  have hbyte : ∀ k, (v >>> (8 * k)).setWidth 8 = BitVec.ofNat 8 (v.toNat / 256 ^ k) := by
    intro k
    apply BitVec.eq_of_toNat_eq
    have hpow : 2 ^ (8 * k) = 256 ^ k := by rw [Nat.pow_mul]
    simp [Nat.shiftRight_eq_div_pow, hpow]
  have hlow : v.setWidth 8 = BitVec.ofNat 8 (v.toNat / 256 ^ 0) := hbyte 0
  rw [storeBe64, hbyte 7, hbyte 6, hbyte 5, hbyte 4, hbyte 3, hbyte 2, hbyte 1, hlow]
  rfl

/-- The end of a message, when the length fits into the block that is under way. -/
theorem padded_short {front buf : Bytes} (haligned : 64 ∣ front.length)
    (hroom : buf.length + 1 ≤ 56) :
    padded (front ++ buf) = front ++ (buf ++ [0x80] ++ List.replicate (56 - (buf.length + 1)) 0 ++
      be 8 (8 * (front ++ buf).length)) := by
  rcases haligned with ⟨k, hk⟩
  have hzeros : (119 - (front ++ buf).length % 64) % 64 = 56 - (buf.length + 1) := by
    rw [List.length_append]
    omega
  rw [padded, hzeros]
  simp only [List.append_assoc, List.cons_append, List.nil_append]

/-- The end of a message, when the length needs a block of its own. -/
theorem padded_long {front buf : Bytes} (haligned : 64 ∣ front.length) (hroom : 56 < buf.length + 1)
    (hbuf : buf.length < 64) :
    padded (front ++ buf) = front ++ (buf ++ [0x80] ++ List.replicate (64 - (buf.length + 1)) 0) ++
      (List.replicate 56 0 ++ be 8 (8 * (front ++ buf).length)) := by
  rcases haligned with ⟨k, hk⟩
  have hzeros : (119 - (front ++ buf).length % 64) % 64 = 64 - (buf.length + 1) + 56 := by
    rw [List.length_append]
    omega
  rw [padded, hzeros, List.replicate_add]
  simp only [List.append_assoc, List.cons_append, List.nil_append]

/-- `sha256_final` pads as FIPS 180-4 does, and hashes what is left. -/
theorem sha256Final_eq (h : ctx.Absorbed m) (hlen : m.length < 2 ^ 61) :
    sha256Final ctx = fipsSha256 m := by
  have hroom := ctx.room
  have hlength : storeBe64 (ctx.len * 8) = be 8 (8 * m.length) := by
    have hbits : (ctx.len * 8).toNat = 8 * m.length := by
      rw [h.len, BitVec.toNat_mul, BitVec.toNat_ofNat]
      show m.length % 2 ^ 64 * 8 % 2 ^ 64 = _
      omega
    rw [storeBe64_eq, hbits]
  have hone : (ctx.buf ++ [0x80]).length = ctx.buf.length + 1 := by
    rw [List.length_append, List.length_singleton]
  rcases h.blocks.front with ⟨front, hm, haligned, hstate⟩
  rw [sha256Final, hlength, hone, hstate, fipsSha256]
  subst hm
  by_cases hfull : ctx.buf.length + 1 > 56
  · -- two more blocks
    have hfirst : (ctx.buf ++ [0x80] ++
        List.replicate (64 - (ctx.buf.length + 1)) (0 : U8)).length = 64 := by
      rw [List.length_append, hone, List.length_replicate]
      omega
    have haligned' : 64 ∣ (front ++ (ctx.buf ++ [0x80] ++
        List.replicate (64 - (ctx.buf.length + 1)) (0 : U8))).length := by
      rw [List.length_append, hfirst]
      exact Nat.dvd_add haligned (Nat.dvd_refl 64)
    rw [if_pos hfull, padded_long haligned hfull hroom,
      compressed_append _ _ (by omega) haligned' (by simp),
      compressed_append _ _ (by omega) haligned hfirst]
    rfl
  · -- the length still fits
    have hlast : (ctx.buf ++ [0x80] ++ List.replicate (56 - (ctx.buf.length + 1)) (0 : U8) ++
        be 8 (8 * (front ++ ctx.buf).length)).length = 64 := by
      rw [List.length_append, List.length_append, hone, List.length_replicate, length_be]
      omega
    rw [if_neg hfull, padded_short haligned (by omega),
      compressed_append _ _ (by omega) haligned hlast]
    dsimp only
    rw [hone]

theorem sha256_eq (hlen : m.length < 2 ^ 61) : sha256 m = fipsSha256 m :=
  sha256Final_eq (sha256Update_absorbed sha256Init_absorbed m) hlen

theorem length_fipsSha256 (m : Bytes) : (fipsSha256 m).length = 32 := by
  simp [fipsSha256, digest, storeBe32]

/-- A key of a block and a message, hashed one after the other. -/
theorem sha256Final_two {k : Bytes} (hlen : (k ++ m).length < 2 ^ 61) :
    sha256Final (sha256Update (sha256Update sha256Init k) m) = fipsSha256 (k ++ m) :=
  sha256Final_eq (sha256Update_absorbed (sha256Update_absorbed sha256Init_absorbed k) m) hlen

theorem length_rfcKey (key : Bytes) : (rfcKey key).length = 64 := by
  have hk : (if key.length > 64 then fipsSha256 key else key).length ≤ 64 := by
    split
    · rw [length_fipsSha256]
      omega
    · omega
  rw [rfcKey, List.length_append, List.length_replicate]
  omega

/-- However a message below 2^61 bytes is cut into chunks, the streaming hash is the fold of the
compression function over the padded message; and so the HMAC is the one of RFC 2104, for keys
and messages of any `u32` length. -/
theorem sha256_streaming :
    (∀ chunks : List Bytes, (∀ data ∈ chunks, data.length < 2 ^ 32) →
      chunks.flatten.length < 2 ^ 61 →
      sha256Final (chunks.foldl sha256Update sha256Init) = fipsSha256 chunks.flatten) ∧
    ∀ key msg : Bytes, key.length < 2 ^ 32 → msg.length < 2 ^ 32 →
      qinitHmacSha256 key msg = rfcHmac key msg := by
  constructor
  · intro chunks _ htotal
    exact sha256Final_eq (foldl_absorbed sha256Init_absorbed chunks) htotal
  · intro key msg hkey hmsg
    -- the key is hashed by the same function
    have hnormal : hmacKey key ++ List.replicate (64 - (hmacKey key).length) 0 = rfcKey key := by
      rw [hmacKey, rfcKey, sha256_eq (by omega)]
    have hlen := length_rfcKey key
    have hinner : ((rfcKey key).map (· ^^^ 0x36) ++ msg).length < 2 ^ 61 := by
      rw [List.length_append, List.length_map, hlen]
      omega
    have houter : ((rfcKey key).map (· ^^^ 0x5c) ++
        fipsSha256 ((rfcKey key).map (· ^^^ 0x36) ++ msg)).length < 2 ^ 61 := by
      rw [List.length_append, List.length_map, hlen, length_fipsSha256]
      omega
    rw [qinitHmacSha256, rfcHmac, hnormal, sha256Final_two hinner, sha256Final_two houter]

theorem sha256_streaming_abc :
    sha256Final ([[], [0x61, 0x62], [0x63]].foldl sha256Update sha256Init) =
        fipsSha256 [0x61, 0x62, 0x63] ∧
      qinitHmacSha256 [0x6b] [0x61, 0x62, 0x63] = rfcHmac [0x6b] [0x61, 0x62, 0x63] :=
  ⟨sha256_streaming.1 [[], [0x61, 0x62], [0x63]] (by decide) (by decide),
    sha256_streaming.2 [0x6b] [0x61, 0x62, 0x63] (by decide) (by decide)⟩

end AmneziaWg.Qinit
