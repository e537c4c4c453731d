import AmneziaWg.Lib.Linux

/-!
# SHA-256 and HMAC

`crypto/sha256.c` and the functions of `qinit.c` that are built on it, up to the keys of a
QUIC Initial.

* **Model**: the streaming hash with its buffer, HMAC, HKDF with TLS labels,
  `qinitDeriveInitialKeys`.
* **Lengths**: a digest has 32 bytes; the buffers on the way to the keys are large enough
  (`keyScratch_fits`).
-/

namespace AmneziaWg.Qinit

open Linux

/-! ## The hash -/

/-- The constants of the rounds. -/
def roundConstants : List U32 :=
  [0x428a2f98, 0x71374491, 0xb5c0fbcf, 0xe9b5dba5, 0x3956c25b, 0x59f111f1, 0x923f82a4, 0xab1c5ed5,
    0xd807aa98, 0x12835b01, 0x243185be, 0x550c7dc3, 0x72be5d74, 0x80deb1fe, 0x9bdc06a7, 0xc19bf174,
    0xe49b69c1, 0xefbe4786, 0x0fc19dc6, 0x240ca1cc, 0x2de92c6f, 0x4a7484aa, 0x5cb0a9dc, 0x76f988da,
    0x983e5152, 0xa831c66d, 0xb00327c8, 0xbf597fc7, 0xc6e00bf3, 0xd5a79147, 0x06ca6351, 0x14292967,
    0x27b70a85, 0x2e1b2138, 0x4d2c6dfc, 0x53380d13, 0x650a7354, 0x766a0abb, 0x81c2c92e, 0x92722c85,
    0xa2bfe8a1, 0xa81a664b, 0xc24b8b70, 0xc76c51a3, 0xd192e819, 0xd6990624, 0xf40e3585, 0x106aa070,
    0x19a4c116, 0x1e376c08, 0x2748774c, 0x34b0bcb5, 0x391c0cb3, 0x4ed8aa4a, 0x5b9cca4f, 0x682e6ff3,
    0x748f82ee, 0x78a5636f, 0x84c87814, 0x8cc70208, 0x90befffa, 0xa4506ceb, 0xbef9a3f7, 0xc67178f2]

/-- `ctx->h`, under the names of the working variables. -/
structure Words where
  a : U32
  b : U32
  c : U32
  d : U32
  e : U32
  f : U32
  g : U32
  h : U32
deriving DecidableEq

/-- `H0`. -/
def initialWords : Words where
  a := 0x6a09e667
  b := 0xbb67ae85
  c := 0x3c6ef372
  d := 0xa54ff53a
  e := 0x510e527f
  f := 0x9b05688c
  g := 0x1f83d9ab
  h := 0x5be0cd19

def rotr32 (x : U32) (n : ℕ) : U32 := (x >>> n) ||| (x <<< (32 - n))

def ch (e f g : U32) : U32 := (e &&& f) ^^^ (~~~e &&& g)

def maj (a b c : U32) : U32 := (a &&& b) ^^^ (a &&& c) ^^^ (b &&& c)

def bsig0 (x : U32) : U32 := rotr32 x 2 ^^^ rotr32 x 13 ^^^ rotr32 x 22

def bsig1 (x : U32) : U32 := rotr32 x 6 ^^^ rotr32 x 11 ^^^ rotr32 x 25

def ssig0 (x : U32) : U32 := rotr32 x 7 ^^^ rotr32 x 18 ^^^ (x >>> 3)

def ssig1 (x : U32) : U32 := rotr32 x 17 ^^^ rotr32 x 19 ^^^ (x >>> 10)

def loadBe32 (p : Bytes) : U32 :=
  ((p.getD 0 0).setWidth 32 <<< 24) ||| ((p.getD 1 0).setWidth 32 <<< 16) |||
    ((p.getD 2 0).setWidth 32 <<< 8) ||| (p.getD 3 0).setWidth 32

def storeBe32 (v : U32) : Bytes :=
  [(v >>> 24).setWidth 8, (v >>> 16).setWidth 8, (v >>> 8).setWidth 8, v.setWidth 8]

def storeBe64 (v : U64) : Bytes :=
  [(v >>> 56).setWidth 8, (v >>> 48).setWidth 8, (v >>> 40).setWidth 8, (v >>> 32).setWidth 8,
    (v >>> 24).setWidth 8, (v >>> 16).setWidth 8, (v >>> 8).setWidth 8, v.setWidth 8]

/-- `w`: sixteen words of the block, and `n` words computed from those in front of them. -/
def schedule (block : Bytes) : ℕ → List U32
  | 0 => (List.range 16).map fun i => loadBe32 (block.drop (4 * i))
  | n + 1 =>
    let w := schedule block n
    let i := 16 + n
    w ++ [ssig1 (w.getD (i - 2) 0) + w.getD (i - 7) 0 + ssig0 (w.getD (i - 15) 0) +
      w.getD (i - 16) 0]

/-- One of the 64 rounds. -/
def round (s : Words) (kw : U32 × U32) : Words :=
  let t1 := s.h + bsig1 s.e + ch s.e s.f s.g + kw.1 + kw.2
  let t2 := bsig0 s.a + maj s.a s.b s.c
  { a := t1 + t2, b := s.a, c := s.b, d := s.c, e := s.d + t1, f := s.e, g := s.f, h := s.g }

/-- `sha256_compress`. -/
def sha256Compress (s : Words) (block : Bytes) : Words :=
  let r := (roundConstants.zip (schedule block 48)).foldl round s
  { a := s.a + r.a, b := s.b + r.b, c := s.c + r.c, d := s.d + r.d,
    e := s.e + r.e, f := s.f + r.f, g := s.g + r.g, h := s.h + r.h }

/-- `struct sha256_ctx`. Of `buf` only the first `buflen` bytes are kept; a full buffer is
compressed at once. -/
structure Sha256Ctx where
  h : Words
  len : U64
  buf : Bytes
  room : buf.length < 64

/-- `sha256_init`. -/
def sha256Init : Sha256Ctx where
  h := initialWords
  len := 0
  buf := []
  room := by decide

/-- The loop of `sha256_update`. -/
def absorb (ctx : Sha256Ctx) (data : Bytes) : Sha256Ctx :=
  if 0 < data.length then
    let left := 64 - ctx.buf.length
    if h : data.length < left then
      { ctx with
        buf := ctx.buf ++ data
        room := by
          rw [List.length_append]
          omega }
    else
      absorb
        { ctx with
          h := sha256Compress ctx.h (ctx.buf ++ data.take left)
          buf := []
          room := by decide }
        (data.drop left)
  else ctx
termination_by data.length
decreasing_by
  have hroom := ctx.room
  rw [List.length_drop]
  omega

/-- `sha256_update`. -/
def sha256Update (ctx : Sha256Ctx) (data : Bytes) : Sha256Ctx :=
  absorb { ctx with len := ctx.len + BitVec.ofNat 64 data.length } data

/-- The digest, from the words. -/
def digest (s : Words) : Bytes :=
  [s.a, s.b, s.c, s.d, s.e, s.f, s.g, s.h].flatMap storeBe32

/-- `sha256_final`. -/
def sha256Final (ctx : Sha256Ctx) : Bytes :=
  let bitlen := ctx.len * 8
  let buf := ctx.buf ++ [0x80]
  let (h, buf) :=
    if buf.length > 56 then
      (sha256Compress ctx.h (buf ++ List.replicate (64 - buf.length) 0), [])
    else (ctx.h, buf)
  digest (sha256Compress h (buf ++ List.replicate (56 - buf.length) 0 ++ storeBe64 bitlen))

/-- `sha256`. -/
def sha256 (data : Bytes) : Bytes := sha256Final (sha256Update sha256Init data)

/-! ## Keys -/

/-- What is copied to the front of `k`: the key, or its digest if it is too long. -/
def hmacKey (key : Bytes) : Bytes := if key.length > 64 then sha256 key else key

/-- `qinit_hmac_sha256`. -/
def qinitHmacSha256 (key msg : Bytes) : Bytes :=
  let k := hmacKey key
  let k := k ++ List.replicate (64 - k.length) 0
  let ipad := k.map (· ^^^ 0x36)
  let opad := k.map (· ^^^ 0x5c)
  let inner := sha256Final (sha256Update (sha256Update sha256Init ipad) msg)
  sha256Final (sha256Update (sha256Update sha256Init opad) inner)

/-- `qinit_hkdf_extract`: the salt is the key of the HMAC. -/
def qinitHkdfExtract (salt ikm : Bytes) : Bytes := qinitHmacSha256 salt ikm

/-- `full`: the label behind its prefix, cut off where the buffer ends. -/
def fullLabel (label : Bytes) : Bytes := ascii "tls13 " ++ label.take 32

/-- `info`. -/
def labelInfo (label : Bytes) (len : ℕ) : Bytes :=
  let full := fullLabel label
  [BitVec.ofNat 8 (len >>> 8), BitVec.ofNat 8 len, BitVec.ofNat 8 full.length] ++ full ++ [0x00]

/-- `qinit_hkdf_expand_label`. One block of the HMAC is enough. -/
def qinitHkdfExpandLabel (secret label : Bytes) (len : ℕ) : Bytes :=
  (qinitHmacSha256 secret (labelInfo label len ++ [0x01])).take len

/-- `quic_v1_initial_salt`. -/
def quicV1InitialSalt : Bytes :=
  [0x38, 0x76, 0x2c, 0xf7, 0xf5, 0x59, 0x34, 0xb3, 0x4d, 0x17,
    0x9a, 0xe6, 0xa4, 0xc8, 0x0c, 0xad, 0xcc, 0xbb, 0x7f, 0x0a]

/-- What `qinit_derive_initial_keys` writes. -/
structure InitialKeys where
  key : Bytes
  iv : Bytes
  hp : Bytes

/-- `client_secret`. -/
def clientSecret (dcid : Bytes) : Bytes :=
  qinitHkdfExpandLabel (qinitHkdfExtract quicV1InitialSalt dcid) (ascii "client in") 32

/-- `qinit_derive_initial_keys`. -/
def qinitDeriveInitialKeys (dcid : Bytes) : InitialKeys :=
  let secret := clientSecret dcid
  { key := qinitHkdfExpandLabel secret (ascii "quic key") 16
    iv := qinitHkdfExpandLabel secret (ascii "quic iv") 12
    hp := qinitHkdfExpandLabel secret (ascii "quic hp") 16 }

/-! ## Lengths -/

@[simp] theorem length_sha256Final (ctx : Sha256Ctx) : (sha256Final ctx).length = 32 := by
  simp [sha256Final, digest, storeBe32]

@[simp] theorem length_qinitHmacSha256 (key msg : Bytes) :
    (qinitHmacSha256 key msg).length = 32 := by
  rw [qinitHmacSha256, length_sha256Final]

theorem length_qinitHkdfExpandLabel (secret label : Bytes) {len : ℕ} (h : len ≤ 32) :
    (qinitHkdfExpandLabel secret label len).length = len := by
  rw [qinitHkdfExpandLabel, List.length_take, length_qinitHmacSha256, Nat.min_eq_left h]

theorem length_iv (dcid : Bytes) : (qinitDeriveInitialKeys dcid).iv.length = 12 :=
  length_qinitHkdfExpandLabel _ _ (by decide)

/-- The buffers of one `qinit_hkdf_expand_label`, with their sizes: `full`, `info`, `m`, the
key of the HMAC, and `out`. -/
def labelScratch (secret label : Bytes) (len : ℕ) : List (Bytes × ℕ) :=
  [(fullLabel label, 6 + 32), (labelInfo label len, 2 + 1 + (6 + 32) + 1),
    (labelInfo label len ++ [0x01], 2 + 1 + (6 + 32) + 1 + 1), (hmacKey secret, 64),
    (qinitHkdfExpandLabel secret label len, len)]

theorem length_hmacKey_le (key : Bytes) : (hmacKey key).length ≤ 64 := by
  unfold hmacKey
  split
  · rw [sha256, length_sha256Final]
    decide
  · omega

theorem length_fullLabel_le (label : Bytes) : (fullLabel label).length ≤ 6 + 32 := by
  have hstart : (ascii "tls13 ").length = 6 := rfl
  rw [fullLabel, List.length_append, List.length_take, hstart]
  omega

theorem length_labelInfo (label : Bytes) (len : ℕ) :
    (labelInfo label len).length = 3 + (fullLabel label).length + 1 := by
  rw [labelInfo, List.length_append, List.length_append]
  rfl

theorem labelScratch_fits (secret label : Bytes) (len : ℕ) :
    ∀ x ∈ labelScratch secret label len, x.1.length ≤ x.2 := by
  have hfull := length_fullLabel_le label
  have hinfo := length_labelInfo label len
  intro x hx
  simp only [labelScratch, List.mem_cons, List.not_mem_nil, or_false] at hx
  rcases hx with rfl | rfl | rfl | rfl | rfl
  · exact hfull
  · show (labelInfo label len).length ≤ _
    omega
  · show (labelInfo label len ++ [0x01]).length ≤ _
    rw [List.length_append, List.length_singleton]
    omega
  · exact length_hmacKey_le secret
  · exact List.length_take_le ..

/-- The buffers of `qinit_derive_initial_keys`. -/
def keyScratch (dcid : Bytes) : List (Bytes × ℕ) :=
  let initialSecret := qinitHkdfExtract quicV1InitialSalt dcid
  (hmacKey quicV1InitialSalt, 64) :: (initialSecret, 32) ::
    labelScratch initialSecret (ascii "client in") 32 ++
    labelScratch (clientSecret dcid) (ascii "quic key") 16 ++
    labelScratch (clientSecret dcid) (ascii "quic iv") 12 ++
    labelScratch (clientSecret dcid) (ascii "quic hp") 16

theorem keyScratch_fits (dcid : Bytes) : ∀ x ∈ keyScratch dcid, x.1.length ≤ x.2 := by
  intro x hx
  simp only [keyScratch, List.cons_append, List.mem_cons, List.mem_append] at hx
  rcases hx with rfl | rfl | ((hx | hx) | hx) | hx
  · exact length_hmacKey_le quicV1InitialSalt
  · exact (length_qinitHmacSha256 ..).le
  -- the four labels
  all_goals exact labelScratch_fits _ _ _ x hx

end AmneziaWg.Qinit
