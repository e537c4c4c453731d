import AmneziaWg.Lib.Wire
import Mathlib.Tactic.IntervalCases

/-!
# The ClientHello

`qinit_build_client_hello` assembles a TLS ClientHello in scratch buffers on the stack,
from the inside out. The buffers are as long as the longest server name asks for; lengths
are written by hand.

* **Writers**: numbers, vectors and extensions, and that they are read back.
* **Model**: the seven extensions, `qinitBuildClientHello`.
* **Bounds**: `scratch_fits`.
* **Reading back**: `readHello`, a strict reader that accepts a message only if every
  length in it is exactly that of what it covers; `readHello_clientHello`.
-/

namespace AmneziaWg.Qinit

open Linux Wire

/-! ## Writers -/

/-- `qinit_put_varint`. -/
def qinitPutVarint (v : ℕ) : Bytes :=
  if v ≤ 63 then [BitVec.ofNat 8 v]
  else if v ≤ 16383 then [BitVec.ofNat 8 (0x40 ||| (v >>> 8)), BitVec.ofNat 8 v]
  else if v ≤ 1073741823 then
    [BitVec.ofNat 8 (0x80 ||| (v >>> 24)), BitVec.ofNat 8 (v >>> 16), BitVec.ofNat 8 (v >>> 8),
      BitVec.ofNat 8 v]
  else
    [BitVec.ofNat 8 (0xc0 ||| (v >>> 56)), BitVec.ofNat 8 (v >>> 48), BitVec.ofNat 8 (v >>> 40),
      BitVec.ofNat 8 (v >>> 32), BitVec.ofNat 8 (v >>> 24), BitVec.ofNat 8 (v >>> 16),
      BitVec.ofNat 8 (v >>> 8), BitVec.ofNat 8 v]

/-- `qinit_put_u8vec`. -/
def qinitPutU8vec (body : Bytes) : Bytes := BitVec.ofNat 8 body.length :: body

/-- `qinit_put_u16vec`. -/
def qinitPutU16vec (body : Bytes) : Bytes :=
  BitVec.ofNat 8 (body.length >>> 8) :: BitVec.ofNat 8 body.length :: body

/-- `qinit_put_ext`. -/
def qinitPutExt (etype : ℕ) (data : Bytes) : Bytes :=
  BitVec.ofNat 8 (etype >>> 8) :: BitVec.ofNat 8 etype :: qinitPutU16vec data

theorem qinitPutU8vec_eq (body : Bytes) : qinitPutU8vec body = putVec 1 body := by
  simp [qinitPutU8vec, putVec, be]

theorem qinitPutU16vec_eq (body : Bytes) : qinitPutU16vec body = putVec 2 body := by
  simp [qinitPutU16vec, putVec, be, Nat.shiftRight_eq_div_pow]

theorem qinitPutExt_eq (etype : ℕ) (data : Bytes) :
    qinitPutExt etype data = be 2 etype ++ putVec 2 data := by
  simp [qinitPutExt, qinitPutU16vec_eq, be, Nat.shiftRight_eq_div_pow]

/-- `qinit_put_varint` in the form of the reader: the width, then the number. -/
theorem qinitPutVarint_eq {v : ℕ} (h : v < 2 ^ 62) :
    ∃ m k w, m < 4 ∧ k + 1 = 2 ^ m ∧ 2 ^ w = 256 ^ k * 64 ∧ v < 2 ^ w ∧
      qinitPutVarint v = be (k + 1) (m * 2 ^ w + v) := by
  unfold qinitPutVarint
  split
  · refine ⟨0, 0, 6, by decide, rfl, rfl, by omega, ?_⟩
    rw [be_marked rfl (by omega)]
    simp [be]
  · split
    · refine ⟨1, 1, 14, by decide, rfl, rfl, by omega, ?_⟩
      rw [be_marked rfl (by omega)]
      simp [be, Nat.shiftRight_eq_div_pow]
    · split
      · refine ⟨2, 3, 30, by decide, rfl, rfl, by omega, ?_⟩
        rw [be_marked rfl (by omega)]
        simp [be, Nat.shiftRight_eq_div_pow]
      · refine ⟨3, 7, 62, by decide, rfl, rfl, h, ?_⟩
        rw [be_marked rfl h]
        simp [be, Nat.shiftRight_eq_div_pow]

/-- Every number that fits is read back. -/
theorem varint_qinitPutVarint {v : ℕ} (h : v < 2 ^ 62) (rest : Bytes) :
    varint (qinitPutVarint v ++ rest) = some (v, rest) := by
  obtain ⟨m, k, w, hm, hk, hw, hv, heq⟩ := qinitPutVarint_eq h
  rw [heq]
  exact varint_be hm hk hw hv rest

/-- A number that fits into `2 ^ m` bytes takes no more of them. -/
theorem length_qinitPutVarint_le {v m : ℕ} (hm : m < 4) (hv : v < 2 ^ (8 * 2 ^ m - 2)) :
    (qinitPutVarint v).length ≤ 2 ^ m := by
  unfold qinitPutVarint
  interval_cases m
  all_goals
    -- a size class with more bytes contradicts the bound
    split_ifs <;> simp <;> omega

/-- What the writers write is read back, whatever follows, and no other encoding of a number
is shorter. -/
theorem writers_read_back (rest : Bytes) :
    (∀ v < 2 ^ 62, varint (qinitPutVarint v ++ rest) = some (v, rest) ∧
      ∀ enc rest', varint (enc ++ rest') = some (v, rest') →
        (qinitPutVarint v).length ≤ enc.length) ∧
    (∀ body : Bytes, body.length < 2 ^ 8 →
      vec 1 (qinitPutU8vec body ++ rest) = some (body, rest)) ∧
    (∀ body : Bytes, body.length < 2 ^ 16 →
      vec 2 (qinitPutU16vec body ++ rest) = some (body, rest)) ∧
    ∀ etype < 2 ^ 16, ∀ data : Bytes, data.length < 2 ^ 16 →
      pair (number 2) (vec 2) (qinitPutExt etype data ++ rest) = some ((etype, data), rest) := by
  refine ⟨?_, ?_, ?_, ?_⟩
  · intro v hv
    refine ⟨varint_qinitPutVarint hv rest, ?_⟩
    intro enc rest' hread
    obtain ⟨m, hm, hlen, hfits⟩ := varint_taken hread
    rw [hlen]
    exact length_qinitPutVarint_le hm hfits
  · intro body hbody
    rw [qinitPutU8vec_eq]
    exact vec_putVec hbody rest
  · intro body hbody
    rw [qinitPutU16vec_eq]
    exact vec_putVec hbody rest
  · intro etype hetype data hdata
    rw [qinitPutExt_eq]
    exact pair_append (number_be hetype) (vec_putVec hdata) rest

/-- Four bytes can hold 1174 as well. -/
theorem writers_read_back_sample :
    varint (qinitPutVarint 1174 ++ [0xff]) = some (1174, [0xff]) ∧
      (qinitPutVarint 1174).length ≤ ([0x80, 0x00, 0x04, 0x96] : Bytes).length ∧
      vec 1 (qinitPutU8vec [1, 2] ++ [0xff]) = some ([1, 2], [0xff]) ∧
      vec 2 (qinitPutU16vec [1, 2] ++ [0xff]) = some ([1, 2], [0xff]) ∧
      pair (number 2) (vec 2) (qinitPutExt 0x002b [1, 2] ++ [0xff]) =
        some ((0x002b, [1, 2]), [0xff]) := by
  obtain ⟨hvarint, hu8, hu16, hext⟩ := writers_read_back [0xff]
  obtain ⟨hread, hshortest⟩ := hvarint 1174 (by decide)
  exact ⟨hread, hshortest [0x80, 0x00, 0x04, 0x96] [] (by decide), hu8 [1, 2] (by decide),
    hu16 [1, 2] (by decide), hext 0x002b (by decide) [1, 2] (by decide)⟩

/-! ## Model layer -/

/-- `sni_list`. -/
def sniList (sni : Bytes) : Bytes :=
  0x00 :: BitVec.ofNat 8 (sni.length >>> 8) :: BitVec.ofNat 8 sni.length :: sni

/-- `wrapped`. -/
def wrappedSni (sni : Bytes) : Bytes := qinitPutU16vec (sniList sni)

/-- `sv`. -/
def supportedVersions : Bytes := qinitPutU8vec [0x03, 0x04]

/-- `sg`. -/
def supportedGroups : Bytes := qinitPutU16vec [0x00, 0x1d]

/-- `ks_inner`. -/
def keyShareInner (pub : Bytes) : Bytes := 0x00 :: 0x1d :: qinitPutU16vec pub

/-- `ks_outer`. -/
def keyShareOuter (pub : Bytes) : Bytes := qinitPutU16vec (keyShareInner pub)

/-- `sa`. -/
def signatureAlgorithms : Bytes := qinitPutU16vec [0x04, 0x03, 0x08, 0x04, 0x04, 0x01]

/-- `alpn_inner`. -/
def alpnInner : Bytes := qinitPutU8vec (ascii "h3")

/-- `alpn_outer`. -/
def alpnOuter : Bytes := qinitPutU16vec alpnInner

/-- `qtp`. -/
def quicTransportParameters (scid : Bytes) : Bytes :=
  0x0f :: BitVec.ofNat 8 scid.length :: scid

/-- `exts`. -/
def extensionBlock (sni scid pub : Bytes) : Bytes :=
  qinitPutExt 0x0000 (wrappedSni sni) ++ qinitPutExt 0x002b supportedVersions ++
    qinitPutExt 0x000a supportedGroups ++ qinitPutExt 0x0033 (keyShareOuter pub) ++
    qinitPutExt 0x000d signatureAlgorithms ++ qinitPutExt 0x0010 alpnOuter ++
    qinitPutExt 0x0039 (quicTransportParameters scid)

/-- `body`. -/
def helloBody (sni scid pub random : Bytes) : Bytes :=
  [0x03, 0x03] ++ random ++ qinitPutU8vec [] ++
    qinitPutU16vec [0x13, 0x01, 0x13, 0x02, 0x13, 0x03] ++ qinitPutU8vec [0x00] ++
    qinitPutU16vec (extensionBlock sni scid pub)

/-- The handshake message, behind its type and a length of three bytes. -/
def clientHello (sni scid pub random : Bytes) : Bytes :=
  let body := helloBody sni scid pub random
  [0x01, BitVec.ofNat 8 (body.length >>> 16), BitVec.ofNat 8 (body.length >>> 8),
    BitVec.ofNat 8 body.length] ++ body

/-- The next `n` bytes of a stream of random bytes, and the stream behind them. -/
def draw (n : ℕ) (stream : ℕ → U8) : Bytes × (ℕ → U8) :=
  ((List.range n).map stream, fun i => stream (n + i))

/-- The loop that measures the server name, up to its `NUL`. -/
def sniLength (sni : Bytes) : ℕ := (sni.takeWhile (· ≠ 0)).length

/-- `qinit_build_client_hello`: the message, and what is left of the random stream; `none` for
`-1`. The name is what stands at its address in memory. -/
def qinitBuildClientHello (sni scid : Bytes) (stream : ℕ → U8) : Option (Bytes × (ℕ → U8)) :=
  let snilen := sniLength sni
  if snilen > 255 ∨ snilen = 0 then none
  else
    let (pub, stream) := draw 32 stream
    let (random, stream) := draw 32 stream
    some (clientHello (sni.take snilen) scid pub random, stream)

/-! ## Bounds -/

/-- The scratch buffers of `qinit_build_client_hello`, with what is written to each and their
declared sizes. The last one is the buffer of its caller. -/
def scratch (sni scid pub random : Bytes) : List (Bytes × ℕ) :=
  [(sniList sni, 3 + 255), (wrappedSni sni, 2 + 3 + 255), (supportedVersions, 1 + 2),
    (supportedGroups, 2 + 2), (pub, 32), (random, 32), (keyShareInner pub, 2 + 2 + 32),
    (keyShareOuter pub, 2 + (2 + 2 + 32)), (signatureAlgorithms, 2 + 6), (alpnInner, 1 + 2),
    (alpnOuter, 2 + (1 + 2)), (quicTransportParameters scid, 2 + 20),
    (extensionBlock sni scid pub, 512), (helloBody sni scid pub random, 512),
    (clientHello sni scid pub random, 512)]

section Lengths

variable (sni scid pub random : Bytes)

theorem length_extensionBlock (hscid : scid.length = 8) (hpub : pub.length = 32) :
    (extensionBlock sni scid pub).length = sni.length + 101 := by
  simp [extensionBlock, qinitPutExt, qinitPutU16vec, wrappedSni, sniList, supportedVersions,
    qinitPutU8vec, supportedGroups, keyShareOuter, keyShareInner, signatureAlgorithms, alpnOuter,
    alpnInner, quicTransportParameters, hscid, hpub, ascii]

theorem length_helloBody (hscid : scid.length = 8) (hpub : pub.length = 32)
    (hrandom : random.length = 32) :
    (helloBody sni scid pub random).length = sni.length + 148 := by
  simp [helloBody, qinitPutU16vec, qinitPutU8vec, length_extensionBlock sni scid pub hscid hpub,
    hrandom]
  omega

theorem length_clientHello (hscid : scid.length = 8) (hpub : pub.length = 32)
    (hrandom : random.length = 32) :
    (clientHello sni scid pub random).length = sni.length + 152 := by
  simp [clientHello, length_helloBody sni scid pub random hscid hpub hrandom]

/-- Everything fits where it is written, for names of at most 255 bytes. -/
theorem scratch_fits (hscid : scid.length = 8) (hpub : pub.length = 32)
    (hrandom : random.length = 32) (hsni : sni.length ≤ 255) :
    ∀ x ∈ scratch sni scid pub random, x.1.length ≤ x.2 := by
  have hexts := length_extensionBlock sni scid pub hscid hpub
  have hbody := length_helloBody sni scid pub random hscid hpub hrandom
  have hhello := length_clientHello sni scid pub random hscid hpub hrandom
  simp [scratch, hexts, hbody, hhello, wrappedSni, sniList, supportedVersions, qinitPutU16vec,
    qinitPutU8vec, supportedGroups, keyShareOuter, keyShareInner, signatureAlgorithms, alpnOuter,
    alpnInner, quicTransportParameters, hscid, hpub, hrandom, ascii]
  omega

end Lengths

/-! ## Reading back -/

/-- The extensions that the reader knows, and what they carry. -/
inductive Extension
  | serverName (names : List (ℕ × Bytes))
  | supportedVersions (versions : List ℕ)
  | supportedGroups (groups : List ℕ)
  | keyShare (shares : List (ℕ × Bytes))
  | signatureAlgorithms (schemes : List ℕ)
  | applicationProtocols (protocols : List Bytes)
  | transportParameters (parameters : List (ℕ × Bytes))
  | other (etype : ℕ) (data : Bytes)
deriving DecidableEq

structure Hello where
  random : Bytes
  sessionId : Bytes
  cipherSuites : List ℕ
  compressions : List ℕ
  extensions : List Extension
deriving DecidableEq

/-- A value behind its length, an integer of variable length. -/
def varintVec (bs : Bytes) : Option (Bytes × Bytes) :=
  (varint bs).bind fun (n, rest) => takeBytes n rest

theorem varintVec_put {body : Bytes} (h : body.length < 2 ^ 62) (rest : Bytes) :
    varintVec (qinitPutVarint body.length ++ body ++ rest) = some (body, rest) := by
  rw [varintVec, List.append_assoc, varint_qinitPutVarint h, Option.bind_some]
  exact takeBytes_append body rest

/-- What an extension carries. All of its bytes must be used. -/
def readExtension (etype : ℕ) (data : Bytes) : Option Extension :=
  if etype = 0x0000 then (vecOf 2 (pair (number 1) (vec 2)) data).map .serverName
  else if etype = 0x002b then (vecOf 1 (number 2) data).map .supportedVersions
  else if etype = 0x000a then (vecOf 2 (number 2) data).map .supportedGroups
  else if etype = 0x0033 then (vecOf 2 (pair (number 2) (vec 2)) data).map .keyShare
  else if etype = 0x000d then (vecOf 2 (number 2) data).map .signatureAlgorithms
  else if etype = 0x0010 then (vecOf 2 (vec 1) data).map .applicationProtocols
  else if etype = 0x0039 then (items (pair varint varintVec) data).map .transportParameters
  else some (.other etype data)

/-- The body of a ClientHello. -/
def readBody (bs : Bytes) : Option Hello := do
  let (version, bs) ← number 2 bs
  guard (version = 0x0303)
  let (random, bs) ← takeBytes 32 bs
  let (sessionId, bs) ← vec 1 bs
  let (cipherSuites, bs) ← vec 2 bs
  let (compressions, bs) ← vec 1 bs
  let extensions ← vecOf 2 (pair (number 2) (vec 2)) bs
  return {
    random, sessionId
    cipherSuites := ← items (number 2) cipherSuites
    compressions := ← items (number 1) compressions
    extensions := ← extensions.mapM fun (etype, data) => readExtension etype data }

/-- A handshake message that is a ClientHello. -/
def readHello (bs : Bytes) : Option Hello :=
  (number 1 bs).bind fun (type, bs) =>
    if type = 1 then (exactly (vec 3) bs).bind readBody else none

/-- All names, protocols and transport parameters that a ClientHello carries. -/
def Hello.serverNames (hello : Hello) : List (ℕ × Bytes) :=
  hello.extensions.flatMap fun | .serverName names => names | _ => []

def Hello.protocols (hello : Hello) : List Bytes :=
  hello.extensions.flatMap fun | .applicationProtocols protocols => protocols | _ => []

def Hello.parameters (hello : Hello) : List (ℕ × Bytes) :=
  hello.extensions.flatMap fun | .transportParameters parameters => parameters | _ => []

/-- What `qinit_build_client_hello` says. -/
def helloOf (sni scid pub random : Bytes) : Hello where
  random := random
  sessionId := []
  cipherSuites := [0x1301, 0x1302, 0x1303]
  compressions := [0]
  extensions := [.serverName [(0, sni)], .supportedVersions [0x0304], .supportedGroups [0x001d],
    .keyShare [(0x001d, pub)], .signatureAlgorithms [0x0403, 0x0804, 0x0401],
    .applicationProtocols [ascii "h3"], .transportParameters [(0x0f, scid)]]

/-- The extensions as types and data. -/
def rawExtensions (sni scid pub : Bytes) : List (ℕ × Bytes) :=
  [(0x0000, wrappedSni sni), (0x002b, supportedVersions), (0x000a, supportedGroups),
    (0x0033, keyShareOuter pub), (0x000d, signatureAlgorithms), (0x0010, alpnOuter),
    (0x0039, quicTransportParameters scid)]

section Reading

variable {sni scid pub random : Bytes}

theorem readExtension_serverName (h : sni.length ≤ 255) :
    readExtension 0x0000 (wrappedSni sni) = some (.serverName [(0, sni)]) := by
  have hlist : sniList sni = be 1 0 ++ putVec 2 sni := by
    simp [sniList, be, putVec, Nat.shiftRight_eq_div_pow]
  have hitems : items (pair (number 1) (vec 2)) (sniList sni) = some [(0, sni)] := by
    rw [hlist]
    apply items_single (by simp [be])
    exact pair_append (number_be (by decide)) (vec_putVec (by omega))
  have hlen : (sniList sni).length < 256 ^ 2 := by
    simp [sniList]
    omega
  rw [wrappedSni, qinitPutU16vec_eq]
  simp [readExtension, vecOf_putVec hlen hitems]

theorem readExtension_keyShare (h : pub.length = 32) :
    readExtension 0x0033 (keyShareOuter pub) = some (.keyShare [(0x001d, pub)]) := by
  have hinner : keyShareInner pub = be 2 0x001d ++ putVec 2 pub := by
    simp [keyShareInner, qinitPutU16vec_eq, be]
  have hitems : items (pair (number 2) (vec 2)) (keyShareInner pub) = some [(0x001d, pub)] := by
    rw [hinner]
    apply items_single (by simp [be])
    exact pair_append (number_be (by decide)) (vec_putVec (by omega))
  have hlen : (keyShareInner pub).length < 256 ^ 2 := by
    simp [hinner, h]
  rw [keyShareOuter, qinitPutU16vec_eq]
  simp [readExtension, vecOf_putVec hlen hitems]

theorem readExtension_transportParameters (h : scid.length = 8) :
    readExtension 0x0039 (quicTransportParameters scid) =
      some (.transportParameters [(0x0f, scid)]) := by
  have hparams : quicTransportParameters scid =
      qinitPutVarint 0x0f ++ (qinitPutVarint scid.length ++ scid) := by
    simp [quicTransportParameters, qinitPutVarint, h]
  have hitems : items (pair varint varintVec) (quicTransportParameters scid) =
      some [(0x0f, scid)] := by
    rw [hparams]
    apply items_single (by simp [qinitPutVarint])
    exact pair_append (varint_qinitPutVarint (by decide)) (varintVec_put (by omega))
  simp [readExtension, hitems]

/-- Each extension says what it should. -/
theorem mapM_readExtension (hsni : sni.length ≤ 255) (hscid : scid.length = 8)
    (hpub : pub.length = 32) :
    ((rawExtensions sni scid pub).mapM fun (etype, data) => readExtension etype data) =
      some (helloOf sni scid pub random).extensions := by
  -- the other four are fixed
  have hversions : readExtension 0x002b supportedVersions =
      some (.supportedVersions [0x0304]) := by decide
  have hgroups : readExtension 0x000a supportedGroups = some (.supportedGroups [0x001d]) := by decide
  have hschemes : readExtension 0x000d signatureAlgorithms =
      some (.signatureAlgorithms [0x0403, 0x0804, 0x0401]) := by decide
  have halpn : readExtension 0x0010 alpnOuter =
      some (.applicationProtocols [ascii "h3"]) := by decide
  simp only [rawExtensions, List.mapM_cons, List.mapM_nil, readExtension_serverName hsni, hversions,
    hgroups, readExtension_keyShare hpub, hschemes, halpn,
    readExtension_transportParameters hscid]
  rfl

theorem length_rawExtensions (hsni : sni.length ≤ 255) (hscid : scid.length = 8)
    (hpub : pub.length = 32) :
    ∀ x ∈ rawExtensions sni scid pub, x.1 < 256 ^ 2 ∧ x.2.length < 256 ^ 2 := by
  simp [rawExtensions, wrappedSni, sniList, supportedVersions, qinitPutU16vec, qinitPutU8vec,
    supportedGroups, keyShareOuter, keyShareInner, signatureAlgorithms, alpnOuter, alpnInner,
    quicTransportParameters, hscid, hpub, ascii]
  omega

theorem items_extensionBlock (hsni : sni.length ≤ 255) (hscid : scid.length = 8)
    (hpub : pub.length = 32) :
    items (pair (number 2) (vec 2)) (extensionBlock sni scid pub) =
      some (rawExtensions sni scid pub) := by
  have hblock : extensionBlock sni scid pub =
      (rawExtensions sni scid pub).flatMap fun x => be 2 x.1 ++ putVec 2 x.2 := by
    simp only [extensionBlock, qinitPutExt_eq, rawExtensions, List.flatMap_cons, List.flatMap_nil,
      List.append_nil, List.append_assoc]
  rw [hblock]
  apply items_flatMap
  · intro x _
    simp [be]
  · intro x hx
    have hfit := length_rawExtensions hsni hscid hpub x hx
    exact pair_append (number_be hfit.1) (vec_putVec hfit.2)

theorem readBody_helloBody (hsni : sni.length ≤ 255) (hscid : scid.length = 8)
    (hpub : pub.length = 32) (hrandom : random.length = 32) :
    readBody (helloBody sni scid pub random) = some (helloOf sni scid pub random) := by
  have hlen : (extensionBlock sni scid pub).length < 256 ^ 2 := by
    rw [length_extensionBlock sni scid pub hscid hpub]
    omega
  have hbody : helloBody sni scid pub random = be 2 0x0303 ++ (random ++ (putVec 1 [] ++
      (putVec 2 [0x13, 0x01, 0x13, 0x02, 0x13, 0x03] ++ (putVec 1 [0x00] ++
        putVec 2 (extensionBlock sni scid pub))))) := by
    simp only [helloBody, qinitPutU8vec_eq, qinitPutU16vec_eq, List.append_assoc]
    rfl
  have hrand : ∀ rest, takeBytes 32 (random ++ rest) = some (random, rest) := by
    intro rest
    rw [← hrandom]
    exact takeBytes_append random rest
  have hsuites : items (number 2) [0x13, 0x01, 0x13, 0x02, 0x13, 0x03] =
      some [0x1301, 0x1302, 0x1303] := rfl
  have hcomp : items (number 1) [0x00] = some [0] := rfl
  rw [hbody, readBody]
  -- the fields, one after the other
  refine (bind_of_eq (number_be (by decide) _) _).trans ?_
  refine (bind_of_eq (guard_of rfl) _).trans ?_
  refine (bind_of_eq (hrand _) _).trans ?_
  refine (bind_of_eq (vec_putVec (by decide) _) _).trans ?_
  refine (bind_of_eq (vec_putVec (by decide) _) _).trans ?_
  refine (bind_of_eq (vec_putVec (by decide) _) _).trans ?_
  refine (bind_of_eq (vecOf_putVec hlen (items_extensionBlock hsni hscid hpub)) _).trans ?_
  -- what the vectors hold
  refine (bind_of_eq hsuites _).trans ?_
  refine (bind_of_eq hcomp _).trans ?_
  exact bind_of_eq (@mapM_readExtension sni scid pub random hsni hscid hpub) _

/-- The message is a ClientHello, and it says what it was built from. -/
theorem readHello_clientHello (hsni : sni.length ≤ 255) (hscid : scid.length = 8)
    (hpub : pub.length = 32) (hrandom : random.length = 32) :
    readHello (clientHello sni scid pub random) = some (helloOf sni scid pub random) := by
  have hlen : (helloBody sni scid pub random).length < 256 ^ 3 := by
    rw [length_helloBody sni scid pub random hscid hpub hrandom]
    omega
  have hmsg : clientHello sni scid pub random =
      be 1 1 ++ putVec 3 (helloBody sni scid pub random) := by
    simp [clientHello, putVec, be, Nat.shiftRight_eq_div_pow]
  rw [hmsg, readHello, number_be (by decide), Option.bind_some]
  show (if 1 = 1 then (exactly (vec 3) (putVec 3 (helloBody sni scid pub random))).bind readBody
    else none) = _
  rw [if_pos rfl, exactly_vec_putVec hlen, Option.bind_some]
  exact readBody_helloBody hsni hscid hpub hrandom

end Reading

end AmneziaWg.Qinit
