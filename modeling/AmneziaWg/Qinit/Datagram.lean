import AmneziaWg.Lib.Splice
import AmneziaWg.Qinit.ClientHello
import AmneziaWg.Qinit.Seal
import AmneziaWg.Qinit.Sha256

/-!
# The Initial datagram

`qinit_build` writes a QUIC Initial of 1200 bytes: a long header, a CRYPTO frame with the
ClientHello, padding, the tag, and at last the header protection over the first byte and the
packet number. All of it is derived from public values, so anyone on the path can undo it.

* **Model**: `qinitBuild`, on a buffer and a stream of random bytes. The block cipher is a
  parameter.
* **Layout**: `qinitBuild_eq`, the buffer after the call.
* **Observer**: `observe` reads a datagram from its first byte on, with no offset known in
  advance; `qinitBuild_observed`.
-/

namespace AmneziaWg.Qinit

open Linux Wire Gcm Splice

/-- AES-128: the key, then the block. -/
abbrev Cipher := Bytes → Block → Block

/-! ## Model layer -/

/-- The header in front of the packet number. -/
def headerStart (dcid scid : Bytes) : Bytes :=
  [0xC3, 0x00, 0x00, 0x00, 0x01, 8] ++ dcid ++ [8] ++ scid ++ [0x00] ++ qinitPutVarint 1174

/-- The CRYPTO frame. -/
def cryptoFrame (hello : Bytes) : Bytes :=
  qinitPutVarint 0x06 ++ qinitPutVarint 0 ++ qinitPutVarint hello.length ++ hello

/-- `nonce`: the packet number is added to the last four bytes. -/
def nonceOf (iv pn : Bytes) : Bytes :=
  iv.take 8 ++ [iv.getD 8 0 ^^^ pn.getD 0 0, iv.getD 9 0 ^^^ pn.getD 1 0,
    iv.getD 10 0 ^^^ pn.getD 2 0, iv.getD 11 0 ^^^ pn.getD 3 0]

/-- `buf[i] ^= m`. -/
def xorByte (i : ℕ) (m : U8) (buf : Bytes) : Bytes := overwrite i [buf.getD i 0 ^^^ m] buf

/-- The part of `qinit_build` that adds the header protection. -/
def protectHeader (cipher : Block → Block) (pnOffset : ℕ) (buf : Bytes) : Bytes :=
  let sample := slice (pnOffset + 4) 16 buf
  let mask := cipher (block sample)
  let buf := xorByte 0 (mask 0 &&& 0x0f) buf
  let buf := xorByte (pnOffset + 0) (mask 1) buf
  let buf := xorByte (pnOffset + 1) (mask 2) buf
  let buf := xorByte (pnOffset + 2) (mask 3) buf
  xorByte (pnOffset + 3) (mask 4) buf

/-- The part of `qinit_build` behind the ClientHello. -/
def assemble (aes : Cipher) (dcid scid pn hello buf : Bytes) : Bytes :=
  let keys := qinitDeriveInitialKeys dcid
  let start := headerStart dcid scid
  let buf := overwrite 0 (start ++ pn) buf
  let frame := cryptoFrame hello
  let cflen := frame.length
  let buf := overwrite 30 frame buf
  let buf :=
    if cflen < 1154 then overwrite (30 + cflen) (List.replicate (1154 - cflen) 0) buf else buf
  -- sealing in place: each byte is read before it is written
  let buf := overwrite 30
    (qinitAes128GcmSeal (aes keys.key) (nonceOf keys.iv pn) (slice 0 30 buf) (slice 30 1154 buf))
    buf
  protectHeader (aes keys.hp) start.length buf

/-- `qinit_build`: its result, the buffer, and what is left of the random stream. -/
def qinitBuild (aes : Cipher) (buf sni : Bytes) (stream : ℕ → U8) : Int × Bytes × (ℕ → U8) :=
  let (dcid, stream) := draw 8 stream
  let (scid, stream) := draw 8 stream
  let (pn, stream) := draw 4 stream
  match qinitBuildClientHello sni scid stream with
  | none => (-22, buf, stream)
  | some r => (0, assemble aes dcid scid pn r.1 buf, r.2)

/-! ## Layout -/

/-- The header between its first byte and the packet number. -/
def headerRest (dcid scid : Bytes) : Bytes :=
  [0x00, 0x00, 0x00, 0x01, 8] ++ dcid ++ [8] ++ scid ++ [0x00] ++ qinitPutVarint 1174

/-- The frame and the padding. -/
def plaintextOf (hello : Bytes) : Bytes :=
  cryptoFrame hello ++ List.replicate (1154 - (cryptoFrame hello).length) 0

/-- Ciphertext and tag. -/
def sealedOf (aes : Cipher) (dcid scid pn hello : Bytes) : Bytes :=
  let keys := qinitDeriveInitialKeys dcid
  qinitAes128GcmSeal (aes keys.key) (nonceOf keys.iv pn) (headerStart dcid scid ++ pn)
    (plaintextOf hello)

/-- The mask of the header protection. -/
def maskOf (aes : Cipher) (dcid payload : Bytes) : Block :=
  aes (qinitDeriveInitialKeys dcid).hp (block (payload.take 16))

/-- The packet number under the mask. -/
def maskedNumber (mask : Block) (pn : Bytes) : Bytes :=
  [pn.getD 0 0 ^^^ mask 1, pn.getD 1 0 ^^^ mask 2, pn.getD 2 0 ^^^ mask 3, pn.getD 3 0 ^^^ mask 4]

/-- The header with its protection. -/
def protectedHeader (mask : Block) (dcid scid pn : Bytes) : Bytes :=
  (0xC3 ^^^ (mask 0 &&& 0x0f)) :: headerRest dcid scid ++ maskedNumber mask pn

/-- The datagram. -/
def datagramOf (aes : Cipher) (dcid scid pn hello : Bytes) : Bytes :=
  let payload := sealedOf aes dcid scid pn hello
  protectedHeader (maskOf aes dcid payload) dcid scid pn ++ payload

section Layout

variable {dcid scid pn hello buf : Bytes}

theorem xorByte_zero (m b : U8) (bs : Bytes) : xorByte 0 m (b :: bs) = (b ^^^ m) :: bs := by
  simp [xorByte, overwrite]

theorem xorByte_append {xs ys : Bytes} {k i : ℕ} (m : U8) (h : xs.length = k) :
    xorByte (k + i) m (xs ++ ys) = xs ++ xorByte i m ys := by
  have hget : (xs ++ ys).getD (k + i) 0 = ys.getD i 0 := by
    rw [List.getD_append_right _ _ _ _ (by omega)]
    congr 1
    omega
  rw [xorByte, xorByte, hget, overwrite_append h]

theorem length_headerRest (hdcid : dcid.length = 8) (hscid : scid.length = 8) :
    (headerRest dcid scid).length = 25 := by
  simp [headerRest, qinitPutVarint, hdcid, hscid]

theorem length_headerStart (hdcid : dcid.length = 8) (hscid : scid.length = 8) :
    (headerStart dcid scid).length = 26 :=
  congrArg (· + 1) (length_headerRest hdcid hscid)

/-- The frame needs at most four bytes for its header. -/
theorem length_cryptoFrame (h : hello.length ≤ 407) : (cryptoFrame hello).length ≤ 411 := by
  have hlength : (qinitPutVarint hello.length).length ≤ 2 := by
    unfold qinitPutVarint
    split
    · simp
    · rw [if_pos (by omega)]
      simp
  have htype : (qinitPutVarint 0x06).length = 1 := rfl
  have hoffset : (qinitPutVarint 0).length = 1 := rfl
  simp only [cryptoFrame, List.length_append, htype, hoffset]
  omega

theorem length_plaintextOf (h : hello.length ≤ 407) : (plaintextOf hello).length = 1154 := by
  have hframe := length_cryptoFrame h
  rw [plaintextOf, List.length_append, List.length_replicate]
  omega

theorem length_nonceOf {iv : Bytes} (h : iv.length = 12) : (nonceOf iv pn).length = 12 := by
  simp [nonceOf, h]

theorem length_sealedOf (aes : Cipher) (h : hello.length ≤ 407) :
    (sealedOf aes dcid scid pn hello).length = 1170 := by
  rw [sealedOf, length_qinitAes128GcmSeal _ (length_nonceOf (length_iv dcid)), length_plaintextOf h]

/-- The buffer before it is sealed. -/
theorem buffer_filled (hdcid : dcid.length = 8) (hscid : scid.length = 8) (hpn : pn.length = 4)
    (h : hello.length ≤ 407) :
    overwrite (30 + (cryptoFrame hello).length)
        (List.replicate (1154 - (cryptoFrame hello).length) 0)
        (overwrite 30 (cryptoFrame hello) (overwrite 0 (headerStart dcid scid ++ pn) buf)) =
      (headerStart dcid scid ++ pn) ++ (plaintextOf hello ++ buf.drop 1184) := by
  have hhead : (headerStart dcid scid ++ pn).length = 30 := by
    rw [List.length_append, length_headerStart hdcid hscid, hpn]
  have hframe := length_cryptoFrame h
  have hfirst : overwrite 30 (cryptoFrame hello) (overwrite 0 (headerStart dcid scid ++ pn) buf) =
      (headerStart dcid scid ++ pn) ++
        (cryptoFrame hello ++ buf.drop (30 + (cryptoFrame hello).length)) := by
    rw [overwrite_zero, hhead, overwrite_behind hhead, List.drop_drop]
  have hend : 30 + (cryptoFrame hello).length + (1154 - (cryptoFrame hello).length) = 1184 := by
    omega
  rw [hfirst, overwrite_append hhead, overwrite_behind rfl, List.length_replicate, List.drop_drop,
    hend]
  simp only [plaintextOf, List.append_assoc]

/-- Header protection, byte by byte. -/
theorem protectHeader_eq (cipher : Block → Block) {payload rest : Bytes}
    (hdcid : dcid.length = 8) (hscid : scid.length = 8) (hpn : pn.length = 4)
    (hpayload : 16 ≤ payload.length) :
    protectHeader cipher 26 ((headerStart dcid scid ++ pn) ++ (payload ++ rest)) =
      protectedHeader (cipher (block (payload.take 16))) dcid scid pn ++ (payload ++ rest) := by
  have hhead : (headerStart dcid scid ++ pn).length = 30 := by
    rw [List.length_append, length_headerStart hdcid hscid, hpn]
  have hsample : slice (26 + 4) 16 ((headerStart dcid scid ++ pn) ++ (payload ++ rest)) =
      payload.take 16 := by
    rw [slice_behind hhead, List.take_append_of_le_length hpayload]
  obtain ⟨p0, p1, p2, p3, rfl⟩ : ∃ p0 p1 p2 p3, pn = [p0, p1, p2, p3] := by
    match pn, hpn with
    | [p0, p1, p2, p3], _ => exact ⟨p0, p1, p2, p3, rfl⟩
  simp only [protectHeader, hsample]
  generalize cipher (block (payload.take 16)) = mask
  have hfirst : xorByte 0 (mask 0 &&& 0x0f)
      ((headerStart dcid scid ++ [p0, p1, p2, p3]) ++ (payload ++ rest)) =
      ((0xC3 ^^^ (mask 0 &&& 0x0f)) :: headerRest dcid scid) ++
        (p0 :: p1 :: p2 :: p3 :: (payload ++ rest)) := by
    rw [List.append_assoc]
    exact xorByte_zero ..
  have hlen : ((0xC3 ^^^ (mask 0 &&& 0x0f)) :: headerRest dcid scid).length = 26 :=
    congrArg (· + 1) (length_headerRest hdcid hscid)
  simp only [hfirst, xorByte_append _ hlen, xorByte_zero]
  -- the bytes of the packet number that are done
  have hone : ∀ (m a : U8) (bs : Bytes) (i : ℕ),
      xorByte (i + 1) m (a :: bs) = a :: xorByte i m bs := by
    intro m a bs i
    rw [Nat.add_comm]
    exact @xorByte_append [a] bs 1 i m rfl
  simp only [hone, xorByte_zero]
  simp [protectedHeader, maskedNumber]

theorem assemble_eq (aes : Cipher) (hdcid : dcid.length = 8) (hscid : scid.length = 8)
    (hpn : pn.length = 4) (h : hello.length ≤ 407) :
    assemble aes dcid scid pn hello buf = datagramOf aes dcid scid pn hello ++ buf.drop 1200 := by
  have hhead : (headerStart dcid scid ++ pn).length = 30 := by
    rw [List.length_append, length_headerStart hdcid hscid, hpn]
  have hshort : (cryptoFrame hello).length < 1154 := by
    have := length_cryptoFrame h
    omega
  have hplain : slice 30 1154 ((headerStart dcid scid ++ pn) ++ (plaintextOf hello ++ buf.drop 1184)) =
      plaintextOf hello := by
    rw [slice_behind hhead, List.take_left' (length_plaintextOf h)]
  -- the tag goes behind the plaintext, which the ciphertext replaces
  have hseal : overwrite 30 (sealedOf aes dcid scid pn hello)
      ((headerStart dcid scid ++ pn) ++ (plaintextOf hello ++ buf.drop 1184)) =
      (headerStart dcid scid ++ pn) ++ (sealedOf aes dcid scid pn hello ++ buf.drop 1200) := by
    rw [overwrite_behind hhead, length_sealedOf aes h, List.drop_append, length_plaintextOf h,
      List.drop_eq_nil_of_le (by rw [length_plaintextOf h]; decide), List.nil_append, List.drop_drop]
  have hsample : 16 ≤ (sealedOf aes dcid scid pn hello).length := by
    rw [length_sealedOf aes h]
    decide
  simp only [assemble, if_pos hshort, buffer_filled hdcid hscid hpn h, slice_zero hhead, hplain]
  rw [← sealedOf, hseal, length_headerStart hdcid hscid, protectHeader_eq _ hdcid hscid hpn hsample,
    datagramOf, maskOf, List.append_assoc]

/-- Everything that is drawn, in order. -/
structure Draws where
  dcid : Bytes
  scid : Bytes
  pn : Bytes
  pub : Bytes
  random : Bytes
  rest : ℕ → U8

def draws (stream : ℕ → U8) : Draws :=
  let (dcid, stream) := draw 8 stream
  let (scid, stream) := draw 8 stream
  let (pn, stream) := draw 4 stream
  let (pub, stream) := draw 32 stream
  let (random, rest) := draw 32 stream
  { dcid, scid, pn, pub, random, rest }

theorem length_draws (stream : ℕ → U8) :
    (draws stream).dcid.length = 8 ∧ (draws stream).scid.length = 8 ∧
      (draws stream).pn.length = 4 ∧ (draws stream).pub.length = 32 ∧
      (draws stream).random.length = 32 := by
  simp [draws, draw]

theorem sniLength_eq {sni : Bytes} (tail : Bytes) (h : 0 ∉ sni) :
    sniLength (sni ++ 0 :: tail) = sni.length := by
  have hname : ∀ b ∈ sni, decide (b ≠ 0) = true := by
    intro b hb
    exact decide_eq_true fun hzero => h (hzero ▸ hb)
  rw [sniLength, List.takeWhile_append_of_pos hname]
  simp

/-- The ClientHello for a stream. -/
def helloBytes (sni : Bytes) (stream : ℕ → U8) : Bytes :=
  let r := draws stream
  clientHello sni r.scid r.pub r.random

theorem length_helloBytes {sni : Bytes} (stream : ℕ → U8) (h : sni.length ≤ 255) :
    (helloBytes sni stream).length ≤ 407 := by
  obtain ⟨-, hscid, -, hpub, hrandom⟩ := length_draws stream
  rw [helloBytes, length_clientHello _ _ _ _ hscid hpub hrandom]
  omega

/-- The stream where the ClientHello begins to draw. -/
def afterNumber (stream : ℕ → U8) : ℕ → U8 := (draw 4 (draw 8 (draw 8 stream).2).2).2

theorem qinitBuild_cases (aes : Cipher) (buf sni : Bytes) (stream : ℕ → U8) :
    qinitBuild aes buf sni stream =
      match qinitBuildClientHello sni (draws stream).scid (afterNumber stream) with
      | none => (-22, buf, afterNumber stream)
      | some x => (0, assemble aes (draws stream).dcid (draws stream).scid (draws stream).pn x.1 buf,
          x.2) := rfl

/-- The buffer after `qinit_build`: the datagram, and behind it what was there. -/
theorem qinitBuild_eq (aes : Cipher) (buf : Bytes) {sni : Bytes} (tail : Bytes) (stream : ℕ → U8)
    (hnul : 0 ∉ sni) (hpos : 1 ≤ sni.length) (hmax : sni.length ≤ 255) :
    let r := draws stream
    qinitBuild aes buf (sni ++ 0 :: tail) stream =
      (0, datagramOf aes r.dcid r.scid r.pn (helloBytes sni stream) ++ buf.drop 1200, r.rest) := by
  intro r
  obtain ⟨hdcid, hscid, hpn, -, -⟩ := length_draws stream
  have hbuild : qinitBuildClientHello (sni ++ 0 :: tail) r.scid (afterNumber stream) =
      some (helloBytes sni stream, r.rest) := by
    have hname : (sni ++ 0 :: tail).take sni.length = sni := List.take_left
    rw [qinitBuildClientHello, sniLength_eq tail hnul]
    simp only [hname]
    rw [if_neg (by omega)]
    rfl
  rw [qinitBuild_cases, hbuild, ← assemble_eq aes hdcid hscid hpn (length_helloBytes stream hmax)]

/-- Names that are too short or too long. -/
theorem qinitBuild_rejected (aes : Cipher) (buf : Bytes) {sni : Bytes} (tail : Bytes)
    (stream : ℕ → U8) (hnul : 0 ∉ sni) (hlen : sni.length = 0 ∨ 255 < sni.length) :
    qinitBuild aes buf (sni ++ 0 :: tail) stream = (-22, buf, afterNumber stream) := by
  have hnone : qinitBuildClientHello (sni ++ 0 :: tail) (draws stream).scid (afterNumber stream) =
      none := by
    rw [qinitBuildClientHello, sniLength_eq tail hnul]
    exact if_pos (by omega)
  rw [qinitBuild_cases, hnone]

theorem length_protectedHeader (mask : Block) (hdcid : dcid.length = 8) (hscid : scid.length = 8) :
    (protectedHeader mask dcid scid pn).length = 30 := by
  simp [protectedHeader, maskedNumber, length_headerRest hdcid hscid]

theorem length_datagramOf (aes : Cipher) (hdcid : dcid.length = 8) (hscid : scid.length = 8)
    (h : hello.length ≤ 407) : (datagramOf aes dcid scid pn hello).length = 1200 := by
  rw [datagramOf, List.length_append, length_protectedHeader _ hdcid hscid, length_sealedOf aes h]

/-- The connection IDs stand in the clear. -/
theorem slice_dcid (mask : Block) (payload : Bytes) (hdcid : dcid.length = 8) :
    slice 6 8 (protectedHeader mask dcid scid pn ++ payload) = dcid := by
  have hlayout : protectedHeader mask dcid scid pn ++ payload =
      [0xC3 ^^^ (mask 0 &&& 0x0f), 0x00, 0x00, 0x00, 0x01, 8] ++ (dcid ++ ([8] ++ scid ++ [0x00] ++
        qinitPutVarint 1174 ++ maskedNumber mask pn ++ payload)) := by
    simp [protectedHeader, headerRest]
  have hlen : [0xC3 ^^^ (mask 0 &&& 0x0f), 0x00, 0x00, 0x00, 0x01, 8].length = 6 := rfl
  rw [hlayout, slice_behind hlen, List.take_left' hdcid]

theorem slice_scid (mask : Block) (payload : Bytes) (hdcid : dcid.length = 8)
    (hscid : scid.length = 8) :
    slice 15 8 (protectedHeader mask dcid scid pn ++ payload) = scid := by
  have hlayout : protectedHeader mask dcid scid pn ++ payload =
      ([0xC3 ^^^ (mask 0 &&& 0x0f), 0x00, 0x00, 0x00, 0x01, 8] ++ dcid ++ [8]) ++ (scid ++ ([0x00] ++
        qinitPutVarint 1174 ++ maskedNumber mask pn ++ payload)) := by
    simp [protectedHeader, headerRest]
  have hlen : ([0xC3 ^^^ (mask 0 &&& 0x0f), 0x00, 0x00, 0x00, 0x01, 8] ++ dcid ++ [8]).length = 15 := by
    simp [hdcid]
  rw [hlayout, slice_behind hlen, List.take_left' hscid]

end Layout

/-! ## Observer -/

/-- What someone on the path reads. -/
structure Observed where
  dcid : Bytes
  scid : Bytes
  token : Bytes
  /-- Where the sample for the header protection lies. -/
  sampleOffset : ℕ
  packetNumber : Bytes
  /-- The header without its protection. -/
  header : Bytes
  /-- What is opened. -/
  payload : Bytes
  hello : Hello
deriving DecidableEq

/-- The fields of a long header that are not protected, and the rest of the datagram. -/
def readLongHeader (bs : Bytes) : Option ((U8 × Bytes × Bytes × Bytes) × Bytes) := do
  let (first, bs) ← takeBytes 1 bs
  guard (first.getD 0 0 &&& 0xf0 = 0xc0)
  let (version, bs) ← number 4 bs
  guard (version = 1)
  let (dcid, bs) ← vec 1 bs
  let (scid, bs) ← vec 1 bs
  let (token, bs) ← varintVec bs
  let (length, bs) ← varint bs
  guard (length = bs.length)
  return ((first.getD 0 0, dcid, scid, token), bs)

/-- One CRYPTO frame at offset 0, and nothing but PADDING behind it. -/
def readCrypto (bs : Bytes) : Option Bytes := do
  let (type, bs) ← varint bs
  guard (type = 0x06)
  let (offset, bs) ← varint bs
  guard (offset = 0)
  let (hello, padding) ← varintVec bs
  guard (∀ b ∈ padding, b = 0)
  return hello

/-- Removes the header protection, opens the packet and reads what it holds. -/
def observe (aes : Cipher) (datagram : Bytes) : Option Observed := do
  let ((first, dcid, scid, token), rest) ← readLongHeader datagram
  let keys := qinitDeriveInitialKeys dcid
  let pnOffset := datagram.length - rest.length
  let sampleOffset := pnOffset + 4
  let mask := bytes (aes keys.hp (block (slice sampleOffset 16 datagram)))
  let first := first ^^^ (mask.getD 0 0 &&& 0x0f)
  -- two reserved bits, then the length of the packet number
  guard (first &&& 0x0c = 0)
  let pnLength := (first &&& 0x03).toNat + 1
  let packetNumber := List.zipWith (· ^^^ ·) (rest.take pnLength) (mask.drop 1)
  let header := first :: slice 1 (pnOffset - 1) datagram ++ packetNumber
  let nonce := List.zipWith (· ^^^ ·) keys.iv (List.replicate (12 - pnLength) 0 ++ packetNumber)
  let payload := rest.drop pnLength
  let plaintext ← decrypt (aes keys.key) nonce header payload
  let hello ← readHello (← readCrypto plaintext)
  return { dcid, scid, token, sampleOffset, packetNumber, header, payload, hello }

section Reading

variable {dcid scid pn payload : Bytes}

theorem readLongHeader_protectedHeader (mask : Block) (hdcid : dcid.length = 8)
    (hscid : scid.length = 8) (hpayload : payload.length = 1170) :
    readLongHeader (protectedHeader mask dcid scid pn ++ payload) =
      some ((0xC3 ^^^ (mask 0 &&& 0x0f), dcid, scid, []), maskedNumber mask pn ++ payload) := by
  have hlayout : protectedHeader mask dcid scid pn ++ payload =
      [0xC3 ^^^ (mask 0 &&& 0x0f)] ++ (be 4 1 ++ (putVec 1 dcid ++ (putVec 1 scid ++
        ((qinitPutVarint ([] : Bytes).length ++ [] ++ (qinitPutVarint 1174 ++
          (maskedNumber mask pn ++ payload))))))) := by
    simp [protectedHeader, headerRest, putVec, be, hdcid, hscid, maskedNumber, qinitPutVarint]
  -- the protection covers the lower half of the first byte
  have hform : ∀ m : U8, (0xC3 ^^^ (m &&& 0x0f)) &&& 0xf0 = 0xc0 := by decide
  have hlength : 1174 = (maskedNumber mask pn ++ payload).length := by
    simp [maskedNumber, hpayload]
  rw [hlayout, readLongHeader]
  refine (bind_of_eq (takeBytes_append [_] _) _).trans ?_
  refine (bind_of_eq (guard_of (hform (mask 0))) _).trans ?_
  refine (bind_of_eq (number_be (by decide) _) _).trans ?_
  refine (bind_of_eq (guard_of rfl) _).trans ?_
  refine (bind_of_eq (vec_putVec (by omega) _) _).trans ?_
  refine (bind_of_eq (vec_putVec (by omega) _) _).trans ?_
  refine (bind_of_eq (varintVec_put (by decide) _) _).trans ?_
  refine (bind_of_eq (varint_qinitPutVarint (by decide) _) _).trans ?_
  exact bind_of_eq (guard_of hlength) _

theorem readCrypto_plaintextOf {hello : Bytes} (h : hello.length ≤ 407) :
    readCrypto (plaintextOf hello) = some hello := by
  have hlayout : plaintextOf hello = qinitPutVarint 0x06 ++ (qinitPutVarint 0 ++
      (qinitPutVarint hello.length ++ hello ++
        List.replicate (1154 - (cryptoFrame hello).length) 0)) := by
    rw [plaintextOf]
    nth_rewrite 1 [cryptoFrame]
    simp only [List.append_assoc]
  have hpadding : ∀ n, ∀ b ∈ List.replicate n (0 : U8), b = 0 := by
    intro n b hb
    exact List.eq_of_mem_replicate hb
  rw [hlayout, readCrypto]
  refine (bind_of_eq (varint_qinitPutVarint (by decide) _) _).trans ?_
  refine (bind_of_eq (guard_of rfl) _).trans ?_
  refine (bind_of_eq (varint_qinitPutVarint (by decide) _) _).trans ?_
  refine (bind_of_eq (guard_of rfl) _).trans ?_
  refine (bind_of_eq (varintVec_put (by omega) _) _).trans ?_
  exact bind_of_eq (guard_of (hpadding _)) _

theorem nonceOf_eq {iv : Bytes} (hiv : iv.length = 12) (hpn : pn.length = 4) :
    List.zipWith (· ^^^ ·) iv (List.replicate 8 0 ++ pn) = nonceOf iv pn := by
  match iv, hiv, pn, hpn with
  | [i0, i1, i2, i3, i4, i5, i6, i7, i8, i9, i10, i11], _, [p0, p1, p2, p3], _ =>
    simp [nonceOf, List.replicate]

/-- The mask cancels. -/
theorem unmask (mask : Block) (hpn : pn.length = 4) :
    List.zipWith (· ^^^ ·) (maskedNumber mask pn) ((bytes mask).drop 1) = pn := by
  have hcancel : ∀ a b : U8, a ^^^ b ^^^ b = a := by
    intro a b
    rw [BitVec.xor_assoc, BitVec.xor_self, BitVec.xor_zero]
  match pn, hpn with
  | [p0, p1, p2, p3], _ =>
    simp [maskedNumber, bytes, List.ofFn_succ, hcancel]

/-- Whoever sees the datagram learns everything in it. -/
theorem observe_datagramOf (aes : Cipher) {hello : Bytes} {said : Hello} (hdcid : dcid.length = 8)
    (hscid : scid.length = 8) (hpn : pn.length = 4) (h : hello.length ≤ 407)
    (hsaid : readHello hello = some said) :
    observe aes (datagramOf aes dcid scid pn hello) = some {
      dcid, scid
      token := []
      sampleOffset := 30
      packetNumber := pn
      header := headerStart dcid scid ++ pn
      payload := sealedOf aes dcid scid pn hello
      hello := said } := by
  have hpayload := @length_sealedOf dcid scid pn hello aes h
  have hopen : decrypt (aes (qinitDeriveInitialKeys dcid).key)
      (nonceOf (qinitDeriveInitialKeys dcid).iv pn) (0xC3 :: headerRest dcid scid ++ pn)
      (sealedOf aes dcid scid pn hello) = some (plaintextOf hello) :=
    decrypt_qinitAes128GcmSeal _ (length_nonceOf (length_iv dcid)) _ _
  rw [observe, datagramOf]
  generalize hmask : maskOf aes dcid (sealedOf aes dcid scid pn hello) = mask
  generalize sealedOf aes dcid scid pn hello = payload at *
  -- offsets
  have hrest := length_headerRest hdcid hscid
  have hprotected := @length_protectedHeader dcid scid pn mask hdcid hscid
  have hoffset : (protectedHeader mask dcid scid pn ++ payload).length -
      (maskedNumber mask pn ++ payload).length = 26 := by
    simp [hprotected, hpayload, maskedNumber]
  have hsample : block (slice (26 + 4) 16 (protectedHeader mask dcid scid pn ++ payload)) =
      block (payload.take 16) := by
    rw [slice_behind hprotected]
  have hmiddle : slice 1 (26 - 1) (protectedHeader mask dcid scid pn ++ payload) =
      headerRest dcid scid := by
    have hsplit : protectedHeader mask dcid scid pn ++ payload = [0xC3 ^^^ (mask 0 &&& 0x0f)] ++
        (headerRest dcid scid ++ (maskedNumber mask pn ++ payload)) := by
      simp [protectedHeader, maskedNumber]
    rw [hsplit, slice_behind List.length_singleton, List.take_left' hrest]
  -- what the mask hides
  have hfirst : (0xC3 ^^^ (mask 0 &&& 0x0f)) ^^^ ((bytes mask).getD 0 0 &&& 0x0f) = 0xC3 := by
    have hzero : (bytes mask).getD 0 0 = mask 0 := by simp [bytes]
    rw [hzero, BitVec.xor_assoc, BitVec.xor_self, BitVec.xor_zero]
  have hnumber : (maskedNumber mask pn ++ payload).take 4 = maskedNumber mask pn :=
    List.take_left' rfl
  have hbody : (maskedNumber mask pn ++ payload).drop 4 = payload := List.drop_left' rfl
  have hlow : (0xC3 : U8) &&& 0x0c = 0 := by decide
  have hlen : ((0xC3 : U8) &&& 0x03).toNat + 1 = 4 := by decide
  rw [maskOf] at hmask
  simp only [readLongHeader_protectedHeader mask hdcid hscid hpayload, Option.bind_eq_bind,
    Option.bind_some, hoffset, hsample, hmask, hfirst, hlow, guard_true, hlen, hnumber, hbody,
    unmask mask hpn, hmiddle, nonceOf_eq (length_iv dcid) hpn, hopen, readCrypto_plaintextOf h, hsaid]
  rfl

end Reading

/-! ## Round trip -/

/-- The buffers of `qinit_build` and of what it calls, with what is written to each and their
sizes; for the frame it is the room between header and tag. -/
def buildScratch (sni : Bytes) (stream : ℕ → U8) : List (Bytes × ℕ) :=
  let r := draws stream
  let keys := qinitDeriveInitialKeys r.dcid
  [(r.dcid, 8), (r.scid, 8), (r.pn, 4), (keys.key, 16), (keys.iv, 12), (keys.hp, 16),
    (nonceOf keys.iv r.pn, 12), (cryptoFrame (helloBytes sni stream), 1154)] ++
    keyScratch r.dcid ++ scratch sni r.scid r.pub r.random

theorem buildScratch_fits {sni : Bytes} (stream : ℕ → U8) (h : sni.length ≤ 255) :
    ∀ x ∈ buildScratch sni stream, x.1.length ≤ x.2 := by
  obtain ⟨hdcid, hscid, hpn, hpub, hrandom⟩ := length_draws stream
  have hkey : ∀ label len, len ≤ 32 →
      (qinitHkdfExpandLabel (clientSecret (draws stream).dcid) label len).length = len :=
    fun label len => length_qinitHkdfExpandLabel _ label
  have hframe := length_cryptoFrame (length_helloBytes stream h)
  have hnonce := @length_nonceOf (draws stream).pn _ (length_iv (draws stream).dcid)
  intro x hx
  rcases List.mem_append.mp hx with hx | hx
  · rcases List.mem_append.mp hx with hx | hx
    · -- its own
      simp only [List.mem_cons, List.not_mem_nil, or_false] at hx
      rcases hx with rfl | rfl | rfl | rfl | rfl | rfl | rfl | rfl
      · exact hdcid.le
      · exact hscid.le
      · exact hpn.le
      · exact (hkey _ 16 (by decide)).le
      · exact (hkey _ 12 (by decide)).le
      · exact (hkey _ 16 (by decide)).le
      · exact hnonce.le
      · show (cryptoFrame (helloBytes sni stream)).length ≤ 1154
        omega
    · exact keyScratch_fits _ x hx
  · exact scratch_fits sni _ _ _ hscid hpub hrandom h x hx

/-- What an observer gets from a datagram that was built for a name. -/
structure Reveals (o : Observed) (datagram sni : Bytes) : Prop where
  dcid : o.dcid = slice 6 8 datagram
  scid : o.scid = slice 15 8 datagram
  sample : o.sampleOffset = 30
  header : o.header.length = 30
  payload : o.payload = slice 30 1170 datagram
  name : o.hello.serverNames = [(0, sni)]
  protocols : o.hello.protocols = [ascii "h3"]
  source : o.hello.parameters = [(0x0f, o.scid)]

/-- With a name of 1 to 255 bytes `qinit_build` fills the 1200 bytes of its buffer, whatever was
in them, and stays inside all others; an observer opens the datagram and reads the name. With
any other name it fails and leaves the buffer alone. -/
theorem qinitBuild_observed (aes : Cipher) (sni tail : Bytes) (stream : ℕ → U8) (hnul : 0 ∉ sni) :
    (1 ≤ sni.length ∧ sni.length ≤ 255 →
      (∀ x ∈ buildScratch sni stream, x.1.length ≤ x.2) ∧
      ∃ datagram o, datagram.length = 1200 ∧
        (∀ buf : Bytes, 1200 ≤ buf.length → ∃ stream',
          qinitBuild aes buf (sni ++ 0 :: tail) stream = (0, datagram ++ buf.drop 1200, stream')) ∧
        observe aes datagram = some o ∧ Reveals o datagram sni) ∧
    (sni.length = 0 ∨ 255 < sni.length → ∀ buf : Bytes, ∃ stream',
      qinitBuild aes buf (sni ++ 0 :: tail) stream = (-22, buf, stream')) := by
  obtain ⟨hdcid, hscid, hpn, hpub, hrandom⟩ := length_draws stream
  constructor
  · rintro ⟨hpos, hmax⟩
    have hhello := length_helloBytes stream hmax
    have hsaid := readHello_clientHello hmax hscid hpub hrandom
    refine ⟨buildScratch_fits stream hmax, _, _, length_datagramOf aes hdcid hscid hhello, ?_,
      observe_datagramOf aes hdcid hscid hpn hhello hsaid, ?_⟩
    · intro buf _
      exact ⟨_, qinitBuild_eq aes buf tail stream hnul hpos hmax⟩
    · constructor
      · exact (slice_dcid _ _ hdcid).symm
      · exact (slice_scid _ _ hdcid hscid).symm
      · rfl
      · rw [List.length_append, length_headerStart hdcid hscid, hpn]
      · have hall := @length_sealedOf (draws stream).dcid (draws stream).scid (draws stream).pn _
          aes hhello
        rw [datagramOf, slice_behind (length_protectedHeader _ hdcid hscid),
          List.take_of_length_le hall.le]
      · rfl
      · rfl
      · rfl
  · intro hlen buf
    exact ⟨_, qinitBuild_rejected aes buf tail stream hnul hlen⟩

theorem qinitBuild_observed_localhost :
    let aes : Cipher := fun _ b => b
    (∃ datagram stream o,
      (qinitBuild aes (List.replicate 1200 0) (ascii "localhost" ++ [0]) fun _ => 7) =
        (0, datagram, stream) ∧ observe aes datagram = some o ∧
        o.hello.serverNames = [(0, ascii "localhost")]) ∧
      (qinitBuild aes [] [0] fun _ => 7).1 = -22 := by
  intro aes
  constructor
  · obtain ⟨-, datagram, o, -, hbuild, hread, hreveals⟩ :=
      (qinitBuild_observed aes (ascii "localhost") [] (fun _ => 7) (by decide)).1 (by decide)
    obtain ⟨stream, hresult⟩ := hbuild (List.replicate 1200 0) List.length_replicate.ge
    rw [List.drop_eq_nil_of_le List.length_replicate.le, List.append_nil] at hresult
    exact ⟨datagram, stream, o, hresult, hread, hreveals.name⟩
  · obtain ⟨stream, hresult⟩ :=
      (qinitBuild_observed aes [] [] (fun _ => 7) (by decide)).2 (.inl rfl) []
    exact congrArg Prod.fst hresult

end AmneziaWg.Qinit
