import AmneziaWg.Dispatch
import AmneziaWg.Send
import Mathlib.Data.List.GetD

/-!
# Transport data, from one end to the other

A packet is padded and encrypted by `encrypt_packet`, parsed by `prepare_awg_message`,
decrypted by `decrypt_packet`, and cut back to the length in its IP header by
`wg_packet_consume_data_done`.

* **Model**: `decryptPacket`, `wgPacketConsumeDataDone`; the padding in the source's 32
  bits, `calculateSkbPadding32`.
* **Padding**: `calculateSkbPadding32_toNat`, `calculateSkbPadding_lt`,
  `padded_le_mtu`.
* **Round trip**: `transport_round_trip`, for every type word in the configured range.
-/

namespace AmneziaWg

open Linux HandshakeQueue

/-! ## Model layer -/

/-- An AEAD whose decryption undoes its encryption. -/
structure AeadPair extends Aead where
  decrypt : Bytes → U64 → Bytes → Option Bytes
  decrypt_encrypt : ∀ key nonce plaintext,
    decrypt key nonce (encrypt key nonce plaintext) = some plaintext

/-- The part of `struct noise_keypair` that decryption reads. -/
structure ReceivingKeypair where
  key : Bytes
  isValid : Bool
  birthdate : U64
  /-- `receiving_counter.counter`. -/
  counter : U64
deriving DecidableEq, Repr

/-- What `decrypt_packet` asks the kernel for. -/
structure DecryptEnv where
  now : U64
  cowData : ℤ
  toSgvec : Bool
  trims : Bool

def rejectAfterTime : U64 := 180

/-- The keypair may still be used for receiving. -/
def ReceivingKeypair.Usable (now : U64) (keypair : ReceivingKeypair) : Prop :=
  keypair.isValid ∧ ¬ wgBirthdateHasExpired now keypair.birthdate rejectAfterTime ∧
    keypair.counter.toNat < rejectAfterMessages

instance (now : U64) (keypair : ReceivingKeypair) : Decidable (keypair.Usable now) :=
  inferInstanceAs (Decidable (_ ∧ _ ∧ _))

/-- The bytes behind the header, decrypted in place and without the tag. The network
header is pushed and pulled around it, which cancels out. -/
def decryptBehindHeader (aead : AeadPair) (env : DecryptEnv) (key : Bytes) (nonce : U64)
    (skb : Skb) : Option Bytes :=
  let body := (skb.pull messageTransportSize).data
  if env.cowData < 0 ∨ env.cowData > sgSize then none
  else if ¬ env.toSgvec then none
  else
    match aead.decrypt key nonce body with
    | none => none
    | some plaintext =>
      if env.trims then
        some ((plaintext ++ body.drop plaintext.length).take (body.length - noiseEncryptedLen 0))
      else none

/-- `decrypt_packet`: the nonce and the plaintext, and the keypair that it leaves. -/
def decryptPacket (aead : AeadPair) (env : DecryptEnv) (skb : Skb)
    (keypair : Option ReceivingKeypair) : Option (U64 × Bytes) × Option ReceivingKeypair :=
  match keypair with
  | none => (none, none)
  | some keypair =>
    if ¬ keypair.Usable env.now then (none, some { keypair with isValid := false })
    else
      let nonce := readLe64 (skb.data.drop 8)
      ((decryptBehindHeader aead env keypair.key nonce skb).map fun plaintext =>
        (nonce, plaintext), some keypair)

/-- `sizeof(struct iphdr)`. -/
def iphdrSize : ℕ := 20

/-- `sizeof(struct ipv6hdr)`. -/
def ipv6hdrSize : ℕ := 40

/-- The version in an IP header. -/
def ipVersion (packet : Bytes) : ℕ := (packet.getD 0 0).toNat / 16

/-- `tot_len` of an IPv4 header. -/
def totLen (packet : Bytes) : ℕ := readBe16 packet 2

/-- `payload_len` of an IPv6 header. -/
def payloadLen (packet : Bytes) : ℕ := readBe16 packet 4

/-- `ip_tunnel_get_dsfield`: `tos`, or the traffic class. -/
def ipTunnelGetDsfield (packet : Bytes) : U8 :=
  if ipVersion packet = 4 then packet.getD 1 0
  else if ipVersion packet = 6 then (packet.getD 0 0 <<< 4) ||| (packet.getD 1 0 >>> 4)
  else 0

/-- `ip_tunnel_ecn_encap` with no outer TOS: the congestion bits of the outer header. -/
def ipTunnelEcnEncap (packet : Bytes) : U8 :=
  let inner := ipTunnelGetDsfield packet
  if inner &&& 3 = 3 then 2 else inner &&& 3

/-- What `wg_packet_consume_data_done` asks the kernel for. `setCe` and `setEct1` mark
congestion in an inner header. -/
structure ConsumeEnv where
  setCe : Bytes → Bytes
  setEct1 : Bytes → Bytes
  trims : Bool
  /-- `wg_allowedips_lookup_src` finds the peer that the packet came from. -/
  routed : Bytes → Bool

/-- `INET_ECN_decapsulate`: the inner header, with the marks of the outer one. -/
def inetEcnDecapsulate (env : ConsumeEnv) (outer inner : U8) (packet : Bytes) : Bytes :=
  if inner &&& 3 = 0 then packet
  else if outer &&& 3 = 3 then env.setCe packet
  else if outer &&& 3 = 1 ∧ inner &&& 3 = 2 then env.setEct1 packet
  else packet

/-- How `wg_packet_consume_data_done` ends. -/
inductive Consumed where
  | keepalive
  | dishonestType
  | dishonestSize
  | dishonestPeer
  | processed
  | delivered (packet : Bytes)
deriving DecidableEq, Repr

/-- The end of `wg_packet_consume_data_done`, for the length that the IP header states. -/
def trimAndDeliver (env : ConsumeEnv) (len : ℕ) (packet : Bytes) : Consumed :=
  if len > packet.length then .dishonestSize
  else if ¬ env.trims then .processed
  else if ¬ env.routed (packet.take len) then .dishonestPeer
  else .delivered (packet.take len)

/-- `wg_packet_consume_data_done` on a decrypted packet. -/
def wgPacketConsumeDataDone (env : ConsumeEnv) (ds : U8) (packet : Bytes) : Consumed :=
  if packet.length = 0 then .keepalive
  else if ¬ (iphdrSize ≤ packet.length ∧ (ipVersion packet = 4 ∨
      (ipVersion packet = 6 ∧ ipv6hdrSize ≤ packet.length))) then .dishonestType
  else if ipVersion packet = 4 then
    if totLen packet < iphdrSize then .dishonestSize
    else
      trimAndDeliver env (totLen packet)
        (inetEcnDecapsulate env ds (ipTunnelGetDsfield packet) packet)
  else
    trimAndDeliver env (payloadLen packet + ipv6hdrSize)
      (inetEcnDecapsulate env ds (ipTunnelGetDsfield packet) packet)

/-! ## Padding -/

/-- `ALIGN(x, MESSAGE_PADDING_MULTIPLE)` in 32 bits. -/
def align32 (x : U32) : U32 := (x + 15) &&& ~~~15

/-- `last_unit` of `calculate_skb_padding`. -/
def lastUnit32 (len mtu : U32) : U32 := if mtu = 0 then len else if len > mtu then len % mtu else len

/-- What `last_unit` is subtracted from. -/
def paddedSize32 (len mtu : U32) : U32 :=
  if mtu = 0 then align32 len
  else if mtu ≤ align32 (lastUnit32 len mtu) then mtu else align32 (lastUnit32 len mtu)

/-- `calculate_skb_padding` in the source's 32 bits. -/
def calculateSkbPadding32 (len mtu : U32) : U32 := paddedSize32 len mtu - lastUnit32 len mtu

/-- Clearing the low four bits rounds down. -/
theorem toNat_clear_low (y : U32) : (y &&& ~~~15).toNat = y.toNat / 16 * 16 := by
  have hsplit : (y &&& 15) + (y &&& ~~~15) = y := by
    rw [BitVec.add_eq_or_of_and_eq_zero]
    · ext i hi
      simp only [BitVec.getElem_or, BitVec.getElem_and, BitVec.getElem_not]
      cases y[i] <;> cases (15#32)[i] <;> rfl
    · ext i hi
      simp only [BitVec.getElem_and, BitVec.getElem_not, BitVec.getElem_zero]
      cases y[i] <;> cases (15#32)[i] <;> rfl
  have hlow : (y &&& 15).toNat = y.toNat % 16 := by
    rw [BitVec.toNat_and]
    exact Nat.and_two_pow_sub_one_eq_mod y.toNat 4
  have hle : (y &&& ~~~15).toNat ≤ y.toNat := by
    rw [BitVec.toNat_and]
    exact Nat.and_le_left
  have hsum := congrArg BitVec.toNat hsplit
  rw [BitVec.toNat_add, hlow] at hsum
  have hy := y.isLt
  omega

theorem align32_toNat {x : U32} (h : x.toNat + 15 < 2 ^ 32) :
    (align32 x).toNat = alignPadding x.toNat := by
  have hadd : (x + 15).toNat = x.toNat + 15 := by
    rw [BitVec.toNat_add]
    exact Nat.mod_eq_of_lt h
  rw [align32, toNat_clear_low, hadd]
  rfl

theorem le_alignPadding (x : ℕ) : x ≤ alignPadding x ∧ alignPadding x < x + 16 := by
  unfold alignPadding messagePaddingMultiple
  omega

theorem lastUnit32_le (len mtu : U32) : (lastUnit32 len mtu).toNat ≤ len.toNat := by
  unfold lastUnit32
  split
  · exact le_refl _
  split
  · rw [BitVec.toNat_umod]
    exact Nat.mod_le ..
  · exact le_refl _

/-- The last unit is within the MTU, if there is one. -/
theorem lastUnit32_le_mtu {len mtu : U32} (h : mtu ≠ 0) :
    (lastUnit32 len mtu).toNat ≤ mtu.toNat := by
  have hpos : 0 < mtu.toNat := by
    by_contra hzero
    exact h (BitVec.eq_of_toNat_eq (Nat.eq_zero_of_not_pos hzero))
  unfold lastUnit32
  rw [if_neg h]
  split
  · rw [BitVec.toNat_umod]
    exact Nat.le_of_lt (Nat.mod_lt _ hpos)
  · next hle => exact BitVec.not_lt.mp hle

/-- The subtraction of `calculate_skb_padding` does not wrap. -/
theorem lastUnit32_le_paddedSize32 {len : U32} (hlen : len.toNat + 15 < 2 ^ 32) (mtu : U32) :
    (lastUnit32 len mtu).toNat ≤ (paddedSize32 len mtu).toNat := by
  have hunit := lastUnit32_le len mtu
  have halign : (align32 (lastUnit32 len mtu)).toNat = alignPadding (lastUnit32 len mtu).toNat :=
    align32_toNat (by omega)
  by_cases hmtu : mtu = 0
  · have hlast : lastUnit32 len mtu = len := if_pos hmtu
    rw [hlast] at halign ⊢
    rw [paddedSize32, if_pos hmtu, halign]
    exact (le_alignPadding _).1
  · rw [paddedSize32, if_neg hmtu]
    split
    · exact lastUnit32_le_mtu hmtu
    · rw [halign]
      exact (le_alignPadding _).1

/-- The padding in 32 bits is the padding. -/
theorem calculateSkbPadding32_toNat {len : U32} (hlen : len.toNat + 15 < 2 ^ 32) (mtu : U32) :
    (calculateSkbPadding32 len mtu).toNat = calculateSkbPadding len.toNat mtu.toNat := by
  have hunit := lastUnit32_le len mtu
  have halign : (align32 (lastUnit32 len mtu)).toNat = alignPadding (lastUnit32 len mtu).toNat :=
    align32_toNat (by omega)
  rw [calculateSkbPadding32, BitVec.toNat_sub_of_le (lastUnit32_le_paddedSize32 hlen mtu)]
  by_cases hmtu : mtu = 0
  · have hlast : lastUnit32 len mtu = len := if_pos hmtu
    rw [hlast] at halign ⊢
    rw [paddedSize32, if_pos hmtu, halign, calculateSkbPadding, hmtu]
    simp
  · have hne : mtu.toNat ≠ 0 := fun h => hmtu (BitVec.eq_of_toNat_eq h)
    have hlast : (lastUnit32 len mtu).toNat =
        if len.toNat > mtu.toNat then len.toNat % mtu.toNat else len.toNat := by
      unfold lastUnit32
      rw [if_neg hmtu]
      by_cases hgt : len > mtu
      · rw [if_pos hgt, if_pos (show len.toNat > mtu.toNat from hgt), BitVec.toNat_umod]
      · rw [if_neg hgt, if_neg (show ¬ len.toNat > mtu.toNat from hgt)]
    have hmin : (paddedSize32 len mtu).toNat =
        min mtu.toNat (alignPadding (lastUnit32 len mtu).toNat) := by
      rw [paddedSize32, if_neg hmtu, ← halign]
      by_cases hle : mtu ≤ align32 (lastUnit32 len mtu)
      · rw [if_pos hle, Nat.min_eq_left hle]
      · rw [if_neg hle, Nat.min_eq_right (Nat.le_of_lt (BitVec.not_le.mp hle))]
    rw [hmin, hlast, calculateSkbPadding, if_neg hne]

theorem calculateSkbPadding_lt (len mtu : ℕ) : calculateSkbPadding len mtu < 16 := by
  have hround : ∀ x, alignPadding x < x + 16 := fun x => (le_alignPadding x).2
  unfold calculateSkbPadding
  split
  · have := hround len
    omega
  · have := hround (if len > mtu then len % mtu else len)
    dsimp only
    omega

/-- A packet that fits the MTU still fits it with its padding. -/
theorem padded_le_mtu {len mtu : ℕ} (hmtu : mtu ≠ 0) (hlen : len ≤ mtu) :
    len + calculateSkbPadding len mtu ≤ mtu := by
  have hnot : ¬ len > mtu := Nat.not_lt.mpr hlen
  unfold calculateSkbPadding
  simp only [if_neg hmtu, if_neg hnot]
  omega

/-! ## Parsing -/

/-- A datagram of no handshake length, with a transport word behind the transport
padding, is transport data. -/
theorem prepareAwgMessageInPlace_transport {wg : WgDevice} {padding message : Bytes}
    (hpadding : padding.length = (wg.junkSize .transport).toNat)
    (hmessage : messageTransportSize ≤ message.length)
    (htype : mhValidate (readLe32 message) (wg.headers .transport))
    (hother : ∀ k, k ≠ .transport →
      (padding ++ message).length ≠ (wg.junkSize k).toNat + k.messageSize) :
    prepareAwgMessageInPlace wg true ⟨padding ++ message, 0⟩ =
      (some .transport, ⟨padding ++ message, padding.length⟩) := by
  have hpull : Skb.pull ⟨padding ++ message, 0⟩ (wg.junkSize .transport).toNat =
      ⟨padding ++ message, padding.length⟩ := by
    rw [pull_fresh, hpadding]
    rw [List.length_append]
    omega
  have hno : ∀ k, k ≠ .transport → ¬ Fits wg ⟨padding ++ message, 0⟩ k := by
    intro k hk hfits
    rw [fits_iff hk] at hfits
    exact hother k hk hfits.1
  have hyes : Fits wg ⟨padding ++ message, 0⟩ .transport := by
    constructor
    · show (padding ++ message).length ≥ _
      rw [List.length_append, hpadding]
      exact Nat.add_le_add_left hmessage _
    · rw [hpull]
      show mhValidate (readLe32 ((padding ++ message).drop padding.length)) _
      rw [List.drop_left' rfl]
      exact htype
  rw [prepareAwgMessageInPlace_eq]
  show tryKinds wg _ [.init, .response, .cookie, .transport] = _
  rw [tryKinds, if_neg (hno .init (by decide)), tryKinds, if_neg (hno .response (by decide)),
    tryKinds, if_neg (hno .cookie (by decide)), tryKinds, if_pos hyes, hpull]

/-! ## Decryption -/

/-- The environment lets decryption through. -/
structure DecryptEnv.Ok (env : DecryptEnv) : Prop where
  cowData : 0 ≤ env.cowData ∧ env.cowData ≤ sgSize
  toSgvec : env.toSgvec = true
  trims : env.trims = true

/-- Decryption of a message that was encrypted with the same key. -/
theorem decryptPacket_encrypted (aead : AeadPair) {env : DecryptEnv} (henv : env.Ok)
    {keypair : ReceivingKeypair} (husable : keypair.Usable env.now) (padding : Bytes)
    (messageType : U32) (skb : DataSkb) (sending : SendingKeypair) (plaintext : Bytes)
    (hkey : keypair.key = sending.key) :
    decryptPacket aead env ⟨padding ++ (messageDataHeader messageType skb sending ++
          aead.encrypt sending.key skb.nonce plaintext), padding.length⟩ (some keypair) =
      (some (skb.nonce, plaintext), some keypair) := by
  have hdata : Skb.data ⟨padding ++ (messageDataHeader messageType skb sending ++
      aead.encrypt sending.key skb.nonce plaintext), padding.length⟩ =
      messageDataHeader messageType skb sending ++
        aead.encrypt sending.key skb.nonce plaintext :=
    List.drop_left' rfl
  have hbody : (Skb.pull ⟨padding ++ (messageDataHeader messageType skb sending ++
      aead.encrypt sending.key skb.nonce plaintext), padding.length⟩ messageTransportSize).data =
      aead.encrypt sending.key skb.nonce plaintext := by
    have hlen : messageTransportSize ≤ Skb.len ⟨padding ++ (messageDataHeader messageType skb
        sending ++ aead.encrypt sending.key skb.nonce plaintext), padding.length⟩ := by
      unfold Skb.len
      rw [List.length_append, List.length_append, length_messageDataHeader]
      show 16 ≤ padding.length + (16 + _) - padding.length
      omega
    rw [Skb.pull, if_pos hlen]
    show List.drop (padding.length + messageTransportSize) _ = _
    rw [← List.append_assoc]
    refine List.drop_left' ?_
    rw [List.length_append, length_messageDataHeader]
    rfl
  have hnonce : readLe64 ((Skb.data ⟨padding ++ (messageDataHeader messageType skb sending ++
      aead.encrypt sending.key skb.nonce plaintext), padding.length⟩).drop 8) = skb.nonce := by
    rw [hdata]
    exact readLe64_le64 skb.nonce _
  have hcow : ¬ (env.cowData < 0 ∨ env.cowData > sgSize) := by
    have := henv.cowData
    omega
  have hplain : decryptBehindHeader aead env keypair.key skb.nonce
      ⟨padding ++ (messageDataHeader messageType skb sending ++
        aead.encrypt sending.key skb.nonce plaintext), padding.length⟩ = some plaintext := by
    unfold decryptBehindHeader
    dsimp only
    rw [hbody, hkey, aead.decrypt_encrypt, if_neg hcow, henv.toSgvec, henv.trims]
    simp only [not_true_eq_false, if_false, if_true]
    -- the tag is what is trimmed
    rw [aead.length_encrypt]
    exact congrArg some (List.take_left' (by simp [noiseEncryptedLen, noiseAuthtagLen]))
  unfold decryptPacket
  dsimp only
  rw [if_neg (not_not.mpr husable), hnonce, hplain]
  rfl

/-! ## Delivery -/

/-- An IPv4 or IPv6 packet whose header states its length. -/
def IpPacket (p : Bytes) : Prop :=
  (ipVersion p = 4 ∧ iphdrSize ≤ p.length ∧ totLen p = p.length) ∨
    (ipVersion p = 6 ∧ ipv6hdrSize ≤ p.length ∧ payloadLen p + ipv6hdrSize = p.length)

instance (p : Bytes) : Decidable (IpPacket p) := inferInstanceAs (Decidable (_ ∨ _))

/-- The congestion bits of the sender change nothing in the packet. -/
theorem inetEcnDecapsulate_encap (env : ConsumeEnv) (p packet : Bytes) :
    inetEcnDecapsulate env (ipTunnelEcnEncap p) (ipTunnelGetDsfield p) packet = packet := by
  have hmask : (ipTunnelGetDsfield p &&& 3) &&& 3 = ipTunnelGetDsfield p &&& 3 := by
    rw [BitVec.and_assoc, BitVec.and_self]
  unfold inetEcnDecapsulate ipTunnelEcnEncap
  dsimp only
  by_cases hce : ipTunnelGetDsfield p &&& 3 = 3
  · -- a congestion mark is sent as ECT(0)
    simp only [hce]
    rfl
  · have hboth : ¬ (ipTunnelGetDsfield p &&& 3 = 1 ∧ ipTunnelGetDsfield p &&& 3 = 2) := by
      rintro ⟨h1, h2⟩
      rw [h1] at h2
      cases h2
    simp only [if_neg hce, hmask, if_neg hboth, ite_self]

theorem trimAndDeliver_padded {env : ConsumeEnv} (htrims : env.trims = true) {p : Bytes}
    (hrouted : env.routed p = true) (zeros : Bytes) :
    trimAndDeliver env p.length (p ++ zeros) = .delivered p := by
  have hlen : ¬ p.length > (p ++ zeros).length := by
    rw [List.length_append]
    omega
  unfold trimAndDeliver
  rw [if_neg hlen, List.take_left' rfl, htrims, hrouted]
  simp

/-- A packet with padding behind it is delivered without the padding. -/
theorem wgPacketConsumeDataDone_padded {env : ConsumeEnv} (htrims : env.trims = true) {p : Bytes}
    (hip : IpPacket p) (hrouted : env.routed p = true) (zeros : Bytes) :
    wgPacketConsumeDataDone env (ipTunnelEcnEncap p) (p ++ zeros) = .delivered p := by
  have hsize : iphdrSize ≤ p.length := by
    rcases hip with ⟨-, h, -⟩ | ⟨-, h, -⟩
    · exact h
    · exact le_trans (by decide) h
  -- the header is all in front of the padding
  have hget : ∀ i < 20, (p ++ zeros).getD i 0 = p.getD i 0 := by
    intro i hi
    exact List.getD_append _ _ _ _ (lt_of_lt_of_le hi hsize)
  have hversion : ipVersion (p ++ zeros) = ipVersion p := by
    rw [ipVersion, hget 0 (by omega)]
    rfl
  have hds : ipTunnelGetDsfield (p ++ zeros) = ipTunnelGetDsfield p := by
    unfold ipTunnelGetDsfield
    rw [hversion, hget 0 (by omega), hget 1 (by omega)]
  have htot : totLen (p ++ zeros) = totLen p := by
    unfold totLen readBe16
    rw [hget 2 (by omega), hget 3 (by omega)]
  have hpayload : payloadLen (p ++ zeros) = payloadLen p := by
    unfold payloadLen readBe16
    rw [hget 4 (by omega), hget 5 (by omega)]
  have hlen : (p ++ zeros).length = p.length + zeros.length := List.length_append
  have hsize' : 20 ≤ p.length := hsize
  unfold wgPacketConsumeDataDone
  rw [hversion, hds, htot, hpayload, inetEcnDecapsulate_encap, hlen,
    if_neg (show ¬ p.length + zeros.length = 0 by omega)]
  rcases hip with ⟨hv, hmin, hstated⟩ | ⟨hv, hmin, hstated⟩
  · have hshort : ¬ totLen p < iphdrSize := by
      rw [hstated]
      omega
    have htype : iphdrSize ≤ p.length + zeros.length ∧ (ipVersion p = 4 ∨
        (ipVersion p = 6 ∧ ipv6hdrSize ≤ p.length + zeros.length)) :=
      ⟨by omega, Or.inl hv⟩
    rw [if_neg (not_not.mpr htype), if_pos hv, if_neg hshort, hstated]
    exact trimAndDeliver_padded htrims hrouted zeros
  · have htype : iphdrSize ≤ p.length + zeros.length ∧ (ipVersion p = 4 ∨
        (ipVersion p = 6 ∧ ipv6hdrSize ≤ p.length + zeros.length)) :=
      ⟨by omega, Or.inr ⟨hv, by omega⟩⟩
    have hnot4 : ¬ ipVersion p = 4 := by
      rw [hv]
      decide
    rw [if_neg (not_not.mpr htype), if_neg hnot4, hstated]
    exact trimAndDeliver_padded htrims hrouted zeros

/-! ## Round trip -/

/-- Every datagram that `encrypt_packet` makes of an IP packet `p` (with its checksum
finished) is, if it has the length of no handshake message, parsed as transport data,
decrypted to `p` and fewer than 16 zero bytes, and delivered as `p`. -/
theorem transport_round_trip (aead : AeadPair) (wg : WgDevice) (messageType : U32)
    (hH4 : mhValidate messageType (wg.headers .transport)) (env : CryptEnv) (skb : DataSkb)
    (sending : SendingKeypair) (p : Bytes) (hchecksum : env.checksum skb.data = some p)
    (hip : IpPacket p) (d : Bytes)
    (hd : encryptPacket aead.toAead env wg.imitateProto messageType
      (wg.junkSize .transport).toNat skb sending = some d)
    (hother : ∀ k, k ≠ .transport → d.length ≠ (wg.junkSize k).toNat + k.messageSize) :
    ∃ left zeros, prepareAwgMessageInPlace wg true ⟨d, 0⟩ = (some .transport, left) ∧
      zeros < 16 ∧
      (∀ denv keypair, denv.Ok → keypair.Usable denv.now → keypair.key = sending.key →
        decryptPacket aead denv left (some keypair) =
          (some (skb.nonce, p ++ List.replicate zeros 0), some keypair)) ∧
      (∀ cenv, cenv.trims = true → cenv.routed p = true →
        wgPacketConsumeDataDone cenv (ipTunnelEcnEncap p) (p ++ List.replicate zeros 0) =
          .delivered p) ∧
      (∀ len mtu : U32, len.toNat = p.length → mtu.toNat = skb.mtu →
        lastUnit32 len mtu ≤ paddedSize32 len mtu ∧
          (calculateSkbPadding32 len mtu).toNat = zeros) ∧
      (skb.mtu ≠ 0 → p.length ≤ skb.mtu → p.length + zeros ≤ skb.mtu) := by
  rcases encryptPacket_wire hd with ⟨inner, padding, hinner, hpadding, hwire⟩
  have hp : inner = p := Option.some.inj (hinner.symm.trans hchecksum)
  have hlen : p.length = skb.data.length := env.checksum_length hchecksum
  have hplain : paddedPlaintext skb p =
      p ++ List.replicate (calculateSkbPadding p.length skb.mtu) 0 := by
    rw [paddedPlaintext, hlen]
  rw [hp, hplain] at hwire
  subst hwire
  have htype : readLe32 (messageDataHeader messageType skb sending ++
      aead.encrypt sending.key skb.nonce
        (p ++ List.replicate (calculateSkbPadding p.length skb.mtu) 0)) = messageType :=
    readLe32_le32 messageType _
  refine ⟨_, calculateSkbPadding p.length skb.mtu,
    prepareAwgMessageInPlace_transport hpadding ?_ ?_ hother, calculateSkbPadding_lt _ _,
    ?_, ?_, ?_, ?_⟩
  · rw [List.length_append, length_messageDataHeader]
    exact Nat.le_add_right ..
  · rw [htype]
    exact hH4
  · intro denv keypair henv husable hkey
    exact decryptPacket_encrypted aead henv husable padding messageType skb sending _ hkey
  · intro cenv htrims hrouted
    exact wgPacketConsumeDataDone_padded htrims hip hrouted _
  · -- an IP packet is far too short for the 32-bit sum to wrap
    intro len mtu hlen32 hmtu32
    have hshort : len.toNat + 15 < 2 ^ 32 := by
      have hbe : ∀ off, readBe16 p off < 2 ^ 16 := by
        intro off
        have h0 := (p.getD off 0).isLt
        have h1 := (p.getD (off + 1) 0).isLt
        unfold readBe16
        omega
      have h2 := hbe 2
      have h4 := hbe 4
      rcases hip with ⟨-, -, hstated⟩ | ⟨-, -, hstated⟩
      · unfold totLen at hstated
        omega
      · unfold payloadLen ipv6hdrSize at hstated
        omega
    refine ⟨lastUnit32_le_paddedSize32 hshort mtu, ?_⟩
    rw [calculateSkbPadding32_toNat hshort, hlen32, hmtu32]
  · intro hmtu hfits
    exact padded_le_mtu hmtu hfits

/-- A cipher that only appends a tag, for a concrete run. -/
def tagOnly : AeadPair where
  encrypt := fun _ _ plaintext => plaintext ++ List.replicate 16 0
  length_encrypt := fun _ _ _ => by simp
  decrypt := fun _ _ ciphertext => some (ciphertext.take (ciphertext.length - 16))
  decrypt_encrypt := fun _ _ plaintext => by simp

/-- An IPv4 packet of 36 bytes. -/
def shortIpv4 : Bytes := [0x45, 0, 0, 36] ++ List.replicate 32 0

/-- The packet is padded from 36 to 48 bytes on its way, and delivered. -/
theorem transport_round_trip_shortIpv4 :
    ∃ left, prepareAwgMessageInPlace wgSetup true
        ⟨messageDataHeader 4 ⟨shortIpv4, 1420, 7⟩ ⟨0, []⟩ ++
          (shortIpv4 ++ List.replicate 28 0), 0⟩ = (some .transport, left) ∧
      decryptPacket tagOnly ⟨0, 1, true, true⟩ left (some ⟨[], true, 0, 0⟩) =
        (some (7, shortIpv4 ++ List.replicate 12 0), some ⟨[], true, 0, 0⟩) ∧
      wgPacketConsumeDataDone ⟨id, id, true, fun _ => true⟩ 0
        (shortIpv4 ++ List.replicate 12 0) = .delivered shortIpv4 := by
  rcases transport_round_trip tagOnly wgSetup 4 (by decide) plainEnv ⟨shortIpv4, 1420, 7⟩ ⟨0, []⟩
    shortIpv4 rfl (by decide) (messageDataHeader 4 ⟨shortIpv4, 1420, 7⟩ ⟨0, []⟩ ++
      (shortIpv4 ++ List.replicate 28 0)) (by decide +kernel) (by
        intro k hk
        cases k with
        | transport => exact absurd rfl hk
        | init => decide
        | response => decide
        | cookie => decide) with ⟨left, zeros, hparse, hzeros, hdecrypt, hdeliver, hpad, hmtu⟩
  have hz : zeros = 12 := by
    rw [← (hpad 36 1420 rfl rfl).2]
    decide
  subst hz
  exact ⟨left, hparse, hdecrypt _ _ ⟨by decide, rfl, rfl⟩ (by decide) rfl,
    hdeliver _ rfl rfl⟩

end AmneziaWg
