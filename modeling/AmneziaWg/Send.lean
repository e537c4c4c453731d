import AmneziaWg.Imitate.Seed
import AmneziaWg.Messages

/-!
# Padding on the send paths

The three ways a datagram gets its padding: handshake messages
(`wg_socket_send_buffer_to_peer`), cookie replies
(`wg_socket_send_buffer_as_reply_to_skb`) and transport data (`encrypt_packet`).
The first two fill the padding when the message behind it is final. The third
fills it while the packet is still plaintext, and encrypts afterwards.

* **Model**: `wgFillPadding`, the three send paths, with what the memory helpers
  return and what fresh memory holds as parameters.
* **Result**: `padding_of_send_paths`. The padding of the first two is computed
  from the wire; that of transport data from the header and the plaintext, and it
  agrees with the wire exactly at the seed-free sizes.
-/

namespace AmneziaWg

open Linux Writes

/-! ## Model layer -/

/-- An AEAD without associated data; the tag is part of the ciphertext. -/
structure Aead where
  encrypt : Bytes → U64 → Bytes → Bytes
  length_encrypt : ∀ key nonce plaintext,
    (encrypt key nonce plaintext).length = plaintext.length + 16

/-- `n` bytes that nobody has written. -/
def unwritten (n : ℕ) (mem : ℕ → U8) : Bytes := (List.range n).map mem

/-- `wg_fill_padding` on a datagram; `random` is the stream of `get_random_bytes`. -/
def wgFillPadding (proto : ImitateProto) (random : ℕ → U8) (padding : ℕ) (buf : Bytes) : Bytes :=
  if proto ≠ .none then imitateFillPrefix proto padding buf
  else unwritten padding random ++ buf.drop padding

/-- What the socket layer asks the kernel for. -/
structure SocketEnv where
  allocSkb : Bool
  junk : ℕ → U8
  random : ℕ → U8

/-- The datagram of `wg_socket_send_buffer_to_peer`. -/
def wgSocketSendBufferToPeer (env : SocketEnv) (proto : ImitateProto) (buffer : Bytes)
    (junkSize : ℕ) : Except Errno Bytes :=
  if env.allocSkb then
    .ok (wgFillPadding proto env.random junkSize (unwritten junkSize env.junk ++ buffer))
  else .error .ENOMEM

/-- The datagram of `wg_socket_send_buffer_as_reply_to_skb`; `inSkb` is what
`wg_socket_endpoint_from_skb` returns on it, `none` for `NULL`. -/
def wgSocketSendBufferAsReplyToSkb (env : SocketEnv) (proto : ImitateProto)
    (inSkb : Option (Except Errno Unit)) (buffer : Bytes) (junkSize : ℕ) : Except Errno Bytes :=
  match inSkb with
  | none => .error .EINVAL
  | some (.error e) => .error e
  | some (.ok ()) =>
    if env.allocSkb then
      .ok (wgFillPadding proto env.random junkSize (unwritten junkSize env.junk ++ buffer))
    else .error .ENOMEM

/-- `ALIGN(x, MESSAGE_PADDING_MULTIPLE)`. -/
def alignPadding (x : ℕ) : ℕ :=
  (x + (messagePaddingMultiple - 1)) / messagePaddingMultiple * messagePaddingMultiple

/-- `calculate_skb_padding` for a packet of `len` bytes. -/
def calculateSkbPadding (len mtu : ℕ) : ℕ :=
  if mtu = 0 then alignPadding len - len
  else
    let lastUnit := if len > mtu then len % mtu else len
    min mtu (alignPadding lastUnit) - lastUnit

/-- The packet to encrypt and its `PACKET_CB`. -/
structure DataSkb where
  data : Bytes
  mtu : ℕ
  nonce : U64

/-- The part of `struct noise_keypair` that encryption reads. -/
structure SendingKeypair where
  remoteIndex : U32
  key : Bytes

/-- What the skb and crypto helpers return, and what the head and tail room hold.
`checksum` finishes a partial checksum in place. -/
structure CryptEnv where
  cowData : ℤ
  cowHead : Bool
  checksum : Bytes → Option Bytes
  checksum_length : ∀ {d d'}, checksum d = some d' → d'.length = d.length
  toSgvec : Bool
  encrypted : Bool
  junk : ℕ → U8
  tag : ℕ → U8
  random : ℕ → U8

/-- `ARRAY_SIZE(sg)`. -/
def sgSize : ℤ := 25

/-- `struct message_data` in front of the ciphertext. -/
def messageDataHeader (messageType : U32) (skb : DataSkb) (keypair : SendingKeypair) : Bytes :=
  le32 messageType ++ le32 keypair.remoteIndex ++ le64 skb.nonce

/-- The padded plaintext. -/
def paddedPlaintext (skb : DataSkb) (inner : Bytes) : Bytes :=
  inner ++ List.replicate (calculateSkbPadding skb.data.length skb.mtu) 0

/-- What stands behind the padding when it is filled: the header, the padded
plaintext and the room for the tag. -/
def plainPayload (env : CryptEnv) (messageType : U32) (skb : DataSkb) (keypair : SendingKeypair)
    (inner : Bytes) : Bytes :=
  messageDataHeader messageType skb keypair ++ (paddedPlaintext skb inner ++ unwritten 16 env.tag)

/-- The datagram of `encrypt_packet`. -/
def encryptPacket (aead : Aead) (env : CryptEnv) (proto : ImitateProto) (messageType : U32)
    (junkSize : ℕ) (skb : DataSkb) (keypair : SendingKeypair) : Option Bytes :=
  let plaintextLen := skb.data.length + calculateSkbPadding skb.data.length skb.mtu
  if env.cowData < 0 ∨ env.cowData > sgSize then none
  else if ¬ env.cowHead then none
  else
    match env.checksum skb.data with
    | none => none
    | some inner =>
      let buf := wgFillPadding proto env.random junkSize
        (unwritten junkSize env.junk ++ plainPayload env messageType skb keypair inner)
      if ¬ env.toSgvec ∨ ¬ env.encrypted then none
      else
        -- in place, behind the header
        let dataOff := junkSize + messageTransportSize
        some (buf.take dataOff ++
          aead.encrypt keypair.key skb.nonce ((buf.drop dataOff).take plaintextLen))

/-- A datagram that `encrypt_packet` can emit with this AEAD, protocol and padding. -/
def EmitsTransport (aead : Aead) (proto : ImitateProto) (junkSize : ℕ) (d : Bytes) : Prop :=
  ∃ env messageType skb keypair,
    encryptPacket aead env proto messageType junkSize skb keypair = some d

/-! ## What the paths emit -/

@[simp] theorem length_unwritten (n : ℕ) (mem : ℕ → U8) : (unwritten n mem).length = n := by
  rw [unwritten, List.length_map, List.length_range]

theorem length_messageDataHeader (messageType : U32) (skb : DataSkb) (keypair : SendingKeypair) :
    (messageDataHeader messageType skb keypair).length = 16 := rfl

variable {proto : ImitateProto}

/-- Imitation turns unwritten padding into the padding for the payload. -/
theorem wgFillPadding_eq (hproto : proto ≠ .none) (random mem : ℕ → U8) (padding : ℕ)
    {payload : Bytes} (hpayload : payload ≠ []) :
    wgFillPadding proto random padding (unwritten padding mem ++ payload) =
      paddingFor proto padding payload ++ payload := by
  have h := imitateFillPrefix_eq hproto (unwritten padding mem) hpayload
  rw [length_unwritten] at h
  rw [wgFillPadding, if_pos hproto, h]

theorem length_paddingFor (hproto : proto ≠ .none) (padding : ℕ) {payload : Bytes}
    (hpayload : payload ≠ []) : (paddingFor proto padding payload).length = padding := by
  rw [paddingFor_eq hproto padding hpayload, length_stores, List.length_replicate]

variable {aead : Aead} {junkSize : ℕ} {d : Bytes}

variable {env : CryptEnv} {messageType : U32} {skb : DataSkb} {keypair : SendingKeypair}

/-- A transport datagram is whatever fills the padding, the header and the ciphertext. -/
theorem encryptPacket_of_fill {pad : Bytes → Bytes} (hfill : ∀ payload, payload ≠ [] →
      wgFillPadding proto env.random junkSize (unwritten junkSize env.junk ++ payload) =
        pad payload ++ payload) (hpad : ∀ payload, payload ≠ [] → (pad payload).length = junkSize)
    (h : encryptPacket aead env proto messageType junkSize skb keypair = some d) :
    ∃ inner, env.checksum skb.data = some inner ∧
      d = pad (plainPayload env messageType skb keypair inner) ++
        (messageDataHeader messageType skb keypair ++
          aead.encrypt keypair.key skb.nonce (paddedPlaintext skb inner)) := by
  unfold encryptPacket at h
  dsimp only at h
  split at h
  · cases h
  split at h
  · cases h
  split at h
  · cases h
  next inner hinner =>
  split at h
  · cases h
  have hpayload : plainPayload env messageType skb keypair inner ≠ [] := by
    intro hnil
    cases hnil
  have hplain : (paddedPlaintext skb inner).length =
      skb.data.length + calculateSkbPadding skb.data.length skb.mtu := by
    rw [paddedPlaintext, List.length_append, List.length_replicate, env.checksum_length hinner]
  have hlen := hpad _ hpayload
  refine ⟨inner, hinner, ?_⟩
  rw [hfill _ hpayload, plainPayload, ← List.append_assoc,
    List.take_left' (by rw [List.length_append, ← plainPayload, hlen]; rfl),
    List.drop_left' (by rw [List.length_append, ← plainPayload, hlen]; rfl),
    List.take_left' hplain] at h
  rw [plainPayload, ← List.append_assoc]
  exact (Option.some.inj h).symm

/-- A transport datagram: padding for the plaintext, the header, the ciphertext. -/
theorem encryptPacket_eq (hproto : proto ≠ .none)
    (h : encryptPacket aead env proto messageType junkSize skb keypair = some d) :
    ∃ inner, env.checksum skb.data = some inner ∧
      d = paddingFor proto junkSize (plainPayload env messageType skb keypair inner) ++
        (messageDataHeader messageType skb keypair ++
          aead.encrypt keypair.key skb.nonce (paddedPlaintext skb inner)) := by
  refine encryptPacket_of_fill ?_ ?_ h
  · intro payload hpayload
    exact wgFillPadding_eq hproto _ _ _ hpayload
  · intro payload hpayload
    exact length_paddingFor hproto junkSize hpayload

/-- With or without imitation, a transport datagram is as many bytes of padding as
configured, the header and the ciphertext. -/
theorem encryptPacket_wire
    (h : encryptPacket aead env proto messageType junkSize skb keypair = some d) :
    ∃ inner padding, env.checksum skb.data = some inner ∧ padding.length = junkSize ∧
      d = padding ++ (messageDataHeader messageType skb keypair ++
        aead.encrypt keypair.key skb.nonce (paddedPlaintext skb inner)) := by
  by_cases hproto : proto = .none
  · -- random bytes, whatever stands behind them
    have hfill : ∀ payload, payload ≠ [] →
        wgFillPadding proto env.random junkSize (unwritten junkSize env.junk ++ payload) =
          unwritten junkSize env.random ++ payload := by
      intro payload _
      rw [wgFillPadding, if_neg (not_not.mpr hproto), List.drop_left' (length_unwritten ..)]
    rcases encryptPacket_of_fill hfill (fun _ _ => length_unwritten ..) h with ⟨inner, hinner, hd⟩
    exact ⟨inner, _, hinner, length_unwritten .., hd⟩
  · rcases encryptPacket_eq hproto h with ⟨inner, hinner, hd⟩
    refine ⟨inner, _, hinner, length_paddingFor hproto junkSize ?_, hd⟩
    intro hnil
    cases hnil

/-! ## Result -/

/-- At a seed-free size the padding for the plaintext is the padding for the wire. -/
theorem emitsTransport_seedFree (hproto : proto ≠ .none) (hfree : SeedFree proto junkSize)
    (h : EmitsTransport aead proto junkSize d) :
    d.take junkSize = paddingFor proto junkSize (d.drop junkSize) := by
  rcases h with ⟨env, messageType, skb, keypair, h⟩
  rcases encryptPacket_eq hproto h with ⟨inner, -, rfl⟩
  have hplain : plainPayload env messageType skb keypair inner ≠ [] := by
    intro hnil
    cases hnil
  have hwire : messageDataHeader messageType skb keypair ++
      aead.encrypt keypair.key skb.nonce (paddedPlaintext skb inner) ≠ [] := by
    intro hnil
    cases hnil
  have hpad := length_paddingFor hproto junkSize hplain
  rw [List.take_left' hpad, List.drop_left' hpad, paddingFor_eq hproto junkSize hplain,
    paddingFor_eq hproto junkSize hwire]
  -- plaintext and wire have the same length and the same header in front
  congr 1
  refine prefixWrites_seedFree hfree ?_ rfl rfl
  rw [plainPayload, List.length_append, List.length_append, List.length_append, length_unwritten,
    aead.length_encrypt]

/-- An AEAD that hides its plaintext completely. -/
def zeroAead : Aead where
  encrypt := fun _ _ plaintext => List.replicate (plaintext.length + 16) 0
  length_encrypt := fun _ _ _ => List.length_replicate

/-- Helpers that all succeed, on cleared memory. -/
def plainEnv : CryptEnv where
  cowData := 1
  cowHead := true
  checksum := some
  checksum_length := fun h => by rw [Option.some.inj h]
  toSgvec := true
  encrypted := true
  junk := fun _ => 0
  tag := fun _ => 0
  random := fun _ => 0

/-- A packet of sixteen bytes that starts with `b`. -/
def packetOf (b : U8) : DataSkb := ⟨b :: List.replicate 15 0, 0, 0⟩

/-- What stands behind the padding of such a packet when it is filled. -/
def packetPayload (b : U8) : Bytes := plainPayload plainEnv 4 (packetOf b) ⟨0, []⟩ (packetOf b).data

/-- What all these packets have on the wire behind the padding. -/
def packetWire : Bytes := messageDataHeader 4 (packetOf 0) ⟨0, []⟩ ++ List.replicate 32 0

theorem emitsTransport_packetOf (hproto : proto ≠ .none) (junkSize : ℕ) (b : U8) :
    EmitsTransport zeroAead proto junkSize
      (paddingFor proto junkSize (packetPayload b) ++ packetWire) := by
  have hsome : ∃ d, encryptPacket zeroAead plainEnv proto 4 junkSize (packetOf b) ⟨0, []⟩ = some d :=
    ⟨_, rfl⟩
  rcases hsome with ⟨d, hd⟩
  rcases encryptPacket_eq hproto hd with ⟨inner, hinner, heq⟩
  cases hinner
  have hlen : (paddedPlaintext (packetOf b) (packetOf b).data).length = 16 := by
    simp [paddedPlaintext, packetOf, calculateSkbPadding, alignPadding, messagePaddingMultiple]
  refine ⟨plainEnv, 4, packetOf b, ⟨0, []⟩, ?_⟩
  rw [hd, heq, zeroAead]
  dsimp only
  rw [hlen]
  rfl

theorem packetPayload_distinguished :
    Distinguished (imitateFnv1aSeed (packetPayload 1)) (imitateFnv1aSeed (packetPayload 2)) := by
  constructor
  · decide +kernel
  · decide +kernel
  · decide +kernel

/-- The padding in front of equal wires shows which packet was encrypted, unless
the size is seed-free. -/
theorem seedFree_of_wire (hproto : proto ≠ .none)
    (h : ∀ d d', EmitsTransport zeroAead proto junkSize d →
      EmitsTransport zeroAead proto junkSize d' → d.drop junkSize = d'.drop junkSize →
      d.take junkSize = d'.take junkSize) : SeedFree proto junkSize := by
  by_contra hfree
  have hne : ∀ b, packetPayload b ≠ [] := by
    intro b hnil
    cases hnil
  have hpair := h _ _ (emitsTransport_packetOf hproto junkSize 1)
    (emitsTransport_packetOf hproto junkSize 2)
  rw [List.take_left' (length_paddingFor hproto _ (hne 1)),
    List.take_left' (length_paddingFor hproto _ (hne 2)),
    List.drop_left' (length_paddingFor hproto _ (hne 1)),
    List.drop_left' (length_paddingFor hproto _ (hne 2))] at hpair
  -- the ciphertexts are equal, the seeds are not
  have hpad : paddingFor proto junkSize (packetPayload 1) =
      paddingFor proto junkSize (packetPayload 2) := hpair rfl
  rw [paddingFor_eq hproto junkSize (hne 1), paddingFor_eq hproto junkSize (hne 2)] at hpad
  refine prefixWrites_distinguished hfree packetPayload_distinguished ?_ hpad
  rw [List.length_replicate]

/-- The padding on the three send paths, with any imitation.
* Handshake messages and cookie replies: the padding for the message on the wire.
* Transport data: the padding for the header, the plaintext and the tag room.
* For transport data, the padding is the one for the wire, and equal wires have
  equal padding, exactly at the seed-free sizes. -/
theorem padding_of_send_paths (proto : ImitateProto) (hproto : proto ≠ .none) (junkSize : ℕ) :
    (∀ env buffer d, buffer ≠ [] →
      wgSocketSendBufferToPeer env proto buffer junkSize = .ok d →
      d = paddingFor proto junkSize buffer ++ buffer) ∧
    (∀ env inSkb buffer d, buffer ≠ [] →
      wgSocketSendBufferAsReplyToSkb env proto inSkb buffer junkSize = .ok d →
      d = paddingFor proto junkSize buffer ++ buffer) ∧
    (∀ aead env messageType skb keypair d,
      encryptPacket aead env proto messageType junkSize skb keypair = some d →
      ∃ inner, env.checksum skb.data = some inner ∧
        d = paddingFor proto junkSize (plainPayload env messageType skb keypair inner) ++
          (messageDataHeader messageType skb keypair ++
            aead.encrypt keypair.key skb.nonce (paddedPlaintext skb inner))) ∧
    ((∀ aead d, EmitsTransport aead proto junkSize d →
        d.take junkSize = paddingFor proto junkSize (d.drop junkSize)) ↔
      SeedFree proto junkSize) ∧
    ((∀ aead d d', EmitsTransport aead proto junkSize d → EmitsTransport aead proto junkSize d' →
        d.drop junkSize = d'.drop junkSize → d.take junkSize = d'.take junkSize) ↔
      SeedFree proto junkSize) := by
  have hpair : (∀ aead d, EmitsTransport aead proto junkSize d →
      d.take junkSize = paddingFor proto junkSize (d.drop junkSize)) →
      ∀ aead d d', EmitsTransport aead proto junkSize d → EmitsTransport aead proto junkSize d' →
        d.drop junkSize = d'.drop junkSize → d.take junkSize = d'.take junkSize := by
    intro hwire aead d d' hd hd' hdrop
    rw [hwire aead d hd, hwire aead d' hd', hdrop]
  refine ⟨?_, ?_, ?_, ⟨?_, ?_⟩, ?_, ?_⟩
  · -- handshake messages
    intro env buffer d hbuffer h
    unfold wgSocketSendBufferToPeer at h
    split at h
    · cases h
      exact wgFillPadding_eq hproto _ _ _ hbuffer
    · cases h
  · -- cookie replies
    intro env inSkb buffer d hbuffer h
    unfold wgSocketSendBufferAsReplyToSkb at h
    split at h
    · cases h
    · cases h
    split at h
    · cases h
      exact wgFillPadding_eq hproto _ _ _ hbuffer
    · cases h
  · -- transport data
    intro aead env messageType skb keypair d h
    exact encryptPacket_eq hproto h
  · intro hwire
    exact seedFree_of_wire hproto (hpair hwire zeroAead)
  · intro hfree aead d h
    exact emitsTransport_seedFree hproto hfree h
  · intro h
    exact seedFree_of_wire hproto (h zeroAead)
  · intro hfree
    exact hpair fun aead d h => emitsTransport_seedFree hproto hfree h

/-- A socket environment that allocates, on cleared memory. -/
def plainSocket : SocketEnv := ⟨true, fun _ => 0, fun _ => 0⟩

theorem padding_of_send_paths_quic :
    (∃ d, wgSocketSendBufferToPeer plainSocket .quic [1] 1 = .ok d ∧
      d = paddingFor .quic 1 [1] ++ [1]) ∧
    ((∀ aead d, EmitsTransport aead .quic 1 d → d.take 1 = paddingFor .quic 1 (d.drop 1)) ↔
      SeedFree .quic 1) :=
  ⟨⟨_, rfl, (padding_of_send_paths .quic (by decide) 1).1 plainSocket [1] _ (by decide) rfl⟩,
    (padding_of_send_paths .quic (by decide) 1).2.2.2.1⟩

/-- One QUIC padding byte: two packets with the same bytes on the wire behind it get
different paddings, and neither is the one for the wire. -/
theorem transport_padding_not_from_wire :
    ∃ d d', encryptPacket zeroAead plainEnv .quic 4 1 (packetOf 1) ⟨0, []⟩ = some d ∧
      encryptPacket zeroAead plainEnv .quic 4 1 (packetOf 2) ⟨0, []⟩ = some d' ∧
      d.drop 1 = d'.drop 1 ∧ d.take 1 ≠ d'.take 1 ∧
      d.take 1 ≠ paddingFor .quic 1 (d.drop 1) := by
  refine ⟨_, _, rfl, rfl, ?_, ?_, ?_⟩
  · decide +kernel
  · decide +kernel
  · decide +kernel

end AmneziaWg
