import AmneziaWg.Send
import AmneziaWg.HandshakeQueue

/-!
# Encrypted packets and the timers of a peer

`wg_packet_create_data_done` sends the packets that `encrypt_packet` has finished
and tells the timers about it. A keepalive is a packet without plaintext; it must
not start the timer that ends in a new handshake. The sender recognises it by its
length on the wire, which is compared with that of an empty packet without the
S4 padding in front.

* **Model**: the send-side timers, `keepKeyFresh`, `wgPacketCreateDataDone`.
* **Run**: `walkSkbs_iff`.
* **Result**: `dataSent_iff_data`.
-/

namespace AmneziaWg

open Linux HandshakeQueue

/-! ## Model layer -/

/-- The timers of `struct wg_peer` that sending touches: when they expire, if pending. -/
structure PeerTimers where
  newHandshake : Option U64
  sendKeepalive : Option U64
  persistentKeepalive : Option U64
deriving DecidableEq, Repr

/-- What the timers read: the clock, the random draw, the peer and its device. -/
structure TimerEnv where
  jiffies : U64
  hz : U64
  rand : U32
  netifRunning : Bool
  isDead : Bool
  persistentKeepaliveInterval : U16

/-- `mod_peer_timer`: the new expiry of the timer. -/
def modPeerTimer (env : TimerEnv) (timer : Option U64) (expires : U64) : Option U64 :=
  if env.netifRunning ∧ ¬ env.isDead then some expires else timer

/-- `KEEPALIVE_TIMEOUT` and `REKEY_TIMEOUT`, in seconds. -/
def keepaliveTimeout : U64 := 10
def rekeyTimeout : U64 := 5

/-- `wg_timers_data_sent`: a pending timer keeps its expiry. -/
def wgTimersDataSent (env : TimerEnv) (t : PeerTimers) : PeerTimers :=
  if t.newHandshake.isSome then t
  else
    let jitter := env.rand.setWidth 64 % (env.hz / 3)
    let expires := env.jiffies + (keepaliveTimeout + rekeyTimeout) * env.hz + jitter
    { t with newHandshake := modPeerTimer env t.newHandshake expires }

def wgTimersAnyAuthenticatedPacketSent (t : PeerTimers) : PeerTimers :=
  { t with sendKeepalive := none }

def wgTimersAnyAuthenticatedPacketTraversal (env : TimerEnv) (t : PeerTimers) : PeerTimers :=
  if env.persistentKeepaliveInterval ≠ 0 then
    let expires := env.jiffies + env.persistentKeepaliveInterval.setWidth 64 * env.hz
    { t with persistentKeepalive := modPeerTimer env t.persistentKeepalive expires }
  else t

/-- The part of the current keypair that `keep_key_fresh` reads. -/
structure CurrentKeypair where
  sendingValid : Bool
  sendingCounter : U64
  iAmTheInitiator : Bool
  birthdate : U64

def rekeyAfterMessages : U64 := 1 <<< 60
def rekeyAfterTime : U64 := 120

/-- `keep_key_fresh`: does it ask for a new handshake? -/
def keepKeyFresh (now : U64) (keypair : Option CurrentKeypair) : Bool :=
  match keypair with
  | none => false
  | some k => k.sendingValid && (decide (rekeyAfterMessages < k.sendingCounter) ||
      k.iAmTheInitiator && wgBirthdateHasExpired now k.birthdate rekeyAfterTime)

/-- `message_data_len`: the length of a transport message, without padding in front. -/
def messageDataLen (plainLen : ℕ) : ℕ := noiseEncryptedLen plainLen + messageTransportSize

/-- The loop over the packets: `dataSent` at its end. `send` is whether
`wg_socket_send_skb_to_peer` succeeds on a datagram. -/
def walkSkbs (send : Bytes → Bool) : List Bytes → Bool → Bool
  | [], dataSent => dataSent
  | skb :: next, dataSent =>
    let isKeepalive := skb.length == messageDataLen 0
    walkSkbs send next (if send skb && !isKeepalive then true else dataSent)

/-- What a call leaves: the timers, whether it called `wg_timers_data_sent`, and whether
it asked for a handshake. -/
structure Done where
  timers : PeerTimers
  dataSent : Bool
  handshake : Bool
deriving DecidableEq, Repr

def wgPacketCreateDataDone (env : TimerEnv) (now : U64) (keypair : Option CurrentKeypair)
    (send : Bytes → Bool) (first : List Bytes) (t : PeerTimers) : Done :=
  let t := wgTimersAnyAuthenticatedPacketTraversal env t
  let t := wgTimersAnyAuthenticatedPacketSent t
  let dataSent := walkSkbs send first false
  let t := if dataSent then wgTimersDataSent env t else t
  ⟨t, dataSent, keepKeyFresh now keypair⟩

/-- A packet that `encrypt_packet` has finished. The padding is what S4 was then. -/
structure EncryptedPacket (aead : Aead) where
  env : CryptEnv
  proto : ImitateProto
  messageType : U32
  junkSize : ℕ
  skb : DataSkb
  keypair : SendingKeypair
  datagram : Bytes
  encrypted : encryptPacket aead env proto messageType junkSize skb keypair = some datagram

/-- There was something to send before padding. -/
def EncryptedPacket.HasData {aead : Aead} (p : EncryptedPacket aead) : Prop := p.skb.data ≠ []

/-! ## The loop -/

/-- The loop ends with `data_sent` if it started so, or if some packet that was sent does
not have the length of an empty one. -/
theorem walkSkbs_iff (send : Bytes → Bool) (skbs : List Bytes) (dataSent : Bool) :
    walkSkbs send skbs dataSent = true ↔
      dataSent = true ∨ ∃ skb ∈ skbs, send skb = true ∧ skb.length ≠ messageDataLen 0 := by
  induction skbs generalizing dataSent with
  | nil =>
    constructor
    · exact Or.inl
    · rintro (h | ⟨skb, hskb, -⟩)
      · exact h
      · cases hskb
  | cons skb next ih =>
    have hflag : ((if send skb && !(skb.length == messageDataLen 0) then true else dataSent) = true) ↔
        dataSent = true ∨ send skb = true ∧ skb.length ≠ messageDataLen 0 := by
      cases send skb <;> cases dataSent <;> simp
    rw [walkSkbs, ih, hflag, List.exists_mem_cons_iff, or_assoc]

/-! ## The length of an encrypted packet -/

section Length

variable {aead : Aead}

theorem calculateSkbPadding_zero (mtu : ℕ) : calculateSkbPadding 0 mtu = 0 := by
  unfold calculateSkbPadding
  split
  · rfl
  · -- the last unit is empty, and so is its alignment
    have hunit : (if 0 > mtu then 0 % mtu else 0) = 0 := if_neg (Nat.not_lt_zero mtu)
    dsimp only
    rw [hunit]
    exact Nat.min_zero mtu

/-- The padding in front, the header, the padded plaintext and the tag. -/
theorem EncryptedPacket.length_datagram (p : EncryptedPacket aead) :
    p.datagram.length = p.junkSize + messageDataLen
      (p.skb.data.length + calculateSkbPadding p.skb.data.length p.skb.mtu) := by
  rcases encryptPacket_wire p.encrypted with ⟨inner, padding, hinner, hpadding, hd⟩
  rw [hd, List.length_append, List.length_append, aead.length_encrypt, length_messageDataHeader,
    paddedPlaintext, List.length_append, List.length_replicate, p.env.checksum_length hinner,
    hpadding, messageDataLen, noiseEncryptedLen, noiseAuthtagLen, messageTransportSize_eq]
  omega

/-- A packet has the length of an empty one exactly if it is empty and nothing is in front. -/
theorem EncryptedPacket.length_eq_iff (p : EncryptedPacket aead) :
    p.datagram.length = messageDataLen 0 ↔ ¬ p.HasData ∧ p.junkSize = 0 := by
  rw [p.length_datagram, EncryptedPacket.HasData, not_not, ← List.length_eq_zero_iff,
    messageDataLen, messageDataLen, noiseEncryptedLen, noiseEncryptedLen]
  constructor
  · intro h
    omega
  · rintro ⟨hdata, hjunk⟩
    rw [hdata, hjunk, calculateSkbPadding_zero, Nat.zero_add, Nat.zero_add]

end Length

/-! ## Result -/

section Result

variable {aead : Aead} (env : TimerEnv) (now : U64) (keypair : Option CurrentKeypair)
  {send : Bytes → Bool} {packets : List (EncryptedPacket aead)}

/-- Whether `wg_timers_data_sent` is called: for data, and for padded keepalives. -/
theorem dataSent_iff (hsend : ∀ p ∈ packets, send p.datagram = true) (t : PeerTimers) :
    (wgPacketCreateDataDone env now keypair send (packets.map (·.datagram)) t).dataSent = true ↔
      ∃ p ∈ packets, p.HasData ∨ p.junkSize ≠ 0 := by
  have hlen : ∀ p ∈ packets, (send p.datagram = true ∧ p.datagram.length ≠ messageDataLen 0) ↔
      (p.HasData ∨ p.junkSize ≠ 0) := by
    intro p hp
    rw [ne_eq, p.length_eq_iff]
    have := hsend p hp
    tauto
  show walkSkbs send (packets.map (·.datagram)) false = true ↔ _
  rw [walkSkbs_iff]
  constructor
  · rintro (h | ⟨skb, hskb, h⟩)
    · cases h
    · rcases List.mem_map.mp hskb with ⟨p, hp, rfl⟩
      exact ⟨p, hp, (hlen p hp).mp h⟩
  · rintro ⟨p, hp, h⟩
    exact Or.inr ⟨p.datagram, List.mem_map_of_mem hp, (hlen p hp).mpr h⟩

/-- The handshake timer is started by `wg_timers_data_sent` only. -/
theorem newHandshake_of_not_dataSent {skbs : List Bytes} {t : PeerTimers}
    (h : (wgPacketCreateDataDone env now keypair send skbs t).dataSent = false) :
    (wgPacketCreateDataDone env now keypair send skbs t).timers.newHandshake = t.newHandshake := by
  have hwalk : walkSkbs send skbs false = false := h
  unfold wgPacketCreateDataDone
  dsimp only
  rw [hwalk]
  show (wgTimersAnyAuthenticatedPacketTraversal env t).newHandshake = t.newHandshake
  unfold wgTimersAnyAuthenticatedPacketTraversal
  split <;> rfl

/-- For packets that were all sent: `wg_timers_data_sent` is called exactly for lists with
data, and a list of keepalives leaves the handshake timer alone, provided that S4 was zero
for every packet or that there was data anyway; with padded keepalives alone it is called. -/
theorem dataSent_iff_data (hsend : ∀ p ∈ packets, send p.datagram = true) (t : PeerTimers) :
    let done := wgPacketCreateDataDone env now keypair send (packets.map (·.datagram)) t
    ((done.dataSent = true ↔ ∃ p ∈ packets, p.HasData) ↔
      (∀ p ∈ packets, p.junkSize = 0) ∨ ∃ p ∈ packets, p.HasData) ∧
    ((∀ p ∈ packets, ¬ p.HasData ∧ p.junkSize = 0) →
      done.timers.newHandshake = t.newHandshake) := by
  intro done
  have hsent := dataSent_iff env now keypair hsend t
  constructor
  · rw [hsent]
    constructor
    · intro h
      by_contra hnot
      rw [not_or, not_forall] at hnot
      -- a padded packet, and no data: the two sides differ
      rcases hnot with ⟨⟨p, hp⟩, hdata⟩
      rw [Classical.not_imp] at hp
      exact hdata (h.mp ⟨p, hp.1, Or.inr hp.2⟩)
    · rintro (hzero | hdata)
      · constructor
        · rintro ⟨p, hp, hor⟩
          exact ⟨p, hp, hor.resolve_right (not_not.mpr (hzero p hp))⟩
        · rintro ⟨p, hp, hpd⟩
          exact ⟨p, hp, Or.inl hpd⟩
      · refine iff_of_true ?_ hdata
        rcases hdata with ⟨p, hp, hpd⟩
        exact ⟨p, hp, Or.inl hpd⟩
  · intro hquiet
    apply newHandshake_of_not_dataSent
    rw [← Bool.not_eq_true, hsent]
    rintro ⟨p, hp, hor⟩
    rcases hor with hpd | hjunk
    · exact (hquiet p hp).1 hpd
    · exact hjunk (hquiet p hp).2

end Result

/-- A packet encrypted with this S4; without data it is the keepalive of
`wg_packet_send_keepalive`. -/
def plainPacket (junkSize : ℕ) (data : Bytes) : EncryptedPacket zeroAead :=
  ⟨plainEnv, .none, 4, junkSize, ⟨data, 1420, 0⟩, ⟨0, []⟩, _, rfl⟩

/-- A clock at 1000 jiffies, for a running device and a peer without timers. -/
def quietEnv : TimerEnv := ⟨1000, 100, 0, true, false, 0⟩
def noTimers : PeerTimers := ⟨none, none, none⟩

/-- A keepalive and a packet with data, and a keepalive alone, without padding. -/
theorem dataSent_iff_data_unpadded :
    let pair := [plainPacket 0 [], plainPacket 0 [1]]
    let done (packets : List (EncryptedPacket zeroAead)) := wgPacketCreateDataDone quietEnv 0 none
      (fun _ => true) (packets.map (·.datagram)) noTimers
    ((done pair).dataSent = true ↔ ∃ p ∈ pair, p.HasData) ∧
      (done [plainPacket 0 []]).timers.newHandshake = none := by
  constructor
  · refine (dataSent_iff_data quietEnv 0 none (fun _ _ => rfl) noTimers).1.mpr (Or.inl ?_)
    intro p hp
    rcases List.mem_pair.mp hp with rfl | rfl <;> rfl
  · refine (dataSent_iff_data quietEnv 0 none (fun _ _ => rfl) noTimers).2 ?_
    intro p hp
    rw [List.mem_singleton.mp hp]
    exact ⟨not_not.mpr rfl, rfl⟩

/-- A keepalive with one byte of padding arms the handshake timer. -/
theorem keepalive_arms_newHandshake :
    let done := wgPacketCreateDataDone quietEnv 0 none (fun _ => true)
      ([plainPacket 1 []].map (·.datagram)) noTimers
    (∀ p ∈ [plainPacket 1 []], ¬ p.HasData) ∧ done.dataSent = true ∧
      done.timers.newHandshake = some 2500 := by
  refine ⟨?_, rfl, rfl⟩
  intro p hp
  rw [List.mem_singleton.mp hp]
  exact not_not.mpr rfl

end AmneziaWg
