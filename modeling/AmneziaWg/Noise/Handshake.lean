import AmneziaWg.Noise.Symmetric
import AmneziaWg.PeerLookup
import AmneziaWg.Device

/-!
# The handshake

The handshake of a peer and the functions of `noise.c` that drive it: an initiation is
created and consumed, then a response, and both sides begin a session. Each function
is cut at its locked sections, so that the same definitions serve a sequential run and
an interleaving.

* **Model**: `Host`, `wgNoiseHandshakeCreateInitiation`, `wgNoiseHandshakeConsumeInitiation`,
  `wgNoiseHandshakeCreateResponse`, `wgNoiseHandshakeConsumeResponse`,
  `wgNoiseHandshakeBeginSession`.
-/

namespace AmneziaWg.Noise

open Linux

/-! ## State -/

/-- `struct noise_static_identity`. -/
structure NoiseStaticIdentity where
  staticPublic : Bytes
  staticPrivate : Bytes
  hasIdentity : Bool
deriving DecidableEq, Repr

/-- `enum noise_handshake_state`. -/
inductive HandshakeState where
  | zeroed
  | createdInitiation
  | consumedInitiation
  | createdResponse
  | consumedResponse
deriving DecidableEq, Repr

/-- `struct noise_handshake`; `index` is the one of its entry in the index table. -/
structure NoiseHandshake where
  index : U32
  state : HandshakeState
  lastInitiationConsumption : U64
  ephemeralPrivate : Bytes
  remoteStatic : Bytes
  remoteEphemeral : Bytes
  precomputedStaticStatic : Bytes
  presharedKey : Bytes
  sym : Symmetric
  latestTimestamp : Bytes
  remoteIndex : U32
deriving DecidableEq, Repr

/-- `struct noise_symmetric_key`. -/
structure NoiseSymmetricKey where
  key : Bytes
  birthdate : U64
  isValid : Bool
deriving DecidableEq, Repr

/-- `struct noise_keypair`, but for its counters. -/
structure NoiseKeypair where
  index : U32
  sending : NoiseSymmetricKey
  receiving : NoiseSymmetricKey
  remoteIndex : U32
  iAmTheInitiator : Bool
  /-- A put of a keypair without references is counted too, and leaves a negative number. -/
  refcount : ℤ
deriving DecidableEq, Repr

/-- `struct noise_keypairs`: the slots hold keypairs by their `internal_id`. -/
structure NoiseKeypairs where
  current : Option ℕ
  previous : Option ℕ
  next : Option ℕ
deriving DecidableEq, Repr

/-- `struct wg_peer`, as far as the handshake uses it. -/
structure WgPeer where
  handshake : NoiseHandshake
  keypairs : NoiseKeypairs
  isDead : Bool
  advancedSecurity : Bool
deriving DecidableEq, Repr

/-- A device: its configuration, identity, peers, tables and keypairs. -/
structure Host where
  wg : WgDevice
  staticIdentity : NoiseStaticIdentity
  /-- `peer_hashtable`: the peer with a public key. -/
  peerHashtable : Bytes → Option ℕ
  peers : ℕ → WgPeer
  indexHashtable : IndexHashtable
  keypairs : ℕ → NoiseKeypair
  keypairCounter : ℕ

namespace Host

def handshake (host : Host) (p : ℕ) : NoiseHandshake := (host.peers p).handshake

def setPeer (host : Host) (p : ℕ) (peer : WgPeer) : Host :=
  { host with peers := Function.update host.peers p peer }

def setHandshake (host : Host) (p : ℕ) (h : NoiseHandshake) : Host :=
  host.setPeer p { host.peers p with handshake := h }

@[simp] theorem setPeer_peers_self (host : Host) (p : ℕ) (peer : WgPeer) :
    (host.setPeer p peer).peers p = peer := Function.update_self ..

@[simp] theorem handshake_setHandshake (host : Host) (p : ℕ) (h : NoiseHandshake) :
    (host.setHandshake p h).handshake p = h := by
  rw [handshake, setHandshake, setPeer_peers_self]

@[simp] theorem isDead_setHandshake (host : Host) (p : ℕ) (h : NoiseHandshake) :
    ((host.setHandshake p h).peers p).isDead = (host.peers p).isDead := by
  rw [setHandshake, setPeer_peers_self]

end Host

/-- `wg_noise_set_static_identity_private_key`. -/
def wgNoiseSetStaticIdentityPrivateKey (P : Primitives) (privateKey : Bytes)
    (id : NoiseStaticIdentity) : NoiseStaticIdentity where
  staticPrivate := curve25519ClampSecret privateKey
  staticPublic := if privateKey = nullPoint then id.staticPublic
    else P.x25519 privateKey P.basepoint
  hasIdentity := (curve25519GeneratePublic P privateKey).isSome

/-- `wg_noise_precompute_static_static`. -/
def wgNoisePrecomputeStaticStatic (P : Primitives) (id : NoiseStaticIdentity)
    (h : NoiseHandshake) : NoiseHandshake :=
  { h with precomputedStaticStatic :=
      if id.hasIdentity then (curve25519 P id.staticPrivate h.remoteStatic).getD nullPoint
      else nullPoint }

/-- `wg_noise_handshake_init`. -/
def wgNoiseHandshakeInit (P : Primitives) (id : NoiseStaticIdentity) (peerPublicKey : Bytes)
    (peerPresharedKey : Option Bytes) : NoiseHandshake :=
  let zero : Bytes := List.replicate 32 0
  wgNoisePrecomputeStaticStatic P id
    { index := 0, state := .zeroed, lastInitiationConsumption := 0, ephemeralPrivate := zero,
      remoteStatic := peerPublicKey, remoteEphemeral := zero, precomputedStaticStatic := zero,
      presharedKey := peerPresharedKey.getD zero, sym := ⟨zero, zero⟩,
      latestTimestamp := List.replicate noiseTimestampLen 0, remoteIndex := 0 }

/-! ## Messages -/

/-- `struct message_handshake_initiation` without its MACs. -/
structure MessageHandshakeInitiation where
  type : U32
  senderIndex : U32
  unencryptedEphemeral : Bytes
  encryptedStatic : Bytes
  encryptedTimestamp : Bytes
deriving DecidableEq, Repr

/-- `struct message_handshake_response` without its MACs. -/
structure MessageHandshakeResponse where
  type : U32
  senderIndex : U32
  receiverIndex : U32
  unencryptedEphemeral : Bytes
  encryptedNothing : Bytes
deriving DecidableEq, Repr

/-- `struct timespec64`. -/
structure Timespec where
  sec : U64
  nsec : U32
deriving DecidableEq, Repr

/-- `tai64n_now`. The nanoseconds are rounded down to a multiple of the largest power of
two below the interval between initiations, `2 ^ 24`. -/
def tai64nNow (now : Timespec) : Bytes :=
  let sec := 0x400000000000000a + now.sec
  be32 ((sec >>> 32).setWidth 32) ++ be32 (sec.setWidth 32) ++ be32 (now.nsec &&& 0xff000000)

/-- What the creation of a message depends on: the type word, the random bytes of the
ephemeral, the clock and the random words drawn for the index. -/
structure CreateEnv where
  messageType : U32
  random : Bytes
  now : Timespec
  draws : List U32
deriving DecidableEq, Repr

/-! ## Initiations -/

variable (P : Primitives)

/-- The encrypted part of an initiation. -/
structure InitiationBody where
  ephemeral : Bytes
  encryptedStatic : Bytes
  encryptedTimestamp : Bytes

/-- `e, es, s, ss, {t}` on the initiator's side. A failure keeps what is written so far. -/
def writeInitiation (id : NoiseStaticIdentity) (env : CreateEnv) (h : NoiseHandshake) :
    NoiseHandshake × Option InitiationBody :=
  let h := { h with
    sym := handshakeInit P h.remoteStatic, ephemeralPrivate := curve25519ClampSecret env.random }
  match curve25519GeneratePublic P h.ephemeralPrivate with
  | none => (h, none)
  | some e =>
    let sym := messageEphemeral P e h.sym
    match mixDh P sym.chainingKey h.ephemeralPrivate h.remoteStatic with
    | none => ({ h with sym := sym }, none)
    | some (ck, key) =>
      let (encryptedStatic, hash) := messageEncrypt P id.staticPublic key sym.hash
      match mixPrecomputedDh P ck h.precomputedStaticStatic with
      | none => ({ h with sym := ⟨ck, hash⟩ }, none)
      | some (ck, key) =>
        let (encryptedTimestamp, hash) := messageEncrypt P (tai64nNow env.now) key hash
        ({ h with sym := ⟨ck, hash⟩ }, some ⟨e, encryptedStatic, encryptedTimestamp⟩)

/-- `wg_noise_handshake_create_initiation`. `none` if the draws do not reach an unused
index. -/
def wgNoiseHandshakeCreateInitiation (env : CreateEnv) (p : ℕ) (host : Host) :
    Option (Host × Option MessageHandshakeInitiation) :=
  if ¬ host.staticIdentity.hasIdentity then some (host, none)
  else
    match writeInitiation P host.staticIdentity env (host.handshake p) with
    | (h, none) => some (host.setHandshake p h, none)
    | (h, some body) =>
      (wgIndexHashtableInsert host.indexHashtable (.handshake p) env.draws).map
        fun (index, table) =>
          ({ host.setHandshake p { h with index := index, state := .createdInitiation } with
              indexHashtable := table },
            some ⟨env.messageType, index, body.ephemeral, body.encryptedStatic,
              body.encryptedTimestamp⟩)

/-- An initiation that was decrypted: the peer, the ephemeral, the timestamp, the state. -/
structure ReadInitiation where
  peer : ℕ
  ephemeral : Bytes
  timestamp : Bytes
  sym : Symmetric

/-- The first part of `wg_noise_handshake_consume_initiation`, up to the timestamp. Whether
the peer uses the obfuscated header is noted as soon as the peer is known. -/
def readInitiation (src : MessageHandshakeInitiation) (host : Host) :
    Host × Option ReadInitiation :=
  if ¬ host.staticIdentity.hasIdentity then (host, none)
  else
    let e := src.unencryptedEphemeral
    let sym := messageEphemeral P e (handshakeInit P host.staticIdentity.staticPublic)
    match mixDh P sym.chainingKey host.staticIdentity.staticPrivate e with
    | none => (host, none)
    | some (ck, key) =>
      match messageDecrypt P src.encryptedStatic key sym.hash with
      | none => (host, none)
      | some (s, hash) =>
        match host.peerHashtable s with
        | none => (host, none)
        | some p =>
          let host := host.setPeer p { host.peers p with
            advancedSecurity := host.wg.advancedSecurity &&
              decide (mhValidate src.type (host.wg.headers .init)) }
          match mixPrecomputedDh P ck (host.handshake p).precomputedStaticStatic with
          | none => (host, none)
          | some (ck, key) =>
            match messageDecrypt P src.encryptedTimestamp key hash with
            | none => (host, none)
            | some (t, hash) => (host, some ⟨p, e, t, ⟨ck, hash⟩⟩)

/-- `NSEC_PER_SEC / INITIATIONS_PER_SECOND`. -/
def initiationInterval : U64 := 1000000000 / 50

/-- `replay_attack || flood_attack`, under the read lock. -/
def Rejected (h : NoiseHandshake) (t : Bytes) (now : U64) : Prop :=
  memcmp t h.latestTimestamp ≠ .gt ∨
    now.slt (h.lastInitiationConsumption + initiationInterval)

instance (h : NoiseHandshake) (t : Bytes) (now : U64) : Decidable (Rejected h t now) :=
  inferInstanceAs (Decidable (_ ∨ _))

/-- The commit of an initiation, under the write lock. -/
def commitInitiation (src : MessageHandshakeInitiation) (r : ReadInitiation) (now : U64)
    (h : NoiseHandshake) : NoiseHandshake :=
  { h with
    remoteEphemeral := r.ephemeral
    latestTimestamp :=
      if memcmp r.timestamp h.latestTimestamp = .gt then r.timestamp else h.latestTimestamp
    sym := r.sym
    remoteIndex := src.senderIndex
    lastInitiationConsumption :=
      if (h.lastInitiationConsumption - now).slt 0 then now else h.lastInitiationConsumption
    state := .consumedInitiation }

/-- `wg_noise_handshake_consume_initiation`, with the clock at the check and at the commit. -/
def wgNoiseHandshakeConsumeInitiation (src : MessageHandshakeInitiation) (checked committed : U64)
    (host : Host) : Host × Option ℕ :=
  match readInitiation P src host with
  | (host, none) => (host, none)
  | (host, some r) =>
    if Rejected (host.handshake r.peer) r.timestamp checked then (host, none)
    else
      (host.setHandshake r.peer (commitInitiation src r committed (host.handshake r.peer)),
        some r.peer)

/-! ## Responses -/

/-- The encrypted part of a response. -/
structure ResponseBody where
  ephemeral : Bytes
  encryptedNothing : Bytes

/-- `e, ee, se, psk, {}` on the responder's side. A failure keeps what is written so far. -/
def writeResponse (env : CreateEnv) (h : NoiseHandshake) : NoiseHandshake × Option ResponseBody :=
  let h := { h with ephemeralPrivate := curve25519ClampSecret env.random }
  match curve25519GeneratePublic P h.ephemeralPrivate with
  | none => (h, none)
  | some e =>
    let sym := messageEphemeral P e h.sym
    match mixDh P sym.chainingKey h.ephemeralPrivate h.remoteEphemeral with
    | none => ({ h with sym := sym }, none)
    | some (ck, _) =>
      match mixDh P ck h.ephemeralPrivate h.remoteStatic with
      | none => ({ h with sym := ⟨ck, sym.hash⟩ }, none)
      | some (ck, _) =>
        let (sym, key) := mixPsk P ⟨ck, sym.hash⟩ h.presharedKey
        let (encryptedNothing, hash) := messageEncrypt P [] key sym.hash
        ({ h with sym := ⟨sym.chainingKey, hash⟩ }, some ⟨e, encryptedNothing⟩)

/-- `wg_noise_handshake_create_response`. `none` if the draws do not reach an unused index. -/
def wgNoiseHandshakeCreateResponse (env : CreateEnv) (p : ℕ) (host : Host) :
    Option (Host × Option MessageHandshakeResponse) :=
  if (host.handshake p).state ≠ .consumedInitiation then some (host, none)
  else
    match writeResponse P env (host.handshake p) with
    | (h, none) => some (host.setHandshake p h, none)
    | (h, some body) =>
      (wgIndexHashtableInsert host.indexHashtable (.handshake p) env.draws).map
        fun (index, table) =>
          ({ host.setHandshake p { h with index := index, state := .createdResponse } with
              indexHashtable := table },
            some ⟨env.messageType, index, h.remoteIndex, body.ephemeral, body.encryptedNothing⟩)

/-- `e, ee, se, psk, {}` on the initiator's side, from a copy of the handshake. -/
def readResponse (staticPrivate : Bytes) (src : MessageHandshakeResponse)
    (copy : NoiseHandshake) : Option Symmetric :=
  let e := src.unencryptedEphemeral
  let sym := messageEphemeral P e copy.sym
  match mixDh P sym.chainingKey copy.ephemeralPrivate e with
  | none => none
  | some (ck, _) =>
    match mixDh P ck staticPrivate e with
    | none => none
    | some (ck, _) =>
      let (sym, key) := mixPsk P ⟨ck, sym.hash⟩ copy.presharedKey
      match messageDecrypt P src.encryptedNothing key sym.hash with
      | none => none
      | some (_, hash) => some ⟨sym.chainingKey, hash⟩

/-- A response between the two locked sections: the peer that was looked up, the state
that was copied, and what the response was decrypted to. -/
structure PendingResponse where
  peer : ℕ
  state : HandshakeState
  sym : Symmetric

/-- The first part of `wg_noise_handshake_consume_response`: look up the handshake, copy it
under the read lock, and decrypt the response with the copy. -/
def copyAndReadResponse (src : MessageHandshakeResponse) (host : Host) :
    Option PendingResponse :=
  if ¬ host.staticIdentity.hasIdentity then none
  else
    match lookupHandshake host.indexHashtable src.receiverIndex with
    | none => none
    | some p =>
      let copy := host.handshake p
      if copy.state ≠ .createdInitiation then none
      else
        (readResponse P host.staticIdentity.staticPrivate src copy).map fun sym =>
          ⟨p, copy.state, sym⟩

/-- The second part, under the write lock: the commit, if the state is still the same. -/
def commitResponse (src : MessageHandshakeResponse) (r : PendingResponse) (host : Host) :
    Host × Option ℕ :=
  let h := host.handshake r.peer
  if h.state ≠ r.state then (host, none)
  else
    (host.setHandshake r.peer { h with
        remoteEphemeral := src.unencryptedEphemeral
        sym := r.sym
        remoteIndex := src.senderIndex
        state := .consumedResponse },
      some r.peer)

/-- `wg_noise_handshake_consume_response` without interruption. -/
def wgNoiseHandshakeConsumeResponse (src : MessageHandshakeResponse) (host : Host) :
    Host × Option ℕ :=
  match copyAndReadResponse P src host with
  | none => (host, none)
  | some r => commitResponse src r host

/-! ## Sessions -/

/-- `handshake_zero`. -/
def handshakeZero (h : NoiseHandshake) : NoiseHandshake :=
  { h with
    ephemeralPrivate := List.replicate noisePublicKeyLen 0
    remoteEphemeral := List.replicate noisePublicKeyLen 0
    sym := ⟨List.replicate noiseHashLen 0, List.replicate noiseHashLen 0⟩
    remoteIndex := 0
    state := .zeroed }

/-- `derive_keys`: the first and the second key. -/
def deriveKeys (now : U64) (chainingKey : Bytes) : NoiseSymmetricKey × NoiseSymmetricKey :=
  let out := kdf P [] chainingKey
  (⟨out.first, now, true⟩, ⟨out.second, now, true⟩)

/-- `wg_noise_keypair_put`; the last reference unlinks the keypair too. -/
def wgNoiseKeypairPut (keypair : Option ℕ) (unreferenceNow : Bool) (host : Host) : Host :=
  match keypair with
  | none => host
  | some id =>
    let refcount := (host.keypairs id).refcount - 1
    { host with
      keypairs := Function.update host.keypairs id { host.keypairs id with refcount := refcount }
      indexHashtable :=
        if unreferenceNow ∨ refcount = 0 then
          wgIndexHashtableRemove host.indexHashtable (.keypair id)
        else host.indexHashtable }

def Host.setKeypairs (host : Host) (p : ℕ) (slots : NoiseKeypairs) : Host :=
  host.setPeer p { host.peers p with keypairs := slots }

/-- `add_new_keypair`. -/
def addNewKeypair (p id : ℕ) (host : Host) : Host :=
  let slots := (host.peers p).keypairs
  if (host.keypairs id).iAmTheInitiator then
    match slots.next with
    | some next =>
      let host := host.setKeypairs p ⟨some id, some next, none⟩
      wgNoiseKeypairPut slots.previous true (wgNoiseKeypairPut slots.current true host)
    | none =>
      let host := host.setKeypairs p ⟨some id, slots.current, none⟩
      wgNoiseKeypairPut slots.previous true host
  else
    let host := host.setKeypairs p ⟨slots.current, none, some id⟩
    wgNoiseKeypairPut slots.previous true (wgNoiseKeypairPut slots.next true host)

/-- The keypair that `begin_session` fills in, before it has an index. -/
def newKeypair (now : U64) (h : NoiseHandshake) : NoiseKeypair :=
  let keys := deriveKeys P now h.sym.chainingKey
  let initiator := decide (h.state = .consumedResponse)
  { index := 0
    sending := if initiator then keys.1 else keys.2
    receiving := if initiator then keys.2 else keys.1
    remoteIndex := h.remoteIndex
    iAmTheInitiator := initiator
    refcount := 1 }

/-- The end of `begin_session` for a live peer: the keypair takes the place of the
handshake in the index table, if that is linked. -/
def enterKeypair (p id : ℕ) (host : Host) : Host × Bool :=
  match wgIndexHashtableReplace host.indexHashtable (.handshake p) (.keypair id) with
  | none => (host, false)
  | some (index, table) =>
    ({ host with
        indexHashtable := table
        keypairs := Function.update host.keypairs id { host.keypairs id with index := index } },
      true)

/-- The host once `begin_session` has filled in the keypair and zeroed the handshake. -/
def withKeypair (now : U64) (p : ℕ) (host : Host) : Host :=
  let h := host.handshake p
  { host.setHandshake p (handshakeZero h) with
    keypairs := Function.update host.keypairs (host.keypairCounter + 1) (newKeypair P now h)
    keypairCounter := host.keypairCounter + 1 }

/-- `wg_noise_handshake_begin_session`. `allocated` is false if there is no memory for the
keypair. -/
def wgNoiseHandshakeBeginSession (now : U64) (allocated : Bool) (p : ℕ) (host : Host) :
    Host × Bool :=
  let h := host.handshake p
  if h.state ≠ .createdResponse ∧ h.state ≠ .consumedResponse then (host, false)
  else if ¬ allocated then (host, false)
  else
    let host := withKeypair P now p host
    if (host.peers p).isDead then (host, false)
    else enterKeypair p host.keypairCounter (addNewKeypair p host.keypairCounter host)

/-! ## What the sections change -/

section Sections

variable {P} {env : CreateEnv} {p : ℕ} {host host' : Host}

variable (P env) in
/-- Writing an initiation touches the keys only. -/
theorem writeInitiation_frame (id : NoiseStaticIdentity) (h : NoiseHandshake) :
    (writeInitiation P id env h).1.index = h.index ∧ (writeInitiation P id env h).1.state = h.state ∧
      (writeInitiation P id env h).1.remoteIndex = h.remoteIndex := by
  unfold writeInitiation
  dsimp only
  split
  · exact ⟨rfl, rfl, rfl⟩
  split
  · exact ⟨rfl, rfl, rfl⟩
  split <;> exact ⟨rfl, rfl, rfl⟩

/-- A failed creation leaves index, state and entry; a successful one gives the handshake a
new index. -/
theorem createInitiation_cases {r : Option MessageHandshakeInitiation}
    (h : wgNoiseHandshakeCreateInitiation P env p host = some (host', r)) :
    (r = none ∧ host'.indexHashtable = host.indexHashtable ∧
      (host'.handshake p).index = (host.handshake p).index ∧
      (host'.handshake p).state = (host.handshake p).state ∧
      (host'.handshake p).remoteIndex = (host.handshake p).remoteIndex) ∨
    (∃ m, r = some m ∧ (host'.handshake p).state = .createdInitiation ∧
      host'.indexHashtable = ((host'.handshake p).index, .handshake p) ::
        wgIndexHashtableRemove host.indexHashtable (.handshake p)) := by
  unfold wgNoiseHandshakeCreateInitiation at h
  split at h
  · cases h
    exact .inl ⟨rfl, rfl, rfl, rfl, rfl⟩
  have hframe := writeInitiation_frame P env host.staticIdentity (host.handshake p)
  split at h
  · next written hwrite =>
    cases h
    rw [hwrite] at hframe
    rw [Host.handshake_setHandshake]
    exact .inl ⟨rfl, rfl, hframe⟩
  · next written body hwrite =>
    rcases Option.map_eq_some_iff.mp h with ⟨⟨index, table⟩, hinsert, heq⟩
    cases heq
    rcases insert_some hinsert with ⟨-, htable, -⟩
    have hhandshake : Host.handshake { host.setHandshake p { written with
        index := index, state := .createdInitiation } with indexHashtable := table } p =
        { written with index := index, state := .createdInitiation } :=
      Host.handshake_setHandshake ..
    rw [hhandshake]
    exact .inr ⟨_, rfl, rfl, htable⟩

/-- A response carries the indices that the responder has recorded. -/
theorem createResponse_some {r : MessageHandshakeResponse}
    (h : wgNoiseHandshakeCreateResponse P env p host = some (host', some r)) :
    r.receiverIndex = (host'.handshake p).remoteIndex ∧
      r.senderIndex = (host'.handshake p).index := by
  unfold wgNoiseHandshakeCreateResponse at h
  split at h
  · cases h
  split at h
  · cases h
  · next written body hwrite =>
    rcases Option.map_eq_some_iff.mp h with ⟨⟨index, table⟩, -, heq⟩
    cases heq
    have hhandshake : Host.handshake { host.setHandshake p { written with
        index := index, state := .createdResponse } with indexHashtable := table } p =
        { written with index := index, state := .createdResponse } :=
      Host.handshake_setHandshake ..
    rw [hhandshake]
    exact ⟨rfl, rfl⟩

/-- A response is read with the handshake that is linked under its receiver index. -/
theorem copyAndReadResponse_some {src : MessageHandshakeResponse} {r : PendingResponse}
    (h : copyAndReadResponse P src host = some r) :
    (src.receiverIndex, .handshake r.peer) ∈ host.indexHashtable ∧
      r.state = .createdInitiation := by
  unfold copyAndReadResponse at h
  split at h
  · cases h
  split at h
  · cases h
  next q hlookup =>
  dsimp only at h
  split at h
  · cases h
  next hstate =>
  rcases Option.map_eq_some_iff.mp h with ⟨sym, -, rfl⟩
  exact ⟨lookupHandshake_some hlookup, not_not.mp hstate⟩

/-- A commit in an unchanged state replaces the keys and the remote index. -/
theorem commitResponse_cases (src : MessageHandshakeResponse) (r : PendingResponse) (host : Host) :
    ((host.handshake r.peer).state ≠ r.state ∧ commitResponse src r host = (host, none)) ∨
    ((host.handshake r.peer).state = r.state ∧ ∃ host',
      commitResponse src r host = (host', some r.peer) ∧
      host'.indexHashtable = host.indexHashtable ∧
      (host'.handshake r.peer).index = (host.handshake r.peer).index ∧
      (host'.handshake r.peer).state = .consumedResponse ∧
      (host'.handshake r.peer).remoteIndex = src.senderIndex) := by
  unfold commitResponse
  dsimp only
  split
  · next hstate => exact .inl ⟨hstate, rfl⟩
  · next hstate =>
    refine .inr ⟨not_not.mp hstate, _, rfl, rfl, ?_⟩
    rw [Host.handshake_setHandshake]
    exact ⟨rfl, rfl, rfl⟩

end Sections

/-! ## What a session is made of -/

/-- Two keypairs with the same keys, role and remote index. -/
structure SameKeys (k k' : NoiseKeypair) : Prop where
  sending : k'.sending = k.sending
  receiving : k'.receiving = k.receiving
  remoteIndex : k'.remoteIndex = k.remoteIndex
  iAmTheInitiator : k'.iAmTheInitiator = k.iAmTheInitiator

/-- What giving up references leaves alone: the peers, the handshakes in the index table,
and all of the keypairs but their reference counts. -/
structure Released (host host' : Host) : Prop where
  peers : host'.peers = host.peers
  linked : ∀ q i, (i, .handshake q) ∈ host'.indexHashtable ↔ (i, .handshake q) ∈ host.indexHashtable
  keys : ∀ id, SameKeys (host.keypairs id) (host'.keypairs id)

theorem Released.trans {a b c : Host} (hab : Released a b) (hbc : Released b c) : Released a c where
  peers := hbc.peers.trans hab.peers
  linked q i := (hbc.linked q i).trans (hab.linked q i)
  keys id :=
    ⟨(hbc.keys id).sending.trans (hab.keys id).sending,
      (hbc.keys id).receiving.trans (hab.keys id).receiving,
      (hbc.keys id).remoteIndex.trans (hab.keys id).remoteIndex,
      (hbc.keys id).iAmTheInitiator.trans (hab.keys id).iAmTheInitiator⟩

theorem released_put (keypair : Option ℕ) (unreferenceNow : Bool) (host : Host) :
    Released host (wgNoiseKeypairPut keypair unreferenceNow host) := by
  cases keypair with
  | none => exact ⟨rfl, fun _ _ => Iff.rfl, fun _ => ⟨rfl, rfl, rfl, rfl⟩⟩
  | some id =>
    refine ⟨rfl, ?_, ?_⟩
    · intro q i
      dsimp only [wgNoiseKeypairPut]
      split
      · -- a keypair is unlinked, not a handshake
        rw [mem_remove]
        exact and_iff_left (by intro h; cases h)
      · exact Iff.rfl
    · intro id'
      dsimp only [wgNoiseKeypairPut]
      by_cases hid : id' = id
      · subst hid
        rw [Function.update_self]
        exact ⟨rfl, rfl, rfl, rfl⟩
      · rw [Function.update_of_ne hid]
        exact ⟨rfl, rfl, rfl, rfl⟩

/-- The slot that a new keypair goes to. -/
def NoiseKeypairs.Holds (slots : NoiseKeypairs) (initiator : Bool) (id : ℕ) : Prop :=
  if initiator then slots.current = some id else slots.next = some id

/-- The new keypair goes into its slot; apart from that, references are given up. -/
theorem addNewKeypair_released (p id : ℕ) (host : Host) :
    ∃ slots : NoiseKeypairs, slots.Holds (host.keypairs id).iAmTheInitiator id ∧
      Released (host.setKeypairs p slots) (addNewKeypair p id host) := by
  unfold addNewKeypair
  dsimp only
  split
  · next hinit =>
    split
    · exact ⟨_, by rw [hinit]; rfl, (released_put ..).trans (released_put ..)⟩
    · exact ⟨_, by rw [hinit]; rfl, released_put ..⟩
  · next hinit =>
    rw [Bool.not_eq_true] at hinit
    exact ⟨_, by rw [hinit]; rfl, (released_put ..).trans (released_put ..)⟩

/-- A new session of a peer. -/
structure Entered (now : U64) (p : ℕ) (host host' : Host) (id : ℕ) (index : U32) : Prop where
  /-- The index is the one of the handshake. -/
  linked : (index, .handshake p) ∈ host.indexHashtable
  index_eq : (host'.keypairs id).index = index
  entered : (index, .keypair id) ∈ host'.indexHashtable
  keys : SameKeys (newKeypair P now (host.handshake p)) (host'.keypairs id)
  slot : (host'.peers p).keypairs.Holds (newKeypair P now (host.handshake p)).iAmTheInitiator id
  unlinked : ∀ i, (i, .handshake p) ∉ host'.indexHashtable

theorem newKeypair_initiator {P : Primitives} (now : U64) {h : NoiseHandshake}
    (hstate : h.state = .consumedResponse) : (newKeypair P now h).iAmTheInitiator = true :=
  decide_eq_true hstate

theorem newKeypair_responder {P : Primitives} (now : U64) {h : NoiseHandshake}
    (hstate : h.state = .createdResponse) : (newKeypair P now h).iAmTheInitiator = false := by
  refine decide_eq_false ?_
  rw [hstate]
  decide

/-- The initiator uses the keypair at once. -/
theorem Entered.current {P : Primitives} {now : U64} {p id : ℕ} {host host' : Host} {index : U32}
    (h : Entered P now p host host' id index) (hstate : (host.handshake p).state = .consumedResponse) :
    (host'.peers p).keypairs.current = some id := by
  have hslot := h.slot
  rw [newKeypair_initiator now hstate] at hslot
  exact hslot

/-- The responder keeps it until it is confirmed. -/
theorem Entered.next {P : Primitives} {now : U64} {p id : ℕ} {host host' : Host} {index : U32}
    (h : Entered P now p host host' id index) (hstate : (host.handshake p).state = .createdResponse) :
    (host'.peers p).keypairs.next = some id := by
  have hslot := h.slot
  rw [newKeypair_responder now hstate] at hslot
  exact hslot

section BeginSession

variable {P} {now : U64} {p : ℕ} {host : Host}

theorem withKeypair_peers : (withKeypair P now p host).peers p =
    { host.peers p with handshake := handshakeZero (host.handshake p) } :=
  Host.setPeer_peers_self ..

variable (P now p host) in
/-- The keypair is in its slot, and nothing else happened to the handshake and its entry. -/
theorem addNewKeypair_withKeypair :
    ∀ host', host' = addNewKeypair p (host.keypairCounter + 1) (withKeypair P now p host) →
      host'.handshake p = handshakeZero (host.handshake p) ∧
      (∀ i, (i, .handshake p) ∈ host'.indexHashtable ↔ (i, .handshake p) ∈ host.indexHashtable) ∧
      SameKeys (newKeypair P now (host.handshake p)) (host'.keypairs (host.keypairCounter + 1)) ∧
      (host'.peers p).keypairs.Holds (newKeypair P now (host.handshake p)).iAmTheInitiator
        (host.keypairCounter + 1) := by
  rintro _ rfl
  have hnew : (withKeypair P now p host).keypairs (host.keypairCounter + 1) =
      newKeypair P now (host.handshake p) := Function.update_self ..
  rcases addNewKeypair_released p (host.keypairCounter + 1) (withKeypair P now p host) with
    ⟨slots, hslot, hreleased⟩
  have hpeer := congrFun hreleased.peers p
  rw [Host.setKeypairs, Host.setPeer_peers_self, withKeypair_peers] at hpeer
  refine ⟨?_, fun i => hreleased.linked p i, ?_, ?_⟩
  · rw [Host.handshake, hpeer]
  · rw [← hnew]
    exact hreleased.keys (host.keypairCounter + 1)
  · rw [hpeer, ← hnew]
    exact hslot

/-- The handshake is complete on this side. -/
def Finished (h : NoiseHandshake) : Prop := h.state = .createdResponse ∨ h.state = .consumedResponse

variable (P now p host) in
/-- What `begin_session` can do: nothing; give up the handshake without a usable keypair;
or enter the keypair under the index of the handshake. -/
theorem beginSession_cases (allocated : Bool) :
    (wgNoiseHandshakeBeginSession P now allocated p host = (host, false) ∧
      (¬ Finished (host.handshake p) ∨ allocated = false)) ∨
    (∃ host', wgNoiseHandshakeBeginSession P now allocated p host = (host', false) ∧
      host'.handshake p = handshakeZero (host.handshake p) ∧
      (∀ i, (i, .handshake p) ∈ host'.indexHashtable ↔ (i, .handshake p) ∈ host.indexHashtable) ∧
      ((host.peers p).isDead = true ∨ ∀ i, (i, .handshake p) ∉ host.indexHashtable)) ∨
    (∃ host' index, wgNoiseHandshakeBeginSession P now allocated p host = (host', true) ∧
      host'.handshake p = handshakeZero (host.handshake p) ∧ Finished (host.handshake p) ∧
      Entered P now p host host' (host.keypairCounter + 1) index) := by
  unfold wgNoiseHandshakeBeginSession
  dsimp only
  split
  · next hstate => exact .inl ⟨rfl, .inl (not_or.mpr hstate)⟩
  next hstate =>
  split
  · next halloc => exact .inl ⟨rfl, .inr (Bool.not_eq_true _ ▸ halloc)⟩
  split
  · next hdead =>
    refine .inr (.inl ⟨_, rfl, ?_, fun i => Iff.rfl, .inl ?_⟩)
    · rw [Host.handshake, withKeypair_peers]
    · rw [withKeypair_peers] at hdead
      exact hdead
  have hid : (withKeypair P now p host).keypairCounter = host.keypairCounter + 1 := rfl
  rw [hid]
  rcases addNewKeypair_withKeypair P now p host _ rfl with ⟨hzero, hlinked, hkeys, hslot⟩
  unfold enterKeypair
  split
  · next hreplace =>
    refine .inr (.inl ⟨_, rfl, hzero, hlinked, .inr ?_⟩)
    intro i hi
    rcases indexOf_of_mem ((hlinked i).mpr hi) with ⟨j, hj⟩
    rw [wgIndexHashtableReplace, hj] at hreplace
    cases hreplace
  · next index table hreplace =>
    rcases replace_some (by intro h; cases h) hreplace with ⟨hold, hnew, hgone⟩
    have hfinished : Finished (host.handshake p) := by
      by_contra hne
      exact hstate (not_or.mp hne)
    refine .inr (.inr ⟨_, index, rfl, hzero, hfinished, ?_⟩)
    constructor
    · exact (hlinked index).mp hold
    · dsimp only
      rw [Function.update_self]
    · exact hnew
    · dsimp only
      rw [Function.update_self]
      exact ⟨hkeys.sending, hkeys.receiving, hkeys.remoteIndex, hkeys.iAmTheInitiator⟩
    · exact hslot
    · exact hgone

/-- A live peer with a finished handshake in the index table gets a session. -/
theorem beginSession_entered (P : Primitives) (now : U64) {index : U32}
    (hfinished : Finished (host.handshake p)) (halive : (host.peers p).isDead = false)
    (hlinked : (index, .handshake p) ∈ host.indexHashtable) :
    ∃ host' i, wgNoiseHandshakeBeginSession P now true p host = (host', true) ∧
      Entered P now p host host' (host.keypairCounter + 1) i := by
  rcases beginSession_cases P now p host true with
    ⟨-, hnot | halloc⟩ | ⟨host', -, -, -, hdead | hnone⟩ | ⟨host', i, heq, -, -, hentered⟩
  · exact absurd hfinished hnot
  · cases halloc
  · rw [halive] at hdead
    cases hdead
  · exact absurd hlinked (hnone index)
  · exact ⟨host', i, heq, hentered⟩

end BeginSession

end AmneziaWg.Noise
