import AmneziaWg.Noise.Handshake

/-!
# An honest run of the handshake

The initiator and the responder compute the four Diffie-Hellman secrets from different
inputs. `InitiationTranscript` and `ResponseTranscript` say, in terms of the shared values
alone, what both of them mix; every function of the handshake is shown to follow them.

* **Model**: the transcripts, `Paired` (two configured hosts).
* **Refinement**: `writeInitiation_eq`, `readInitiation_eq`, `writeResponse_eq`,
  `readResponse_eq`.
* **Agreement**: `honest_run`.
-/

namespace AmneziaWg.Noise

open Linux

/-! ## Transcripts -/

/-- The values of `e, es, s, ss, {t}` that both sides agree on. -/
structure InitiationTranscript where
  responderStatic : Bytes
  ephemeral : Bytes
  es : Bytes
  initiatorStatic : Bytes
  ss : Bytes
  timestamp : Bytes

/-- The values of `e, ee, se, psk, {}` that both sides agree on. -/
structure ResponseTranscript where
  start : Symmetric
  ephemeral : Bytes
  ee : Bytes
  se : Bytes
  psk : Bytes

variable (P : Primitives)

namespace InitiationTranscript

variable (T : InitiationTranscript)

def afterE : Symmetric := messageEphemeral P T.ephemeral (handshakeInit P T.responderStatic)

def afterEs : Derived := kdf P T.es (T.afterE P).chainingKey

/-- The encrypted static key and the hash. -/
def afterS : Bytes × Bytes := messageEncrypt P T.initiatorStatic (T.afterEs P).second (T.afterE P).hash

def afterSs : Derived := kdf P T.ss (T.afterEs P).first

/-- The encrypted timestamp and the hash. -/
def afterT : Bytes × Bytes := messageEncrypt P T.timestamp (T.afterSs P).second (T.afterS P).2

def body : InitiationBody := ⟨T.ephemeral, (T.afterS P).1, (T.afterT P).1⟩

def final : Symmetric := ⟨(T.afterSs P).first, (T.afterT P).2⟩

end InitiationTranscript

namespace ResponseTranscript

variable (T : ResponseTranscript)

def afterE : Symmetric := messageEphemeral P T.ephemeral T.start

def afterSe : Bytes := (kdf P T.se (kdf P T.ee (T.afterE P).chainingKey).first).first

/-- The state and the key. -/
def afterPsk : Symmetric × Bytes := mixPsk P ⟨T.afterSe P, (T.afterE P).hash⟩ T.psk

/-- The encryption of nothing and the hash. -/
def afterNothing : Bytes × Bytes := messageEncrypt P [] (T.afterPsk P).2 (T.afterPsk P).1.hash

def body : ResponseBody := ⟨T.ephemeral, (T.afterNothing P).1⟩

def final : Symmetric := ⟨(T.afterPsk P).1.chainingKey, (T.afterNothing P).2⟩

end ResponseTranscript

/-! ## Each function follows its transcript -/

section Follow

variable {P}

theorem curve25519_of_ne {secret point : Bytes} (h : P.x25519 secret point ≠ nullPoint) :
    curve25519 P secret point = some (P.x25519 secret point) := if_neg h

theorem mixDh_of_ne {ck secret point dh : Bytes} (hdh : P.x25519 secret point = dh)
    (h : dh ≠ nullPoint) : mixDh P ck secret point = some ((kdf P dh ck).first, (kdf P dh ck).second) := by
  subst hdh
  rw [mixDh, curve25519_of_ne h]
  rfl

theorem mixPrecomputedDh_of_ne {ck dh : Bytes} (h : dh ≠ nullPoint) :
    mixPrecomputedDh P ck dh = some ((kdf P dh ck).first, (kdf P dh ck).second) := if_neg h

/-- A clamped secret is never the null point. -/
theorem clamp_ne_nullPoint {random : Bytes} (h : random.length = 32) :
    curve25519ClampSecret random ≠ nullPoint := by
  intro heq
  have hlt : 31 < (random.modify 0 (· &&& 248)).length := by
    rw [List.length_modify]
    omega
  have hbyte : (curve25519ClampSecret random)[31]? = some 0 := by
    rw [heq]
    decide
  -- the last byte has bit 6 set
  rw [curve25519ClampSecret, List.getElem?_modify_eq, List.getElem?_eq_getElem hlt] at hbyte
  simp at hbyte

theorem generatePublic_of_ne {random : Bytes} (hlen : random.length = 32)
    (h : P.x25519 (curve25519ClampSecret random) P.basepoint ≠ nullPoint) :
    curve25519GeneratePublic P (curve25519ClampSecret random) =
      some (P.x25519 (curve25519ClampSecret random) P.basepoint) := by
  rw [curve25519GeneratePublic, if_neg (clamp_ne_nullPoint hlen), curve25519_of_ne h]

theorem writeInitiation_eq (id : NoiseStaticIdentity) {env : CreateEnv} (h : NoiseHandshake)
    (T : InitiationTranscript) (hlen : env.random.length = 32)
    (hpublic : P.x25519 (curve25519ClampSecret env.random) P.basepoint ≠ nullPoint)
    (hephemeral : T.ephemeral = P.x25519 (curve25519ClampSecret env.random) P.basepoint)
    (hresponder : T.responderStatic = h.remoteStatic)
    (hes : P.x25519 (curve25519ClampSecret env.random) T.responderStatic = T.es)
    (hes0 : T.es ≠ nullPoint) (hinitiator : T.initiatorStatic = id.staticPublic)
    (hss : T.ss = h.precomputedStaticStatic) (hss0 : T.ss ≠ nullPoint)
    (htime : T.timestamp = tai64nNow env.now) :
    writeInitiation P id env h =
      ({ h with sym := T.final P, ephemeralPrivate := curve25519ClampSecret env.random },
        some (T.body P)) := by
  unfold writeInitiation
  simp only [generatePublic_of_ne hlen hpublic, ← hephemeral, ← hresponder,
    mixDh_of_ne hes hes0, ← hinitiator, ← hss, mixPrecomputedDh_of_ne hss0, ← htime]
  rfl

theorem readInitiation_eq (src : MessageHandshakeInitiation) {host : Host} {p : ℕ}
    (T : InitiationTranscript) (hid : host.staticIdentity.hasIdentity = true)
    (hsrc : src.unencryptedEphemeral = T.ephemeral) (hstatic : src.encryptedStatic = (T.afterS P).1)
    (htime : src.encryptedTimestamp = (T.afterT P).1)
    (hresponder : T.responderStatic = host.staticIdentity.staticPublic)
    (hes : P.x25519 host.staticIdentity.staticPrivate T.ephemeral = T.es) (hes0 : T.es ≠ nullPoint)
    (hpeer : host.peerHashtable T.initiatorStatic = some p)
    (hss : (host.handshake p).precomputedStaticStatic = T.ss) (hss0 : T.ss ≠ nullPoint) :
    ∃ adv, readInitiation P src host =
      (host.setPeer p { host.peers p with advancedSecurity := adv },
        some ⟨p, T.ephemeral, T.timestamp, T.final P⟩) := by
  have hdecS : messageDecrypt P (T.afterS P).1 (T.afterEs P).second (T.afterE P).hash =
      some (T.initiatorStatic, (T.afterS P).2) := messageDecrypt_messageEncrypt ..
  have hdecT : messageDecrypt P (T.afterT P).1 (T.afterSs P).second (T.afterS P).2 =
      some (T.timestamp, (T.afterT P).2) := messageDecrypt_messageEncrypt ..
  refine ⟨host.wg.advancedSecurity && decide (mhValidate src.type (host.wg.headers .init)), ?_⟩
  unfold readInitiation
  generalize (host.wg.advancedSecurity && decide (mhValidate src.type (host.wg.headers .init))) = adv
  rw [if_neg (by rw [hid]; decide)]
  dsimp only
  rw [hsrc, ← hresponder, mixDh_of_ne hes hes0]
  dsimp only
  -- the ciphertexts are those of the transcript
  have hstep : messageDecrypt P src.encryptedStatic (kdf P T.es (messageEphemeral P T.ephemeral
        (handshakeInit P T.responderStatic)).chainingKey).second
      (messageEphemeral P T.ephemeral (handshakeInit P T.responderStatic)).hash =
      some (T.initiatorStatic, (T.afterS P).2) := by
    rw [hstatic]
    exact hdecS
  rw [hstep]
  dsimp only
  rw [hpeer]
  dsimp only
  have hpre : ((host.setPeer p { host.peers p with advancedSecurity := adv }).handshake
      p).precomputedStaticStatic = T.ss := by
    rw [Host.handshake, Host.setPeer_peers_self]
    exact hss
  rw [hpre, mixPrecomputedDh_of_ne hss0, htime]
  dsimp only
  have hstep' : messageDecrypt P (T.afterT P).1
      (kdf P T.ss (kdf P T.es (messageEphemeral P T.ephemeral
        (handshakeInit P T.responderStatic)).chainingKey).first).second (T.afterS P).2 =
      some (T.timestamp, (T.afterT P).2) := hdecT
  rw [hstep']
  rfl

theorem writeResponse_eq {env : CreateEnv} {h : NoiseHandshake} (T : ResponseTranscript)
    (hlen : env.random.length = 32)
    (hpublic : P.x25519 (curve25519ClampSecret env.random) P.basepoint ≠ nullPoint)
    (hstart : T.start = h.sym)
    (hephemeral : T.ephemeral = P.x25519 (curve25519ClampSecret env.random) P.basepoint)
    (hee : P.x25519 (curve25519ClampSecret env.random) h.remoteEphemeral = T.ee)
    (hee0 : T.ee ≠ nullPoint)
    (hse : P.x25519 (curve25519ClampSecret env.random) h.remoteStatic = T.se)
    (hse0 : T.se ≠ nullPoint) (hpsk : T.psk = h.presharedKey) :
    writeResponse P env h =
      ({ h with sym := T.final P, ephemeralPrivate := curve25519ClampSecret env.random },
        some (T.body P)) := by
  unfold writeResponse
  simp only [generatePublic_of_ne hlen hpublic, mixDh_of_ne hee hee0, mixDh_of_ne hse hse0,
    ← hephemeral, ← hstart, ← hpsk]
  rfl

theorem readResponse_eq {staticPrivate : Bytes} (src : MessageHandshakeResponse)
    {copy : NoiseHandshake} (T : ResponseTranscript) (hstart : T.start = copy.sym)
    (hsrc : src.unencryptedEphemeral = T.ephemeral)
    (hnothing : src.encryptedNothing = (T.afterNothing P).1)
    (hee : P.x25519 copy.ephemeralPrivate T.ephemeral = T.ee) (hee0 : T.ee ≠ nullPoint)
    (hse : P.x25519 staticPrivate T.ephemeral = T.se) (hse0 : T.se ≠ nullPoint)
    (hpsk : T.psk = copy.presharedKey) :
    readResponse P staticPrivate src copy = some (T.final P) := by
  have hdec : messageDecrypt P (T.afterNothing P).1 (T.afterPsk P).2 (T.afterPsk P).1.hash =
      some ([], (T.afterNothing P).2) := messageDecrypt_messageEncrypt ..
  unfold readResponse
  dsimp only
  rw [hsrc, mixDh_of_ne hee hee0]
  dsimp only
  rw [mixDh_of_ne hse hse0, ← hstart, ← hpsk, hnothing]
  dsimp only
  have hstep : messageDecrypt P (T.afterNothing P).1
      (mixPsk P ⟨(kdf P T.se (kdf P T.ee (messageEphemeral P T.ephemeral
        T.start).chainingKey).first).first, (messageEphemeral P T.ephemeral T.start).hash⟩ T.psk).2
      (mixPsk P ⟨(kdf P T.se (kdf P T.ee (messageEphemeral P T.ephemeral
        T.start).chainingKey).first).first,
        (messageEphemeral P T.ephemeral T.start).hash⟩ T.psk).1.hash =
      some ([], (T.afterNothing P).2) := hdec
  rw [hstep]
  rfl

end Follow

/-! ## Two hosts -/

/-- Two hosts with an identity each, that are configured as peers of each other with one
preshared key. -/
structure Paired (A B : Host) (a b : ℕ) : Prop where
  identityA : A.staticIdentity.hasIdentity = true
  identityB : B.staticIdentity.hasIdentity = true
  publicA : A.staticIdentity.staticPublic = P.x25519 A.staticIdentity.staticPrivate P.basepoint
  publicB : B.staticIdentity.staticPublic = P.x25519 B.staticIdentity.staticPrivate P.basepoint
  remoteA : (A.handshake a).remoteStatic = B.staticIdentity.staticPublic
  remoteB : (B.handshake b).remoteStatic = A.staticIdentity.staticPublic
  psk : (A.handshake a).presharedKey = (B.handshake b).presharedKey
  precomputedA : (A.handshake a).precomputedStaticStatic =
    P.x25519 A.staticIdentity.staticPrivate (A.handshake a).remoteStatic
  precomputedB : (B.handshake b).precomputedStaticStatic =
    P.x25519 B.staticIdentity.staticPrivate (B.handshake b).remoteStatic
  peerB : B.peerHashtable A.staticIdentity.staticPublic = some b
  aliveA : (A.peers a).isDead = false
  aliveB : (B.peers b).isDead = false

/-- No public key or shared secret of the run is the null point. -/
structure NonZero (A B : Host) (eA eB : Bytes) : Prop where
  publicA : P.x25519 eA P.basepoint ≠ nullPoint
  publicB : P.x25519 eB P.basepoint ≠ nullPoint
  es : P.x25519 eA B.staticIdentity.staticPublic ≠ nullPoint
  ss : P.x25519 A.staticIdentity.staticPrivate B.staticIdentity.staticPublic ≠ nullPoint
  ee : P.x25519 eA (P.x25519 eB P.basepoint) ≠ nullPoint
  se : P.x25519 A.staticIdentity.staticPrivate (P.x25519 eB P.basepoint) ≠ nullPoint

/-- The transcript of the initiation, from the initiator's side. -/
def initiationOf (A B : Host) (eA : Bytes) (now : Timespec) : InitiationTranscript where
  responderStatic := B.staticIdentity.staticPublic
  ephemeral := P.x25519 eA P.basepoint
  es := P.x25519 eA B.staticIdentity.staticPublic
  initiatorStatic := A.staticIdentity.staticPublic
  ss := P.x25519 A.staticIdentity.staticPrivate B.staticIdentity.staticPublic
  timestamp := tai64nNow now

/-- The transcript of the response, from the initiator's side. -/
def responseOf (A : Host) (a : ℕ) (start : Symmetric) (eA eB : Bytes) : ResponseTranscript where
  start := start
  ephemeral := P.x25519 eB P.basepoint
  ee := P.x25519 eA (P.x25519 eB P.basepoint)
  se := P.x25519 A.staticIdentity.staticPrivate (P.x25519 eB P.basepoint)
  psk := (A.handshake a).presharedKey

section Run

variable {P} {A B : Host} {a b : ℕ} {envA envB : CreateEnv}

/-- The initiation that the transcript makes. -/
def InitiationTranscript.message (P : Primitives) (T : InitiationTranscript) (type index : U32) :
    MessageHandshakeInitiation :=
  ⟨type, index, T.ephemeral, (T.afterS P).1, (T.afterT P).1⟩

/-- The response that the transcript makes. -/
def ResponseTranscript.message (P : Primitives) (T : ResponseTranscript)
    (type index remote : U32) : MessageHandshakeResponse :=
  ⟨type, index, remote, T.ephemeral, (T.afterNothing P).1⟩

/-- A handshake that was just put into the index table. -/
structure Linked (host : Host) (p : ℕ) (index : U32) : Prop where
  index_eq : (host.handshake p).index = index
  lookup : lookupHandshake host.indexHashtable index = some p
  unique : ∀ i, (i, .handshake p) ∈ host.indexHashtable ↔ i = index

theorem linked_insert {host : Host} {p : ℕ} {index : U32} {table : IndexHashtable}
    (hindex : (host.handshake p).index = index)
    (htable : host.indexHashtable =
      (index, .handshake p) :: wgIndexHashtableRemove table (.handshake p)) :
    Linked host p index := by
  refine ⟨hindex, ?_, ?_⟩
  · simp [lookupHandshake, htable]
  · intro i
    rw [htable]
    exact mem_insert_self

theorem createInitiation_run (hpair : Paired P A B a b) (hlen : envA.random.length = 32) {eB : Bytes}
    (hnz : NonZero P A B (curve25519ClampSecret envA.random) eB)
    (hdraws : Reaches A.indexHashtable (.handshake a) envA.draws) :
    ∃ A₁ i, wgNoiseHandshakeCreateInitiation P envA a A =
        some (A₁, some ((initiationOf P A B (curve25519ClampSecret envA.random) envA.now).message P
          envA.messageType i)) ∧
      A₁.handshake a = { A.handshake a with
        sym := (initiationOf P A B (curve25519ClampSecret envA.random) envA.now).final P
        ephemeralPrivate := curve25519ClampSecret envA.random
        index := i
        state := .createdInitiation } ∧
      A₁.staticIdentity = A.staticIdentity ∧ (A₁.peers a).isDead = (A.peers a).isDead ∧
      Linked A₁ a i := by
  rcases insert_of_reaches hdraws with ⟨i, hinsert⟩
  have hwrite := writeInitiation_eq A.staticIdentity (A.handshake a)
    (initiationOf P A B (curve25519ClampSecret envA.random) envA.now) hlen hnz.publicA rfl
    hpair.remoteA.symm rfl hnz.es rfl (by rw [hpair.precomputedA, hpair.remoteA]; rfl) hnz.ss rfl
  unfold wgNoiseHandshakeCreateInitiation
  rw [if_neg (by rw [hpair.identityA]; decide), hwrite]
  dsimp only
  rw [hinsert]
  refine ⟨_, i, rfl, Host.handshake_setHandshake .., rfl, ?_, ?_⟩
  · exact Host.isDead_setHandshake ..
  · exact linked_insert (congrArg NoiseHandshake.index (Host.handshake_setHandshake ..)) rfl

theorem consumeInitiation_run (hpair : Paired P A B a b) {eA eB : Bytes} (hnz : NonZero P A B eA eB)
    {now : Timespec} (type i : U32) {checked : U64} (committed : U64)
    (hfresh : ¬ Rejected (B.handshake b) (tai64nNow now) checked) :
    ∃ B₁, wgNoiseHandshakeConsumeInitiation P ((initiationOf P A B eA now).message P type i)
        checked committed B = (B₁, some b) ∧
      (B₁.handshake b).state = .consumedInitiation ∧
      (B₁.handshake b).sym = (initiationOf P A B eA now).final P ∧
      (B₁.handshake b).remoteEphemeral = P.x25519 eA P.basepoint ∧
      (B₁.handshake b).remoteStatic = A.staticIdentity.staticPublic ∧
      (B₁.handshake b).presharedKey = (B.handshake b).presharedKey ∧
      (B₁.handshake b).remoteIndex = i ∧
      (B₁.peers b).isDead = (B.peers b).isDead ∧ B₁.indexHashtable = B.indexHashtable := by
  have hes : P.x25519 B.staticIdentity.staticPrivate (P.x25519 eA P.basepoint) =
      P.x25519 eA B.staticIdentity.staticPublic := by
    rw [P.x25519_comm, hpair.publicB]
  have hss : (B.handshake b).precomputedStaticStatic =
      P.x25519 A.staticIdentity.staticPrivate B.staticIdentity.staticPublic := by
    rw [hpair.precomputedB, hpair.remoteB, hpair.publicA, P.x25519_comm, hpair.publicB]
  rcases readInitiation_eq ((initiationOf P A B eA now).message P type i)
    (initiationOf P A B eA now) hpair.identityB rfl rfl rfl rfl hes hnz.es hpair.peerB hss hnz.ss
    with ⟨adv, hread⟩
  have hhandshake : (B.setPeer b { B.peers b with advancedSecurity := adv }).handshake b =
      B.handshake b := by
    rw [Host.handshake, Host.setPeer_peers_self]
    rfl
  have hfresh' : ¬ Rejected (B.handshake b) (initiationOf P A B eA now).timestamp checked := hfresh
  unfold wgNoiseHandshakeConsumeInitiation
  rw [hread]
  dsimp only
  rw [hhandshake, if_neg hfresh']
  refine ⟨_, rfl, ?_⟩
  rw [Host.handshake_setHandshake]
  refine ⟨rfl, rfl, rfl, hpair.remoteB, rfl, rfl, ?_, rfl⟩
  rw [Host.isDead_setHandshake, Host.setPeer_peers_self]

theorem createResponse_run {T : ResponseTranscript} (hlen : envB.random.length = 32)
    (hpublic : P.x25519 (curve25519ClampSecret envB.random) P.basepoint ≠ nullPoint)
    (hstate : (B.handshake b).state = .consumedInitiation)
    (hstart : T.start = (B.handshake b).sym)
    (hephemeral : T.ephemeral = P.x25519 (curve25519ClampSecret envB.random) P.basepoint)
    (hee : P.x25519 (curve25519ClampSecret envB.random) (B.handshake b).remoteEphemeral = T.ee)
    (hee0 : T.ee ≠ nullPoint)
    (hse : P.x25519 (curve25519ClampSecret envB.random) (B.handshake b).remoteStatic = T.se)
    (hse0 : T.se ≠ nullPoint) (hpsk : T.psk = (B.handshake b).presharedKey)
    (hdraws : Reaches B.indexHashtable (.handshake b) envB.draws) :
    ∃ B₁ j, wgNoiseHandshakeCreateResponse P envB b B =
        some (B₁, some (T.message P envB.messageType j (B.handshake b).remoteIndex)) ∧
      B₁.handshake b = { B.handshake b with
        sym := T.final P
        ephemeralPrivate := curve25519ClampSecret envB.random
        index := j
        state := .createdResponse } ∧
      (B₁.peers b).isDead = (B.peers b).isDead ∧ Linked B₁ b j := by
  rcases insert_of_reaches hdraws with ⟨j, hinsert⟩
  have hwrite := writeResponse_eq T hlen hpublic hstart hephemeral hee hee0 hse hse0 hpsk
  unfold wgNoiseHandshakeCreateResponse
  rw [if_neg (not_not.mpr hstate), hwrite]
  dsimp only
  rw [hinsert]
  refine ⟨_, j, rfl, Host.handshake_setHandshake .., Host.isDead_setHandshake .., ?_⟩
  exact linked_insert (congrArg NoiseHandshake.index (Host.handshake_setHandshake ..)) rfl

theorem consumeResponse_run {T : ResponseTranscript} {i : U32} (type j : U32)
    (hid : A.staticIdentity.hasIdentity = true) (hlinked : Linked A a i)
    (hstate : (A.handshake a).state = .createdInitiation) (hstart : T.start = (A.handshake a).sym)
    (hee : P.x25519 (A.handshake a).ephemeralPrivate T.ephemeral = T.ee) (hee0 : T.ee ≠ nullPoint)
    (hse : P.x25519 A.staticIdentity.staticPrivate T.ephemeral = T.se) (hse0 : T.se ≠ nullPoint)
    (hpsk : T.psk = (A.handshake a).presharedKey) :
    ∃ A₁, wgNoiseHandshakeConsumeResponse P (T.message P type j i) A = (A₁, some a) ∧
      A₁.handshake a = { A.handshake a with
        remoteEphemeral := T.ephemeral
        sym := T.final P
        remoteIndex := j
        state := .consumedResponse } ∧
      (A₁.peers a).isDead = (A.peers a).isDead ∧ A₁.indexHashtable = A.indexHashtable := by
  have hread := readResponse_eq (T.message P type j i) T hstart rfl rfl hee hee0 hse hse0 hpsk
  have hlookup : lookupHandshake A.indexHashtable (T.message P type j i).receiverIndex = some a :=
    hlinked.lookup
  unfold wgNoiseHandshakeConsumeResponse copyAndReadResponse
  rw [if_neg (by rw [hid]; decide), hlookup]
  dsimp only
  rw [if_neg (not_not.mpr hstate), hread]
  dsimp only [Option.map, commitResponse]
  rw [if_neg (not_not.mpr rfl)]
  exact ⟨_, rfl, Host.handshake_setHandshake .., Host.isDead_setHandshake .., rfl⟩

end Run

/-! ## Configured hosts -/

/-- A new device with a private key and one peer. -/
def newHost (P : Primitives) (privateKey peerPublicKey : Bytes) (psk : Option Bytes) : Host :=
  let id := wgNoiseSetStaticIdentityPrivateKey P privateKey ⟨[], [], false⟩
  { wg := wgSetup
    staticIdentity := id
    peerHashtable := fun key => if key = peerPublicKey then some 0 else none
    peers := fun _ => ⟨wgNoiseHandshakeInit P id peerPublicKey psk, ⟨none, none, none⟩, false, false⟩
    indexHashtable := []
    keypairs := fun _ => ⟨0, ⟨[], 0, false⟩, ⟨[], 0, false⟩, 0, false, 0⟩
    keypairCounter := 0 }

section Configured

variable {P : Primitives} {k : Bytes}

theorem identity_newHost (hid : (curve25519GeneratePublic P k).isSome) (peerPublicKey : Bytes)
    (psk : Option Bytes) :
    (newHost P k peerPublicKey psk).staticIdentity =
      ⟨P.x25519 k P.basepoint, curve25519ClampSecret k, true⟩ := by
  have hne : k ≠ nullPoint := by
    rintro rfl
    cases hid
  show wgNoiseSetStaticIdentityPrivateKey P k _ = _
  rw [wgNoiseSetStaticIdentityPrivateKey, if_neg hne, hid]

/-- The curve clamps the secret anyway, so the precomputed secret is that of the key. -/
theorem precomputed_newHost
    (hclamp : ∀ k point, P.x25519 (curve25519ClampSecret k) point = P.x25519 k point)
    (hid : (curve25519GeneratePublic P k).isSome) {peerPublicKey : Bytes}
    (hss : P.x25519 k peerPublicKey ≠ nullPoint) (psk : Option Bytes) :
    ((newHost P k peerPublicKey psk).handshake 0).precomputedStaticStatic =
      P.x25519 k peerPublicKey := by
  show (if (newHost P k peerPublicKey psk).staticIdentity.hasIdentity then
    (curve25519 P (newHost P k peerPublicKey psk).staticIdentity.staticPrivate
      peerPublicKey).getD nullPoint else nullPoint) = _
  rw [identity_newHost hid, if_pos rfl]
  dsimp only
  rw [curve25519_of_ne (by rw [hclamp]; exact hss), hclamp]
  rfl

/-- Two new devices that are given each other's public key are paired. -/
theorem paired_newHost {kA kB : Bytes} (psk : Option Bytes)
    (hclamp : ∀ k point, P.x25519 (curve25519ClampSecret k) point = P.x25519 k point)
    (hA : (curve25519GeneratePublic P kA).isSome) (hB : (curve25519GeneratePublic P kB).isSome)
    (hss : P.x25519 kA (P.x25519 kB P.basepoint) ≠ nullPoint) :
    Paired P (newHost P kA (P.x25519 kB P.basepoint) psk)
      (newHost P kB (P.x25519 kA P.basepoint) psk) 0 0 := by
  have hss' : P.x25519 kB (P.x25519 kA P.basepoint) ≠ nullPoint := by
    rwa [P.x25519_comm]
  constructor
  · rw [identity_newHost hA]
  · rw [identity_newHost hB]
  · rw [identity_newHost hA, hclamp]
  · rw [identity_newHost hB, hclamp]
  · rw [identity_newHost hB]
    rfl
  · rw [identity_newHost hA]
    rfl
  · rfl
  · rw [precomputed_newHost hclamp hA hss, identity_newHost hA, hclamp]
    rfl
  · rw [precomputed_newHost hclamp hB hss', identity_newHost hB, hclamp]
    rfl
  · rw [identity_newHost hA]
    exact if_pos rfl
  · rfl
  · rfl

end Configured

/-! ## Agreement -/

/-- The keypairs of the initiator and of the responder belong together. -/
structure SessionAgrees (kA kB : NoiseKeypair) : Prop where
  toResponder : kA.sending.key = kB.receiving.key
  toInitiator : kA.receiving.key = kB.sending.key
  initiator : kA.iAmTheInitiator = true
  responder : kB.iAmTheInitiator = false
  remoteA : kA.remoteIndex = kB.index
  remoteB : kB.remoteIndex = kA.index

/-- Sessions from handshakes with one chaining key and crossed indices agree. -/
theorem sessionAgrees_of_entered {P : Primitives} {A A' B B' : Host} {a b idA idB : ℕ}
    {nowA nowB : U64} {i j : U32} (hA : Entered P nowA a A A' idA i) (hB : Entered P nowB b B B' idB j)
    (hstateA : (A.handshake a).state = .consumedResponse)
    (hstateB : (B.handshake b).state = .createdResponse)
    (hck : (A.handshake a).sym.chainingKey = (B.handshake b).sym.chainingKey)
    (hremoteA : (A.handshake a).remoteIndex = j) (hremoteB : (B.handshake b).remoteIndex = i) :
    SessionAgrees (A'.keypairs idA) (B'.keypairs idB) := by
  constructor
  · rw [hA.keys.sending, hB.keys.receiving]
    simp [newKeypair, deriveKeys, hstateA, hstateB, hck]
  · rw [hA.keys.receiving, hB.keys.sending]
    simp [newKeypair, deriveKeys, hstateA, hstateB, hck]
  · rw [hA.keys.iAmTheInitiator, newKeypair_initiator nowA hstateA]
  · rw [hB.keys.iAmTheInitiator, newKeypair_responder nowB hstateB]
  · rw [hA.keys.remoteIndex, hB.index_eq]
    exact hremoteA
  · rw [hB.keys.remoteIndex, hA.index_eq]
    exact hremoteB

/-- Every step of the run succeeds, and both sides end with the same state, crossed keys
and crossed indices. -/
def HonestRun (P : Primitives) (A B : Host) (a b : ℕ) (envA envB : CreateEnv)
    (checked committed nowA nowB : U64) : Prop :=
  ∃ A₁ A₂ A₃ B₁ B₂ B₃ initiation response,
    wgNoiseHandshakeCreateInitiation P envA a A = some (A₁, some initiation) ∧
    wgNoiseHandshakeConsumeInitiation P initiation checked committed B = (B₁, some b) ∧
    wgNoiseHandshakeCreateResponse P envB b B₁ = some (B₂, some response) ∧
    wgNoiseHandshakeConsumeResponse P response A₁ = (A₂, some a) ∧
    (A₂.handshake a).sym = (B₂.handshake b).sym ∧
    (A₂.handshake a).remoteIndex = (B₂.handshake b).index ∧
    (B₂.handshake b).remoteIndex = (A₂.handshake a).index ∧
    wgNoiseHandshakeBeginSession P nowA true a A₂ = (A₃, true) ∧
    wgNoiseHandshakeBeginSession P nowB true b B₂ = (B₃, true) ∧
    ∃ kA kB, (A₃.peers a).keypairs.current = some kA ∧ (B₃.peers b).keypairs.next = some kB ∧
      SessionAgrees (A₃.keypairs kA) (B₃.keypairs kB)

/-- Two paired hosts agree, whatever happened on them before: the responder has seen no
newer timestamp, and no initiation within the last interval. -/
theorem honest_run (P : Primitives) (A B : Host) (a b : ℕ) (envA envB : CreateEnv)
    (checked committed nowA nowB : U64) (hpair : Paired P A B a b)
    (hlenA : envA.random.length = 32) (hlenB : envB.random.length = 32)
    (hnz : NonZero P A B (curve25519ClampSecret envA.random) (curve25519ClampSecret envB.random))
    (hdrawsA : Reaches A.indexHashtable (.handshake a) envA.draws)
    (hdrawsB : Reaches B.indexHashtable (.handshake b) envB.draws)
    (hnewer : memcmp (tai64nNow envA.now) (B.handshake b).latestTimestamp = .gt)
    (hflood : ¬ checked.slt ((B.handshake b).lastInitiationConsumption + initiationInterval)) :
    HonestRun P A B a b envA envB checked committed nowA nowB := by
  -- the initiation
  rcases createInitiation_run hpair hlenA hnz hdrawsA with
    ⟨A₁, i, hcreate, hA₁, hidA₁, hdeadA₁, hlinkedA⟩
  have hfresh : ¬ Rejected (B.handshake b) (tai64nNow envA.now) checked := by
    rintro (hreplay | hslt)
    · exact hreplay hnewer
    · exact hflood hslt
  rcases consumeInitiation_run hpair hnz envA.messageType i committed hfresh with
    ⟨B₁, hconsume, hstateB, hsymB, hephB, hremB, hpskB, hindexB, hdeadB₁, htableB⟩
  -- the response
  let T := responseOf P A a ((initiationOf P A B (curve25519ClampSecret envA.random)
    envA.now).final P) (curve25519ClampSecret envA.random) (curve25519ClampSecret envB.random)
  have hee : P.x25519 (curve25519ClampSecret envB.random) (B₁.handshake b).remoteEphemeral = T.ee := by
    rw [hephB]
    exact P.x25519_comm ..
  have hse : P.x25519 (curve25519ClampSecret envB.random) (B₁.handshake b).remoteStatic = T.se := by
    rw [hremB, hpair.publicA]
    exact P.x25519_comm ..
  rcases createResponse_run (b := b) (T := T) hlenB hnz.publicB hstateB hsymB.symm rfl hee hnz.ee
    hse hnz.se (by rw [hpskB]; exact hpair.psk) (by rw [htableB]; exact hdrawsB) with
    ⟨B₂, j, hrespond, hB₂, hdeadB₂, hlinkedB⟩
  rw [hindexB] at hrespond
  rcases consumeResponse_run (P := P) (T := T) envB.messageType j (by rw [hidA₁]; exact hpair.identityA)
    hlinkedA (by rw [hA₁]) (by rw [hA₁]; rfl) (by rw [hA₁]; rfl) hnz.ee (by rw [hidA₁]; rfl) hnz.se
    (by rw [hA₁]; rfl) with ⟨A₂, hdone, hA₂, hdeadA₂, htableA⟩
  -- the sessions
  have hdeadA : (A₂.peers a).isDead = false := by
    rw [hdeadA₂, hdeadA₁, hpair.aliveA]
  have hdeadB : (B₂.peers b).isDead = false := by
    rw [hdeadB₂, hdeadB₁, hpair.aliveB]
  have hmemA : (i, .handshake a) ∈ A₂.indexHashtable := by
    rw [htableA]
    exact (hlinkedA.unique i).mpr rfl
  rcases beginSession_entered P nowA (.inr (by rw [hA₂])) hdeadA hmemA with ⟨A₃, i', hA₃, hentA⟩
  rcases beginSession_entered P nowB (.inl (by rw [hB₂])) hdeadB ((hlinkedB.unique j).mpr rfl) with
    ⟨B₃, j', hB₃, hentB⟩
  have hi' : i' = i := by
    have hlinked := hentA.linked
    rw [htableA] at hlinked
    exact (hlinkedA.unique i').mp hlinked
  have hj' : j' = j := (hlinkedB.unique j').mp hentB.linked
  subst hi' hj'
  have hstateA : (A₂.handshake a).state = .consumedResponse := by
    rw [hA₂]
  have hstateB₂ : (B₂.handshake b).state = .createdResponse := by
    rw [hB₂]
  have hsym : (A₂.handshake a).sym = (B₂.handshake b).sym := by
    rw [hA₂, hB₂]
  have hremoteA : (A₂.handshake a).remoteIndex = j' := by
    rw [hA₂]
  have hremoteB : (B₂.handshake b).remoteIndex = i' := by
    rw [hB₂]
    exact hindexB
  refine ⟨A₁, A₂, A₃, B₁, B₂, B₃, _, _, hcreate, hconsume, hrespond, hdone, hsym, ?_, ?_, hA₃, hB₃,
    A₂.keypairCounter + 1, B₂.keypairCounter + 1, hentA.current hstateA, hentB.next hstateB₂, ?_⟩
  · rw [hremoteA, hlinkedB.index_eq]
  · rw [hremoteB, hA₂]
    exact hlinkedA.index_eq.symm
  · exact sessionAgrees_of_entered hentA hentB hstateA hstateB₂
      (congrArg Symmetric.chainingKey hsym) hremoteA hremoteB

/-- Small functions that satisfy the laws, to run the model with. -/
def samplePrimitives : Primitives where
  blake2s m := List.replicate 32 (m.foldl (fun acc b => acc * 31 + b) 7)
  x25519 secret point := List.replicate 32 (secret.getD 1 0 + point.getD 1 0)
  encrypt key _ _ plaintext := plaintext ++ List.replicate 16 (key.headD 0)
  decrypt key _ _ ciphertext :=
    let plaintext := ciphertext.take (ciphertext.length - 16)
    if ciphertext = plaintext ++ List.replicate 16 (key.headD 0) then some plaintext else none
  basepoint := List.replicate 32 9
  x25519_comm a b := by
    show List.replicate 32 (a.getD 1 0 + (b.getD 1 0 + 9)) =
      List.replicate 32 (b.getD 1 0 + (a.getD 1 0 + 9))
    rw [← BitVec.add_assoc, BitVec.add_comm (a.getD 1 0), BitVec.add_assoc]
  decrypt_encrypt key nonce ad plaintext := by simp

def sampleKey (b : U8) : Bytes := List.replicate 32 b

def sampleEnv (b : U8) : CreateEnv := ⟨1, sampleKey b, ⟨1000, 0⟩, [5]⟩

def sampleA : Host := newHost samplePrimitives (sampleKey 1)
  (samplePrimitives.x25519 (sampleKey 2) samplePrimitives.basepoint) none

def sampleB : Host := newHost samplePrimitives (sampleKey 2)
  (samplePrimitives.x25519 (sampleKey 1) samplePrimitives.basepoint) none

theorem sampleA_sampleB_paired : Paired samplePrimitives sampleA sampleB 0 0 := by
  refine paired_newHost none ?_ ?_ ?_ ?_
  · intro k point
    simp [samplePrimitives, curve25519ClampSecret]
  · decide +kernel
  · decide +kernel
  · decide +kernel

theorem sample_nonZero : NonZero samplePrimitives sampleA sampleB
    (curve25519ClampSecret (sampleKey 3)) (curve25519ClampSecret (sampleKey 4)) := by
  constructor <;> decide +kernel

theorem honest_run_sample :
    HonestRun samplePrimitives sampleA sampleB 0 0 (sampleEnv 3) (sampleEnv 4)
      20000000 20000000 20000000 20000000 := by
  refine honest_run samplePrimitives sampleA sampleB 0 0 (sampleEnv 3) (sampleEnv 4)
    20000000 20000000 20000000 20000000 sampleA_sampleB_paired ?_ ?_ sample_nonZero ?_ ?_ ?_ ?_
  · exact List.length_replicate
  · exact List.length_replicate
  · decide +kernel
  · decide +kernel
  · decide +kernel
  · decide +kernel

end AmneziaWg.Noise
