import AmneziaWg.HandshakeQueue
import AmneziaWg.Lib.Machine
import AmneziaWg.Lib.Splice
import Mathlib.Data.BitVec

/-!
# Cookies

Every handshake message ends in two macs. The first is keyed with the responder's
public key. The second is keyed with a cookie, which a responder under load hands out in
a reply: a mac of the sender's address under a secret that it changes every two minutes.
The reply is encrypted, with the first mac of the message that it answers as associated
data.

* **Model**: the functions of `cookie.c`, and the machine of sends, replies, checks and
  deliveries between an initiator and a responder.
* **Agreement**: `cookies_agree`, over all runs.
-/

namespace AmneziaWg.Cookies

open Linux HandshakeQueue Splice

/-! ## Model layer -/

/-- The keyed hash and the AEAD. A ciphertext opens with the key, nonce and associated
data that it was made with, and with no others. -/
structure Primitives where
  /-- Key, data and length of the output. -/
  blake2s : Bytes → Bytes → ℕ → Bytes
  /-- Key, nonce, associated data and plaintext. -/
  encrypt : Bytes → Bytes → Bytes → Bytes → Bytes
  decrypt : Bytes → Bytes → Bytes → Bytes → Option Bytes
  length_blake2s : ∀ key data n, (blake2s key data n).length = n
  decrypt_encrypt : ∀ key nonce ad key' nonce' ad' plaintext,
    decrypt key nonce ad (encrypt key' nonce' ad' plaintext) =
      if key = key' ∧ nonce = nonce' ∧ ad = ad' then some plaintext else none

/-- `COOKIE_SECRET_MAX_AGE`, in seconds. -/
def cookieSecretMaxAge : U64 := 2 * 60

/-- `COOKIE_SECRET_LATENCY`, in seconds. -/
def cookieSecretLatency : U64 := 5

def mac1KeyLabel : Bytes := ascii "mac1----"

def cookieKeyLabel : Bytes := ascii "cookie--"

/-- `struct cookie_checker`. -/
structure CookieChecker where
  secret : Bytes
  cookieEncryptionKey : Bytes
  messageMac1Key : Bytes
  secretBirthdate : U64
  /-- How often the secret was changed. The source does not count it. -/
  rotations : ℕ := 0
deriving DecidableEq, Repr

/-- `struct cookie`. -/
structure Cookie where
  birthdate : U64
  isValid : Bool
  cookie : Bytes
  haveSentMac1 : Bool
  lastMac1Sent : Bytes
  cookieDecryptionKey : Bytes
  messageMac1Key : Bytes
deriving DecidableEq, Repr

/-- `struct noise_static_identity`, as far as cookies go. -/
structure StaticIdentity where
  hasIdentity : Bool
  staticPublic : Bytes
deriving DecidableEq, Repr

/-- Where a packet comes from, by `skb->protocol`. -/
inductive Origin where
  | ip (saddr : Bytes) (source : Bytes)
  | ipv6 (saddr : Bytes) (source : Bytes)
  | other (source : Bytes)
deriving DecidableEq, Repr

/-- What `make_cookie` hashes. -/
def Origin.bytes : Origin → Bytes
  | .ip saddr source => saddr ++ source
  | .ipv6 saddr source => saddr ++ source
  | .other source => source

/-- `struct message_handshake_cookie`. -/
structure MessageHandshakeCookie where
  type : U32
  receiverIndex : U32
  nonce : Bytes
  encryptedCookie : Bytes
deriving DecidableEq, Repr

variable (P : Primitives)

def precomputeKey (pubkey label : Bytes) : Bytes :=
  P.blake2s [] (label ++ pubkey) noiseSymmetricKeyLen

/-- `wg_cookie_checker_precompute_device_keys`. -/
def wgCookieCheckerPrecomputeDeviceKeys (identity : StaticIdentity) (checker : CookieChecker) :
    CookieChecker :=
  if identity.hasIdentity then
    { checker with
      cookieEncryptionKey := precomputeKey P identity.staticPublic cookieKeyLabel
      messageMac1Key := precomputeKey P identity.staticPublic mac1KeyLabel }
  else
    { checker with
      cookieEncryptionKey := List.replicate noiseSymmetricKeyLen 0
      messageMac1Key := List.replicate noiseSymmetricKeyLen 0 }

/-- `wg_cookie_checker_precompute_peer_keys`. -/
def wgCookieCheckerPrecomputePeerKeys (remoteStatic : Bytes) (cookie : Cookie) : Cookie :=
  { cookie with
    cookieDecryptionKey := precomputeKey P remoteStatic cookieKeyLabel
    messageMac1Key := precomputeKey P remoteStatic mac1KeyLabel }

/-- `wg_cookie_checker_init`. -/
def wgCookieCheckerInit (now : U64) (random : Bytes) : CookieChecker where
  secret := random
  cookieEncryptionKey := List.replicate noiseSymmetricKeyLen 0
  messageMac1Key := List.replicate noiseSymmetricKeyLen 0
  secretBirthdate := now

/-- `wg_cookie_init`. -/
def wgCookieInit : Cookie where
  birthdate := 0
  isValid := false
  cookie := List.replicate cookieLen 0
  haveSentMac1 := false
  lastMac1Sent := List.replicate cookieLen 0
  cookieDecryptionKey := List.replicate noiseSymmetricKeyLen 0
  messageMac1Key := List.replicate noiseSymmetricKeyLen 0

/-- The offset of `struct message_macs` in a message. -/
def macsOffset (message : Bytes) : ℕ := message.length - messageMacsSize

def mac1Of (message : Bytes) : Bytes := slice (macsOffset message) cookieLen message

def mac2Of (message : Bytes) : Bytes := slice (macsOffset message + cookieLen) cookieLen message

def computeMac1 (message key : Bytes) : Bytes :=
  P.blake2s key (message.take (macsOffset message)) cookieLen

def computeMac2 (message cookie : Bytes) : Bytes :=
  P.blake2s cookie (message.take (macsOffset message + cookieLen)) cookieLen

/-- What the responder is given at one step: its clock, fresh random bytes, and what
`wg_ratelimiter_allow` would say. -/
structure Env where
  now : U64
  random : Bytes
  allow : Bool
deriving DecidableEq, Repr

/-- The change of the secret in `make_cookie`. -/
def rotate (env : Env) (checker : CookieChecker) : CookieChecker :=
  if wgBirthdateHasExpired env.now checker.secretBirthdate cookieSecretMaxAge then
    { checker with
      secretBirthdate := env.now
      secret := env.random
      rotations := checker.rotations + 1 }
  else checker

/-- The cookie of an origin under a secret. -/
def cookieOf (secret : Bytes) (origin : Origin) : Bytes :=
  P.blake2s secret origin.bytes cookieLen

def makeCookie (env : Env) (origin : Origin) (checker : CookieChecker) : Bytes × CookieChecker :=
  let checker' := rotate env checker
  (cookieOf P checker'.secret origin, checker')

/-- `wg_cookie_validate_packet`. -/
def wgCookieValidatePacket (env : Env) (checker : CookieChecker) (skb : Bytes) (origin : Origin)
    (checkCookie : Bool) : CookieMacState × CookieChecker :=
  if computeMac1 P skb checker.messageMac1Key ≠ mac1Of skb then (.invalidMac, checker)
  else if ¬ checkCookie then (.validMacButNoCookie, checker)
  else
    let (cookie, checker') := makeCookie P env origin checker
    if computeMac2 P skb cookie ≠ mac2Of skb then (.validMacButNoCookie, checker')
    else if ¬ env.allow then (.validMacWithCookieButRatelimited, checker')
    else (.validMacWithCookie, checker')

/-- The first section of `wg_cookie_add_mac_to_packet`. -/
def addMac1 (message : Bytes) (latest : Cookie) : Bytes × Cookie :=
  let mac1 := computeMac1 P message latest.messageMac1Key
  (overwrite (macsOffset message) mac1 message,
    { latest with lastMac1Sent := mac1, haveSentMac1 := true })

/-- `wg_cookie_add_mac_to_packet`. -/
def wgCookieAddMacToPacket (now : U64) (message : Bytes) (latest : Cookie) : Bytes × Cookie :=
  let (message', latest') := addMac1 P message latest
  let mac2 :=
    if latest'.isValid ∧ ¬ wgBirthdateHasExpired now latest'.birthdate
        (cookieSecretMaxAge - cookieSecretLatency) then
      computeMac2 P message' latest'.cookie
    else List.replicate cookieLen 0
  (overwrite (macsOffset message + cookieLen) mac2 message', latest')

/-- `wg_cookie_message_create`. -/
def wgCookieMessageCreate (env : Env) (nonce skb : Bytes) (origin : Origin) (index : U32)
    (checker : CookieChecker) (messageType : U32) : MessageHandshakeCookie × CookieChecker :=
  let (cookie, checker') := makeCookie P env origin checker
  ({ type := messageType
     receiverIndex := index
     nonce := nonce
     encryptedCookie := P.encrypt checker'.cookieEncryptionKey nonce (mac1Of skb) cookie },
    checker')

/-- The write of `wg_cookie_message_consume`. -/
def Cookie.install (latest : Cookie) (now : U64) (cookie : Bytes) : Cookie :=
  { latest with cookie := cookie, birthdate := now, isValid := true, haveSentMac1 := false }

/-- `wg_cookie_message_consume`, for one peer. `found` says that `wg_index_hashtable_lookup`
finds this peer under the receiver index. -/
def wgCookieMessageConsume (now : U64) (found : Bool) (src : MessageHandshakeCookie)
    (latest : Cookie) : Cookie :=
  if ¬ found then latest
  else if ¬ latest.haveSentMac1 then latest
  else
    match P.decrypt latest.cookieDecryptionKey src.nonce latest.lastMac1Sent
        src.encryptedCookie with
    | none => latest
    | some cookie => latest.install now cookie

/-! ## Runs -/

/-- A reply, with the message and the state that it was made from. -/
structure Reply where
  message : MessageHandshakeCookie
  mac1 : Bytes
  origin : Origin
  checker : CookieChecker
deriving DecidableEq, Repr

/-- What happened to the initiator's `latest_cookie`. -/
inductive Event where
  | sent (mac1 : Bytes)
  | consumed (reply : Reply)
deriving DecidableEq, Repr

structure World where
  initiatorNow : U64
  latest : Cookie
  checker : CookieChecker
  /-- All replies so far. The network may deliver each at any time and any number of times. -/
  replies : List Reply
  /-- The events so far, newest first. -/
  log : List Event
deriving DecidableEq, Repr

inductive Action where
  | tick (now : U64)
  /-- The initiator completes and sends a message. -/
  | send (message : Bytes)
  /-- The responder checks some packet. -/
  | validate (env : Env) (skb : Bytes) (origin : Origin) (checkCookie : Bool)
  /-- The responder answers some packet. -/
  | create (env : Env) (nonce skb : Bytes) (origin : Origin) (index messageType : U32)
  /-- The network delivers reply `i`. -/
  | deliver (i : ℕ) (found : Bool)
deriving DecidableEq, Repr

def send (w : World) (message : Bytes) : World :=
  let latest := (wgCookieAddMacToPacket P w.initiatorNow message w.latest).2
  { w with latest := latest, log := .sent latest.lastMac1Sent :: w.log }

def create (w : World) (env : Env) (nonce skb : Bytes) (origin : Origin)
    (index messageType : U32) : World :=
  let (message, checker) :=
    wgCookieMessageCreate P env nonce skb origin index w.checker messageType
  { w with checker := checker, replies := w.replies ++ [⟨message, mac1Of skb, origin, checker⟩] }

/-- A reply that leaves `latest_cookie` as it is was not consumed. -/
def deliver (w : World) (reply : Reply) (found : Bool) : World :=
  let latest := wgCookieMessageConsume P w.initiatorNow found reply.message w.latest
  { w with latest := latest, log := if latest = w.latest then w.log else .consumed reply :: w.log }

def machine : Machine World Action where
  step w
    | .tick now => some { w with initiatorNow := now }
    | .send message => if messageMacsSize ≤ message.length then some (send P w message) else none
    | .validate env skb origin checkCookie =>
      some { w with checker := (wgCookieValidatePacket P env w.checker skb origin checkCookie).2 }
    | .create env nonce skb origin index messageType =>
      some (create P w env nonce skb origin index messageType)
    | .deliver i found =>
      match w.replies[i]? with
      | none => none
      | some reply => some (deliver P w reply found)

/-- An initiator and a responder before their first message. The initiator's peer has the
responder's key as its `remote_static`. -/
def start (identity : StaticIdentity) (random : Bytes) (initiatorNow responderNow : U64) :
    World where
  initiatorNow := initiatorNow
  latest := wgCookieCheckerPrecomputePeerKeys P identity.staticPublic wgCookieInit
  checker := wgCookieCheckerPrecomputeDeviceKeys P identity
    (wgCookieCheckerInit responderNow random)
  replies := []
  log := []

/-- The reply whose cookie the initiator has: the last that was consumed. -/
def inForce : List Event → Option Reply
  | [] => none
  | .sent _ :: log => inForce log
  | .consumed reply :: _ => some reply

/-! ## The checker over time -/

/-- A later state of a checker: the keys are the same, and so is the secret unless it was
changed. -/
structure Later (c c' : CookieChecker) : Prop where
  cookieKey : c'.cookieEncryptionKey = c.cookieEncryptionKey
  mac1Key : c'.messageMac1Key = c.messageMac1Key
  rotations_le : c.rotations ≤ c'.rotations
  secret_eq : c'.rotations = c.rotations → c'.secret = c.secret

namespace Later

variable {c c' c'' : CookieChecker}

theorem refl (c : CookieChecker) : Later c c := ⟨rfl, rfl, Nat.le_refl _, fun _ => rfl⟩

theorem trans (h : Later c c') (h' : Later c' c'') : Later c c'' where
  cookieKey := h'.cookieKey.trans h.cookieKey
  mac1Key := h'.mac1Key.trans h.mac1Key
  rotations_le := Nat.le_trans h.rotations_le h'.rotations_le
  secret_eq := by
    intro heq
    have hle := h.rotations_le
    have hle' := h'.rotations_le
    rw [h'.secret_eq (by omega), h.secret_eq (by omega)]

end Later

theorem rotate_later (env : Env) (checker : CookieChecker) : Later checker (rotate env checker) := by
  unfold rotate
  split
  · refine ⟨rfl, rfl, Nat.le_succ _, ?_⟩
    intro heq
    exact absurd heq (Nat.succ_ne_self _)
  · exact Later.refl checker

theorem validate_later (env : Env) (checker : CookieChecker) (skb : Bytes) (origin : Origin)
    (checkCookie : Bool) :
    Later checker (wgCookieValidatePacket P env checker skb origin checkCookie).2 := by
  unfold wgCookieValidatePacket
  split
  · exact Later.refl checker
  · split
    · exact Later.refl checker
    · dsimp only [makeCookie]
      split
      · exact rotate_later env checker
      · split <;> exact rotate_later env checker

/-- No step takes the responder back. -/
theorem step_later (w : World) (l : Action) (w' : World) (h : (machine P).step w l = some w') :
    Later w.checker w'.checker := by
  cases l with
  | tick now =>
    obtain rfl := Option.some.inj h
    exact Later.refl _
  | send message =>
    simp only [machine] at h
    split at h
    · obtain rfl := Option.some.inj h
      exact Later.refl _
    · cases h
  | validate env skb origin checkCookie =>
    obtain rfl := Option.some.inj h
    exact validate_later P env w.checker skb origin checkCookie
  | create env nonce skb origin index messageType =>
    obtain rfl := Option.some.inj h
    exact rotate_later env w.checker
  | deliver i found =>
    simp only [machine] at h
    split at h
    · cases h
    · obtain rfl := Option.some.inj h
      exact Later.refl _

theorem run_later {w w' : World} {ls : List Action} (h : (machine P).run w ls = some w') :
    Later w.checker w'.checker := by
  refine @Machine.run_invariant _ _ (machine P) (fun u => Later w.checker u.checker) ?_ w w' ls
    (Later.refl _) h
  intro u l u' hu hstep
  exact hu.trans (step_later P u l u' hstep)

/-! ## The macs of a message -/

section Macs

variable {P} {message : Bytes} {latest : Cookie}

theorem length_addMac1 (h : messageMacsSize ≤ message.length) :
    (addMac1 P message latest).1.length = message.length := by
  apply length_overwrite
  rw [computeMac1, P.length_blake2s]
  simp only [macsOffset, messageMacsSize, cookieLen] at *
  omega

/-- A message as `wg_cookie_add_mac_to_packet` leaves it, with any second mac. -/
theorem addMac2_spec (h : messageMacsSize ≤ message.length) {mac2 : Bytes}
    (hmac2 : mac2.length = cookieLen) :
    let message' := (addMac1 P message latest).1
    let packet := overwrite (macsOffset message + cookieLen) mac2 message'
    computeMac1 P packet latest.messageMac1Key = mac1Of packet ∧ mac2Of packet = mac2 ∧
      ∀ cookie, computeMac2 P packet cookie = computeMac2 P message' cookie := by
  intro message' packet
  have hlength' : message'.length = message.length := length_addMac1 h
  have hfit : macsOffset message + cookieLen + cookieLen = message.length := by
    simp only [macsOffset, messageMacsSize, cookieLen] at *
    omega
  have hpacket : packet.length = message.length := by
    rw [← hlength']
    apply length_overwrite
    omega
  have hoffset : macsOffset packet = macsOffset message := by
    rw [macsOffset, hpacket, macsOffset]
  have hoffset' : macsOffset message' = macsOffset message := by
    rw [macsOffset, hlength', macsOffset]
  have hmac1 : (computeMac1 P message latest.messageMac1Key).length = cookieLen :=
    P.length_blake2s _ _ _
  refine ⟨?_, ?_, ?_⟩
  · -- both writes lie behind what the first mac covers
    have hfront : packet.take (macsOffset message) = message.take (macsOffset message) := by
      rw [take_overwrite (by omega) (by omega)]
      exact take_overwrite (Nat.le_refl _) (by omega)
    have hfield : mac1Of packet = computeMac1 P message latest.messageMac1Key := by
      rw [mac1Of, hoffset, slice_overwrite_of_le (Nat.le_refl _) (by omega), ← hmac1]
      exact slice_overwrite (by omega)
    rw [hfield, computeMac1, hoffset, hfront, computeMac1]
  · have hread : slice (macsOffset message + cookieLen) mac2.length packet = mac2 :=
      slice_overwrite (by omega)
    rw [hmac2] at hread
    rw [mac2Of, hoffset]
    exact hread
  · intro cookie
    rw [computeMac2, hoffset, take_overwrite (Nat.le_refl _) (by omega), computeMac2, hoffset']

/-- The second mac that `wg_cookie_add_mac_to_packet` writes. -/
def mac2Sent (P : Primitives) (now : U64) (message : Bytes) (latest : Cookie) : Bytes :=
  if latest.isValid ∧ ¬ wgBirthdateHasExpired now latest.birthdate
      (cookieSecretMaxAge - cookieSecretLatency) then
    computeMac2 P (addMac1 P message latest).1 latest.cookie
  else List.replicate cookieLen 0

theorem addMacToPacket_eq (now : U64) :
    (wgCookieAddMacToPacket P now message latest).1 =
      overwrite (macsOffset message + cookieLen) (mac2Sent P now message latest)
        (addMac1 P message latest).1 := rfl

theorem length_mac2Sent (now : U64) : (mac2Sent P now message latest).length = cookieLen := by
  unfold mac2Sent
  split
  · exact P.length_blake2s _ _ _
  · exact List.length_replicate

/-- The first mac is right for whoever has the same key. -/
theorem mac1_sent (h : messageMacsSize ≤ message.length) (now : U64) :
    computeMac1 P (wgCookieAddMacToPacket P now message latest).1 latest.messageMac1Key =
      mac1Of (wgCookieAddMacToPacket P now message latest).1 :=
  (addMac2_spec h (length_mac2Sent now)).1

/-- As long as the cookie lasts, the second mac is right for whoever has the same cookie. -/
theorem mac2_sent (h : messageMacsSize ≤ message.length) {now : U64}
    (hvalid : latest.isValid = true)
    (hfresh : wgBirthdateHasExpired now latest.birthdate
      (cookieSecretMaxAge - cookieSecretLatency) = false) :
    computeMac2 P (wgCookieAddMacToPacket P now message latest).1 latest.cookie =
      mac2Of (wgCookieAddMacToPacket P now message latest).1 := by
  have hlength : (mac2Sent P now message latest).length = cookieLen := length_mac2Sent now
  obtain ⟨-, hmac2, hcompute⟩ := addMac2_spec h hlength
  rw [addMacToPacket_eq, hmac2, hcompute, mac2Sent, if_pos]
  exact ⟨hvalid, by simp [hfresh]⟩

end Macs

/-! ## Invariant -/

/-- How a reply was made, seen from a state of the run. -/
structure Made (w : World) (r : Reply) : Prop where
  encrypted : r.message.encryptedCookie = P.encrypt w.checker.cookieEncryptionKey
    r.message.nonce r.mac1 (cookieOf P r.checker.secret r.origin)
  later : Later r.checker w.checker

structure Inv (w : World) : Prop where
  mac1Key : w.latest.messageMac1Key = w.checker.messageMac1Key
  cookieKey : w.latest.cookieDecryptionKey = w.checker.cookieEncryptionKey
  /-- The initiator waits for a reply exactly if its last event is a message sent. -/
  waits : ∀ mac1, w.log.head? = some (.sent mac1) ↔
    w.latest.haveSentMac1 = true ∧ w.latest.lastMac1Sent = mac1
  made : ∀ r ∈ w.replies, Made P w r
  cookie : ∀ r, inForce w.log = some r → w.latest.isValid = true ∧
    w.latest.cookie = cookieOf P r.checker.secret r.origin ∧ Later r.checker w.checker

theorem start_inv {identity : StaticIdentity} (h : identity.hasIdentity = true) (random : Bytes)
    (initiatorNow responderNow : U64) :
    Inv P (start P identity random initiatorNow responderNow) where
  mac1Key := by simp [start, wgCookieCheckerPrecomputeDeviceKeys, h,
    wgCookieCheckerPrecomputePeerKeys]
  cookieKey := by simp [start, wgCookieCheckerPrecomputeDeviceKeys, h,
    wgCookieCheckerPrecomputePeerKeys]
  waits := by simp [start, wgCookieCheckerPrecomputePeerKeys, wgCookieInit]
  made := nofun
  cookie := nofun

section Steps

variable {P} {w : World}

theorem Made.advance {r : Reply} (h : Made P w r) {w' : World}
    (hlater : Later w.checker w'.checker) : Made P w' r where
  encrypted := by rw [hlater.cookieKey, h.encrypted]
  later := h.later.trans hlater

/-- Steps of the responder. -/
theorem Inv.advance (h : Inv P w) {checker : CookieChecker} (hlater : Later w.checker checker) :
    Inv P { w with checker := checker } where
  mac1Key := h.mac1Key.trans hlater.mac1Key.symm
  cookieKey := h.cookieKey.trans hlater.cookieKey.symm
  waits := h.waits
  made := fun r hr => (h.made r hr).advance hlater
  cookie := by
    intro r hr
    obtain ⟨hvalid, hcookie, hbefore⟩ := h.cookie r hr
    exact ⟨hvalid, hcookie, hbefore.trans hlater⟩

theorem send_inv (h : Inv P w) (message : Bytes) : Inv P (send P w message) where
  mac1Key := h.mac1Key
  cookieKey := h.cookieKey
  waits := by
    intro mac1
    simp [send, wgCookieAddMacToPacket, addMac1]
  made := fun r hr => ⟨(h.made r hr).encrypted, (h.made r hr).later⟩
  cookie := h.cookie

theorem create_inv (h : Inv P w) (env : Env) (nonce skb : Bytes) (origin : Origin)
    (index messageType : U32) : Inv P (create P w env nonce skb origin index messageType) := by
  have hlater := rotate_later env w.checker
  have hadvance := h.advance hlater
  refine { hadvance with made := ?_ }
  intro r hr
  rcases List.mem_append.mp hr with hr | hr
  · exact (h.made r hr).advance hlater
  · obtain rfl := List.mem_singleton.mp hr
    exact ⟨rfl, Later.refl _⟩

/-- A reply is consumed exactly if it answers the message sent last and none was consumed
since then. -/
theorem consume_eq (h : Inv P w) {r : Reply} (hmade : Made P w r) (found : Bool) :
    wgCookieMessageConsume P w.initiatorNow found r.message w.latest =
      if found = true ∧ w.log.head? = some (.sent r.mac1) then
        w.latest.install w.initiatorNow (cookieOf P r.checker.secret r.origin)
      else w.latest := by
  have hdecrypt : P.decrypt w.latest.cookieDecryptionKey r.message.nonce w.latest.lastMac1Sent
      r.message.encryptedCookie =
        if w.latest.lastMac1Sent = r.mac1 then some (cookieOf P r.checker.secret r.origin)
        else none := by
    rw [hmade.encrypted, P.decrypt_encrypt, h.cookieKey]
    simp
  simp only [wgCookieMessageConsume, hdecrypt, h.waits r.mac1]
  by_cases hsent : w.latest.haveSentMac1 = true
  · by_cases hmac1 : w.latest.lastMac1Sent = r.mac1
    · cases found <;> simp [hsent, hmac1]
    · cases found <;> simp [hmac1]
  · cases found <;> simp [hsent]

/-- A delivery changes `latest_cookie` exactly if it is consumed. -/
theorem deliver_changes (h : Inv P w) {r : Reply} (hmade : Made P w r) (found : Bool) :
    (deliver P w r found).latest ≠ w.latest ↔
      found = true ∧ w.log.head? = some (.sent r.mac1) := by
  show wgCookieMessageConsume P w.initiatorNow found r.message w.latest ≠ w.latest ↔ _
  rw [consume_eq h hmade]
  split
  · next hc =>
    refine ⟨fun _ => hc, fun _ heq => ?_⟩
    have hsent := ((h.waits r.mac1).mp hc.2).1
    rw [← heq] at hsent
    cases hsent
  · next hc => exact ⟨fun hne => absurd rfl hne, fun hc' => absurd hc' hc⟩

theorem deliver_inv (h : Inv P w) {r : Reply} (hmade : Made P w r) (found : Bool) :
    Inv P (deliver P w r found) := by
  have hchanges := deliver_changes h hmade found
  have hconsume := consume_eq h hmade found
  by_cases hc : found = true ∧ w.log.head? = some (.sent r.mac1)
  · -- consumed: the initiator has the cookie, and waits no more
    rw [if_pos hc] at hconsume
    have hlog : (deliver P w r found).log = .consumed r :: w.log := if_neg (hchanges.mpr hc)
    have hlatest : (deliver P w r found).latest =
        w.latest.install w.initiatorNow (cookieOf P r.checker.secret r.origin) := hconsume
    constructor
    · rw [hlatest]
      exact h.mac1Key
    · rw [hlatest]
      exact h.cookieKey
    · intro mac1
      rw [hlatest, hlog]
      simp [Cookie.install]
    · exact fun r hr => ⟨(h.made r hr).encrypted, (h.made r hr).later⟩
    · intro r' hr'
      rw [hlog] at hr'
      obtain rfl := Option.some.inj hr'
      rw [hlatest]
      exact ⟨rfl, rfl, hmade.later⟩
  · -- ignored: nothing changes
    rw [if_neg hc] at hconsume
    have hsame : deliver P w r found = w := by
      simp [deliver, hconsume]
    rw [hsame]
    exact h

theorem step_inv (w : World) (l : Action) (w' : World) (h : Inv P w)
    (hstep : (machine P).step w l = some w') : Inv P w' := by
  cases l with
  | tick now =>
    obtain rfl := Option.some.inj hstep
    exact { h with made := fun r hr => ⟨(h.made r hr).encrypted, (h.made r hr).later⟩ }
  | send message =>
    simp only [machine] at hstep
    split at hstep
    · obtain rfl := Option.some.inj hstep
      exact send_inv h message
    · cases hstep
  | validate env skb origin checkCookie =>
    obtain rfl := Option.some.inj hstep
    exact h.advance (validate_later P env w.checker skb origin checkCookie)
  | create env nonce skb origin index messageType =>
    obtain rfl := Option.some.inj hstep
    exact create_inv h env nonce skb origin index messageType
  | deliver i found =>
    simp only [machine] at hstep
    split at hstep
    · cases hstep
    · next r hr =>
      obtain rfl := Option.some.inj hstep
      exact deliver_inv h (h.made r (List.mem_of_getElem? hr)) found

end Steps

/-! ## Agreement -/

/-- What holds in every state that a run reaches. -/
structure Agrees (w : World) : Prop where
  /-- Whenever it arrives, a message sent now has a first mac that the responder accepts. -/
  mac1 : ∀ message, messageMacsSize ≤ message.length →
    ∀ ls u env origin, (machine P).run (send P w message) ls = some u →
      (wgCookieValidatePacket P env u.checker
        (wgCookieAddMacToPacket P w.initiatorNow message w.latest).1 origin false).1 =
          .validMacButNoCookie
  /-- A reply that is delivered now changes `latest_cookie` exactly if the peer is found, the
  reply answers the message sent last, and no reply was consumed since then. Its cookie is
  then in force. -/
  binding : ∀ i found r, w.replies[i]? = some r →
    ∃ w', (machine P).step w (.deliver i found) = some w' ∧
      (w'.latest ≠ w.latest ↔ found = true ∧ w.log.head? = some (.sent r.mac1)) ∧
      (w'.latest ≠ w.latest → inForce w'.log = some r)
  /-- While the cookie in force has not expired, a message sent now has a second mac that
  the responder accepts from the address and port that the cookie was made for, whenever
  it arrives and if the secret was not changed since the cookie was made. -/
  mac2 : ∀ message r, messageMacsSize ≤ message.length → inForce w.log = some r →
    wgBirthdateHasExpired w.initiatorNow w.latest.birthdate
      (cookieSecretMaxAge - cookieSecretLatency) = false →
    ∀ ls u env, (machine P).run (send P w message) ls = some u →
      let verdict := wgCookieValidatePacket P env u.checker
        (wgCookieAddMacToPacket P w.initiatorNow message w.latest).1 r.origin true
      verdict.2.rotations = r.checker.rotations →
      verdict.1 = .validMacWithCookie ∨ verdict.1 = .validMacWithCookieButRatelimited

section Validation

variable {P} {env : Env} {checker : CookieChecker} {skb : Bytes} {origin : Origin}

theorem validate_without_cookie (h : computeMac1 P skb checker.messageMac1Key = mac1Of skb) :
    (wgCookieValidatePacket P env checker skb origin false).1 = .validMacButNoCookie := by
  simp [wgCookieValidatePacket, h]

/-- With a right first mac the cookie is made from the secret of this moment. -/
theorem validate_with_cookie (h : computeMac1 P skb checker.messageMac1Key = mac1Of skb) :
    let verdict := wgCookieValidatePacket P env checker skb origin true
    verdict.2 = rotate env checker ∧
      (computeMac2 P skb (cookieOf P verdict.2.secret origin) = mac2Of skb →
        verdict.1 = .validMacWithCookie ∨ verdict.1 = .validMacWithCookieButRatelimited) := by
  have hchecker : (wgCookieValidatePacket P env checker skb origin true).2 = rotate env checker := by
    by_cases hmac2 : computeMac2 P skb (cookieOf P (rotate env checker).secret origin) = mac2Of skb
    · cases hallow : env.allow <;> simp [wgCookieValidatePacket, makeCookie, h, hmac2, hallow]
    · simp [wgCookieValidatePacket, makeCookie, h, hmac2]
  intro verdict
  refine ⟨hchecker, fun hmac2 => ?_⟩
  rw [show verdict.2 = rotate env checker from hchecker] at hmac2
  cases hallow : env.allow with
  | true =>
    left
    simp [verdict, wgCookieValidatePacket, makeCookie, h, hmac2, hallow]
  | false =>
    right
    simp [verdict, wgCookieValidatePacket, makeCookie, h, hmac2, hallow]

end Validation

/-- The first mac of a message sent now, checked later. -/
theorem Inv.mac1_later {w u : World} (h : Inv P w) {message : Bytes} {ls : List Action}
    (hlength : messageMacsSize ≤ message.length)
    (hrun : (machine P).run (send P w message) ls = some u) :
    computeMac1 P (wgCookieAddMacToPacket P w.initiatorNow message w.latest).1
      u.checker.messageMac1Key =
        mac1Of (wgCookieAddMacToPacket P w.initiatorNow message w.latest).1 := by
  have hkey : u.checker.messageMac1Key = w.checker.messageMac1Key := (run_later P hrun).mac1Key
  rw [hkey, ← h.mac1Key]
  exact mac1_sent hlength w.initiatorNow

theorem Inv.agrees {w : World} (h : Inv P w) : Agrees P w where
  mac1 := by
    intro message hlength ls u env origin hrun
    exact validate_without_cookie (h.mac1_later P hlength hrun)
  binding := by
    intro i found r hr
    have hmade := h.made r (List.mem_of_getElem? hr)
    refine ⟨deliver P w r found, by simp only [machine, hr], deliver_changes h hmade found, ?_⟩
    intro hne
    have hlog : (deliver P w r found).log = .consumed r :: w.log := if_neg hne
    rw [hlog]
    rfl
  mac2 := by
    intro message r hlength hforce hfresh ls u env hrun verdict hrotations
    obtain ⟨hvalid, hcookie, hbefore⟩ := h.cookie r hforce
    obtain ⟨-, haccept⟩ := validate_with_cookie 
      (h.mac1_later P hlength hrun)
    -- the secret is that of the reply, so the cookie is the initiator's
    have hlater : Later r.checker verdict.2 :=
      hbefore.trans ((run_later P hrun).trans (validate_later P env u.checker _ r.origin true))
    have hsame : cookieOf P verdict.2.secret r.origin = w.latest.cookie := by
      rw [hlater.secret_eq hrotations, hcookie]
    apply haccept
    rw [show cookieOf P _ r.origin = w.latest.cookie from hsame]
    exact mac2_sent hlength hvalid hfresh

/-- Every run between an initiator and the responder whose key its peer has. -/
theorem cookies_agree {identity : StaticIdentity} (hidentity : identity.hasIdentity = true)
    (random : Bytes) (initiatorNow responderNow : U64) {ls : List Action} {w : World}
    (hrun : (machine P).run (start P identity random initiatorNow responderNow) ls = some w) :
    Agrees P w :=
  Inv.agrees P ((machine P).run_invariant step_inv
    (start_inv P hidentity random initiatorNow responderNow) hrun)

/-! ## Primitives that can be run -/

/-- A list that tells where it ends. -/
def encode (xs : Bytes) : Bytes := xs.flatMap (fun x => [1, x]) ++ [0]

def decode : Bytes → Option (Bytes × Bytes)
  | 1 :: x :: rest => (decode rest).map fun (xs, rest') => (x :: xs, rest')
  | 0 :: rest => some ([], rest)
  | _ => none

theorem decode_encode (xs rest : Bytes) : decode (encode xs ++ rest) = some (xs, rest) := by
  induction xs with
  | nil => rfl
  | cons x xs ih =>
    show (decode (encode xs ++ rest)).map _ = _
    rw [ih]
    rfl

/-- A hash that sums up, and an AEAD that hides nothing. -/
def plain : Primitives where
  blake2s key data n := List.replicate n (key.sum + data.sum)
  encrypt key nonce ad plaintext := encode key ++ (encode nonce ++ (encode ad ++ plaintext))
  decrypt key nonce ad ciphertext := do
    let (key', rest) ← decode ciphertext
    let (nonce', rest) ← decode rest
    let (ad', rest) ← decode rest
    if key = key' ∧ nonce = nonce' ∧ ad = ad' then some rest else none
  length_blake2s _ _ n := List.length_replicate
  decrypt_encrypt key nonce ad key' nonce' ad' plaintext := by
    simp [decode_encode]

/-- A message is sent and answered, the answer is delivered twice, and the next message is
sent. -/
def answered : List Action :=
  [.send (List.replicate 40 7),
    .create ⟨0, [], true⟩ [1, 2, 3]
      (wgCookieAddMacToPacket plain 0 (List.replicate 40 7)
        (start plain ⟨true, [5]⟩ [9] 0 0).latest).1 (.ip [10, 0, 0, 1] [0, 1]) 0 3,
    .deliver 0 true, .deliver 0 true]

theorem cookies_agree_answered :
    ∃ w, (machine plain).run (start plain ⟨true, [5]⟩ [9] 0 0) answered = some w ∧
      (inForce w.log).isSome ∧ w.log.length = 2 ∧ Agrees plain w := by
  have hrun : ∃ w, (machine plain).run (start plain ⟨true, [5]⟩ [9] 0 0) answered = some w ∧
      (inForce w.log).isSome ∧ w.log.length = 2 :=
    ⟨_, rfl, by decide, by decide⟩
  obtain ⟨w, hw, hforce, hlog⟩ := hrun
  exact ⟨w, hw, hforce, hlog, cookies_agree plain rfl [9] 0 0 hw⟩

end AmneziaWg.Cookies
