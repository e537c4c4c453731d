import AmneziaWg.AllowedIps.Refinement
import AmneziaWg.Cookie
import AmneziaWg.Netlink
import AmneziaWg.Noise.Handshake

/-!
# The configuration of a device

`WG_CMD_SET_DEVICE` requests: the identity of the device, its port and mark, and its peers with
their settings and allowed IPs. A peer is on the list of the device and in the table of public
keys, its allowed IPs are in the tries, and the device holds a reference to it. An error ends a
request where it occurs, and nothing is undone.

* **Model**: `wgSetDevice` with `setPort`, `setPrivateKey`, `setPeer` and `setAllowedip`, and the
  functions of `peer.c` and `peerlookup.c` that they call. Reads and writes of a peer that is not
  allocated fail, as do a reference that is put too often and a count that falls below zero; all
  of them are `none`.

References that packets and timers hold on a peer are not counted here. The packets that a
request sends on its way, the keypairs that it expires and the caches of routes that it resets
are left out.
-/

namespace AmneziaWg.Config

open Linux Stepwise AllowedIps

/-! ## Peers -/

/-- What stays the same for all requests. -/
structure Platform where
  endian : Endian
  noise : Noise.Primitives
  cookies : Cookies.Primitives
  /-- With the key of the table. -/
  siphash : Bytes → U64
  mem : Kmalloc

/-- `struct endpoint`: a `sockaddr_in` or `sockaddr_in6`, and the source address with, for IPv4,
the interface. -/
inductive Endpoint where
  | none
  | v4 (addr src : Bytes)
  | v6 (addr src : Bytes)
deriving DecidableEq, Repr

/-- What a request sets in a peer. -/
structure Settings where
  presharedKey : Bytes
  endpoint : Endpoint
  persistentKeepaliveInterval : U16
  advancedSecurity : Bool
deriving DecidableEq, Repr

/-- `struct wg_peer`, as far as the configuration goes. -/
structure WgPeer extends Settings where
  remoteStatic : Bytes
  precomputedStaticStatic : Bytes
  latestCookie : Cookies.Cookie
  isDead : Bool
  refcount : ℕ

/-- `struct wg_device` without its peers. -/
structure Basics where
  staticIdentity : Noise.NoiseStaticIdentity
  cookieChecker : Cookies.CookieChecker
  incomingPort : U16
  fwmark : U32
  deviceUpdateGen : U32
  obfuscation : DevState

/-- A device with its peers, which are known by their `internal_id`. -/
structure Device extends Basics where
  peers : ℕ → Option WgPeer
  peerCounter : ℕ
  peerList : List ℕ
  peerHashtable : U64 → List ℕ
  numPeers : ℕ
  peerAllowedips : Table ℕ

def maxPeersPerDevice : ℕ := 2 ^ 20

/-- `wg_newlink`. -/
def wgNewlink (now : U64) (random : Bytes) (allocations : ℕ) : Device where
  staticIdentity := ⟨Noise.nullPoint, Noise.nullPoint, false⟩
  cookieChecker := Cookies.wgCookieCheckerInit now random
  incomingPort := 0
  fwmark := 0
  deviceUpdateGen := 1
  obfuscation := ⟨wgSetup, allocations⟩
  peers := fun _ => none
  peerCounter := 0
  peerList := []
  peerHashtable := fun _ => []
  numPeers := 0
  peerAllowedips := wgAllowedipsInit

def modifyPeer (peer : ℕ) (f : WgPeer → WgPeer) (wg : Device) : Option Device :=
  (wg.peers peer).map fun p => { wg with peers := Function.update wg.peers peer (some (f p)) }

/-- `wg_peer_get`. -/
def wgPeerGet (peer : ℕ) : Device → Option Device :=
  modifyPeer peer fun p => { p with refcount := p.refcount + 1 }

/-- `wg_peer_put`: the last reference frees the peer. -/
def wgPeerPut (peer : ℕ) (wg : Device) : Option Device :=
  (wg.peers peer).bind fun p =>
    if p.refcount = 0 then none
    else if p.refcount = 1 then some { wg with peers := Function.update wg.peers peer none }
    else modifyPeer peer (fun p => { p with refcount := p.refcount - 1 }) wg

section Platform

variable (pl : Platform)

/-! ## The table of public keys -/

/-- `pubkey_bucket`. -/
def pubkeyBucket (pubkey : Bytes) : U64 := pl.siphash pubkey &&& (2048 - 1)

/-- `wg_pubkey_hashtable_add`. -/
def wgPubkeyHashtableAdd (peer : ℕ) (pubkey : Bytes) (wg : Device) : Device :=
  let bucket := pubkeyBucket pl pubkey
  { wg with
    peerHashtable :=
      Function.update wg.peerHashtable bucket (peer :: wg.peerHashtable bucket) }

/-- `wg_pubkey_hashtable_remove`. -/
def wgPubkeyHashtableRemove (peer : ℕ) (wg : Device) : Device :=
  { wg with peerHashtable := fun bucket => (wg.peerHashtable bucket).filter (· ≠ peer) }

/-- The walk over a bucket. -/
def findPeer (wg : Device) (pubkey : Bytes) : List ℕ → Option (Option ℕ)
  | [] => some none
  | peer :: rest =>
    (wg.peers peer).bind fun p =>
      if pubkey = p.remoteStatic then some (some peer) else findPeer wg pubkey rest

/-- `wg_pubkey_hashtable_lookup`, with a reference to the peer if there is one. -/
def wgPubkeyHashtableLookup (pubkey : Bytes) (wg : Device) : Option (Option ℕ × Device) :=
  (findPeer wg pubkey (wg.peerHashtable (pubkeyBucket pl pubkey))).bind fun found =>
    match found with
    | none => some (none, wg)
    | some peer =>
      (wg.peers peer).bind fun p =>
        if p.refcount = 0 then some (none, wg)
        else (wgPeerGet peer wg).map fun wg => (some peer, wg)

/-! ## Creation and removal of peers -/

/-- `wg_noise_precompute_static_static`. -/
def wgNoisePrecomputeStaticStatic (identity : Noise.NoiseStaticIdentity) (p : WgPeer) : WgPeer :=
  { p with
    precomputedStaticStatic :=
      if identity.hasIdentity then
        (Noise.curve25519 pl.noise identity.staticPrivate p.remoteStatic).getD Noise.nullPoint
      else Noise.nullPoint }

/-- A peer after `wg_noise_handshake_init`, `wg_cookie_init` and
`wg_cookie_checker_precompute_peer_keys`. -/
def newPeer (identity : Noise.NoiseStaticIdentity) (publicKey : Bytes)
    (presharedKey : Option Bytes) : WgPeer :=
  wgNoisePrecomputeStaticStatic pl identity
    { presharedKey := presharedKey.getD (List.replicate noiseSymmetricKeyLen 0)
      endpoint := .none
      persistentKeepaliveInterval := 0
      advancedSecurity := false
      remoteStatic := publicKey
      precomputedStaticStatic := Noise.nullPoint
      latestCookie :=
        Cookies.wgCookieCheckerPrecomputePeerKeys pl.cookies publicKey Cookies.wgCookieInit
      isDead := false
      refcount := 1 }

/-- `wg_peer_create`. The two flags say whether the peer and its cache of routes can be
allocated. -/
def wgPeerCreate (publicKey : Bytes) (presharedKey : Option Bytes) (granted : Bool × Bool)
    (wg : Device) : Option ℕ × Device :=
  if maxPeersPerDevice ≤ wg.numPeers then (none, wg)
  else if !granted.1 then (none, wg)
  else if !granted.2 then (none, wg)
  else
    let peer := wg.peerCounter + 1
    let wg := { wg with
      peers := Function.update wg.peers peer
        (some (newPeer pl wg.staticIdentity publicKey presharedKey))
      peerCounter := peer
      peerList := wg.peerList ++ [peer] }
    let wg := wgPubkeyHashtableAdd pl peer publicKey wg
    (some peer, { wg with numPeers := wg.numPeers + 1 })

def peerMakeDead (peer : ℕ) (wg : Device) : Option Device :=
  let wg := { wg with peerList := wg.peerList.filter (· ≠ peer) }
  (wgAllowedipsRemoveByPeer peer wg.peerAllowedips).bind fun table =>
    let wg := wgPubkeyHashtableRemove peer { wg with peerAllowedips := table }
    modifyPeer peer (fun p => { p with isDead := true }) wg

def peerRemoveAfterDead (peer : ℕ) (wg : Device) : Option Device :=
  if wg.numPeers = 0 then none
  else wgPeerPut peer { wg with numPeers := wg.numPeers - 1 }

def wgPeerRemove (peer : ℕ) (wg : Device) : Option Device :=
  (peerMakeDead peer wg).bind (peerRemoveAfterDead peer)

def wgPeerRemoveAll (wg : Device) : Option Device :=
  (wgAllowedipsFree wg.peerAllowedips).bind fun table =>
    let wg := { wg with peerAllowedips := table }
    let peers := wg.peerList
    (peers.foldlM (fun wg peer => peerMakeDead peer wg) wg).bind fun wg =>
      peers.foldlM (fun wg peer => peerRemoveAfterDead peer wg) wg

/-! ## Endpoints -/

def afInet : ℕ := 2
def afInet6 : ℕ := 10

/-- The bytes of a field. -/
def field (bytes : Bytes) (offset len : ℕ) : Bytes := (bytes.drop offset).take len

/-- `endpoint_eq`. -/
def endpointEq : Endpoint → Endpoint → Bool
  | .v4 a s, .v4 b t => field a 2 2 = field b 2 2 ∧ field a 4 4 = field b 4 4 ∧ s = t
  | .v6 a s, .v6 b t =>
    field a 2 2 = field b 2 2 ∧ field a 8 16 = field b 8 16 ∧ field a 24 4 = field b 24 4 ∧ s = t
  | .none, .none => true
  | _, _ => false

/-- `wg_socket_set_peer_endpoint`: what becomes of the endpoint. -/
def wgSocketSetPeerEndpoint (endpoint old : Endpoint) : Endpoint :=
  if endpointEq endpoint old then old
  else
    match endpoint with
    | .none => old
    | endpoint => endpoint

/-- The headers of an `sk_buff` as far as the endpoint goes, with the interface it came in by and,
for IPv6, what `ipv6_iface_scope_id` makes of it. -/
inductive SkbAddrs where
  | ip (source : U16) (saddr daddr iif : U32)
  | ipv6 (source : U16) (saddr daddr : BitVec 128) (scopeId : U32)
  | other

/-- `wg_socket_endpoint_from_skb`. -/
def wgSocketEndpointFromSkb : SkbAddrs → Option Endpoint
  | .ip source saddr daddr iif =>
    some (.v4
      (pl.endian.store 2 afInet ++ Wire.be 2 source.toNat ++ Wire.be 4 saddr.toNat ++
        List.replicate 8 0)
      (Wire.be 4 daddr.toNat ++ pl.endian.store 4 iif.toNat))
  | .ipv6 source saddr daddr scopeId =>
    some (.v6
      (pl.endian.store 2 afInet6 ++ Wire.be 2 source.toNat ++ List.replicate 4 0 ++
        Wire.be 16 saddr.toNat ++ pl.endian.store 4 scopeId.toNat)
      (Wire.be 16 daddr.toNat))
  | .other => none

/-- `wg_socket_set_peer_endpoint_from_skb`. -/
def wgSocketSetPeerEndpointFromSkb (skb : SkbAddrs) (s : Settings) : Settings :=
  match wgSocketEndpointFromSkb pl skb with
  | none => s
  | some endpoint => { s with endpoint := wgSocketSetPeerEndpoint endpoint s.endpoint }

/-- `wg_socket_clear_peer_endpoint_src`. -/
def wgSocketClearPeerEndpointSrc : Endpoint → Endpoint
  | .none => .none
  | .v4 addr _ => .v4 addr (List.replicate 8 0)
  | .v6 addr _ => .v6 addr (List.replicate 16 0)

def clearSrc (s : Settings) : Settings :=
  { s with endpoint := wgSocketClearPeerEndpointSrc s.endpoint }

/-! ## Settings of a peer -/

def hasFlag (flags mask : U32) : Bool := flags &&& mask ≠ 0

/-- `enum wgpeer_flag`, `enum wgdevice_flag` and `enum wgallowedip_flag`. -/
def wgpeerFRemoveMe : U32 := 1 <<< 0
def wgpeerFReplaceAllowedips : U32 := 1 <<< 1
def wgpeerFUpdateOnly : U32 := 1 <<< 2
def wgpeerFHasAdvancedSecurity : U32 := 1 <<< 3
def wgdeviceFReplacePeers : U32 := 1 <<< 0
def wgallowedipFRemoveMe : U32 := 1 <<< 0

/-- A `WGPEER_A_ALLOWEDIPS` entry, and whether the nodes can be allocated that it may need. -/
structure AllowedipAttrs where
  family : Option U16
  ipaddr : Option Bytes
  cidrMask : Option U8
  flags : Option U32
  granted : Bool × Bool

/-- A `WGDEVICE_A_PEERS` entry, and whether a new peer can be allocated. Entries that
`nla_parse_nested` rejects are errors. -/
structure PeerAttrs where
  publicKey : Option Bytes
  presharedKey : Option Bytes
  flags : Option U32
  protocolVersion : Option U32
  endpoint : Option Bytes
  allowedips : Option (List (Except Errno AllowedipAttrs))
  persistentKeepaliveInterval : Option U16
  advancedSecurity : Bool
  granted : Bool × Bool

/-- What a function returns. -/
def code : Errno → ℤ
  | .EINVAL => -22
  | .ENOMEM => -12
  | .ERANGE => -34
  | .EPERM => -1
  | .EMSGSIZE => -90

/-- The call that `set_allowedip` makes, if the entry is complete and fits. -/
def AllowedipAttrs.op {P : Type} (attrs : AllowedipAttrs) (peer : P) : Option (Op P) :=
  match attrs.family, attrs.ipaddr, attrs.cidrMask with
  | some family, some ip, some cidr =>
    let change (f : Family) (ip : Address f) : Op P :=
      if hasFlag (attrs.flags.getD 0) wgallowedipFRemoveMe then .remove f ip cidr.toNat peer
      else .insert f ip cidr.toNat peer attrs.granted
    if h : family.toNat = afInet ∧ cidr.toNat ≤ 32 ∧ ip.length = 4 then
      some (change .v4 ⟨ip, h.2.2⟩)
    else if h : family.toNat = afInet6 ∧ cidr.toNat ≤ 128 ∧ ip.length = 16 then
      some (change .v6 ⟨ip, h.2.2⟩)
    else none
  | _, _, _ => none

def setAllowedip (peer : ℕ) (attrs : AllowedipAttrs) (wg : Device) : Option (ℤ × Device) :=
  match attrs.op peer with
  | none => some (code .EINVAL, wg)
  | some op =>
    (step pl.endian wg.peerAllowedips op).map fun (ret, table) =>
      (ret, { wg with peerAllowedips := table })

/-- The loop over `WGPEER_A_ALLOWEDIPS`. -/
def setAllowedips (peer : ℕ) :
    List (Except Errno AllowedipAttrs) → Device → Option (ℤ × Device)
  | [], wg => some (0, wg)
  | .error e :: _, wg => some (code e, wg)
  | .ok attrs :: rest, wg =>
    (setAllowedip pl peer attrs wg).bind fun (ret, wg) =>
      if ret < 0 then some (ret, wg) else setAllowedips peer rest wg

/-- A key of the right length. -/
def keyOf (attr : Option Bytes) : Option Bytes := attr.filter (·.length = 32)

def setPresharedKey (presharedKey : Option Bytes) (s : Settings) : Settings :=
  { s with presharedKey := presharedKey.getD s.presharedKey }

/-- `WGPEER_A_ENDPOINT`: other lengths and families are ignored. -/
def setEndpoint (endpoint : Option Bytes) (s : Settings) : Settings :=
  match endpoint with
  | none => s
  | some addr =>
    let family := pl.endian.load (addr.take 2)
    if addr.length = 16 ∧ family = afInet then
      { s with
        endpoint := wgSocketSetPeerEndpoint (.v4 addr (List.replicate 8 0)) s.endpoint }
    else if addr.length = 28 ∧ family = afInet6 then
      { s with
        endpoint := wgSocketSetPeerEndpoint (.v6 addr (List.replicate 16 0)) s.endpoint }
    else s

def setInterval (interval : Option U16) (s : Settings) : Settings :=
  { s with
    persistentKeepaliveInterval := interval.getD s.persistentKeepaliveInterval }

def setAdvancedSecurity (flags : U32) (wg : WgDevice) (flag : Bool) (s : Settings) : Settings :=
  if hasFlag flags wgpeerFHasAdvancedSecurity then
    { s with advancedSecurity := wg.advancedSecurity && flag }
  else s

def modifySettings (peer : ℕ) (f : Settings → Settings) : Device → Option Device :=
  modifyPeer peer fun p => { p with toSettings := f p.toSettings }

/-- `WGPEER_F_REPLACE_ALLOWEDIPS`. -/
def replaceAllowedips (flags : U32) (peer : ℕ) (wg : Device) : Option Device :=
  if hasFlag flags wgpeerFReplaceAllowedips then
    (wgAllowedipsRemoveByPeer peer wg.peerAllowedips).map fun table =>
      { wg with peerAllowedips := table }
  else some wg

/-- The part of `set_peer` between finding or creating the peer and `out`. -/
def updatePeer (flags : U32) (presharedKey : Option Bytes) (attrs : PeerAttrs) (peer : ℕ)
    (wg : Device) : Option (ℤ × Device) :=
  if hasFlag flags wgpeerFRemoveMe then (wgPeerRemove peer wg).map fun wg => (0, wg)
  else do
    let wg ← modifySettings peer (setPresharedKey presharedKey) wg
    let wg ← modifySettings peer (setEndpoint pl attrs.endpoint) wg
    let wg ← replaceAllowedips flags peer wg
    let (ret, wg) ← setAllowedips pl peer (attrs.allowedips.getD []) wg
    if ret < 0 then some (ret, wg)
    else
      let wg ← modifySettings peer (setInterval attrs.persistentKeepaliveInterval) wg
      let wg ← modifySettings peer
        (setAdvancedSecurity flags wg.obfuscation.dev attrs.advancedSecurity) wg
      some (ret, wg)

/-- From where the peer is known on, with the `wg_peer_put` at `out`. -/
def updateAndPut (flags : U32) (presharedKey : Option Bytes) (attrs : PeerAttrs) (peer : ℕ)
    (wg : Device) : Option (ℤ × Device) :=
  (updatePeer pl flags presharedKey attrs peer wg).bind fun (ret, wg) =>
    (wgPeerPut peer wg).map fun wg => (ret, wg)

def setPeer (attrs : PeerAttrs) (wg : Device) : Option (ℤ × Device) :=
  match keyOf attrs.publicKey with
  | none => some (code .EINVAL, wg)
  | some publicKey =>
    let presharedKey := keyOf attrs.presharedKey
    let flags := attrs.flags.getD 0
    if attrs.protocolVersion.any (· ≠ 1) then some (-96, wg)
    else
      (wgPubkeyHashtableLookup pl publicKey wg).bind fun (found, wg) =>
        match found with
        | some peer => updateAndPut pl flags presharedKey attrs peer wg
        | none =>
          if hasFlag flags (wgpeerFRemoveMe ||| wgpeerFUpdateOnly) then some (0, wg)
          else
            -- The peer is new, so there are no allowed IPs to remove.
            let flags := flags &&& ~~~wgpeerFReplaceAllowedips
            if wg.staticIdentity.hasIdentity ∧ publicKey = wg.staticIdentity.staticPublic then
              some (0, wg)
            else
              match wgPeerCreate pl publicKey presharedKey attrs.granted wg with
              | (none, wg) => some (code .ENOMEM, wg)
              | (some peer, wg) =>
                (wgPeerGet peer wg).bind (updateAndPut pl flags presharedKey attrs peer)

/-- The loop over `WGDEVICE_A_PEERS`. -/
def setPeers : List (Except Errno PeerAttrs) → Device → Option (ℤ × Device)
  | [], wg => some (0, wg)
  | .error e :: _, wg => some (code e, wg)
  | .ok attrs :: rest, wg =>
    (setPeer pl attrs wg).bind fun (ret, wg) =>
      if ret < 0 then some (ret, wg) else setPeers rest wg

/-! ## Requests -/

/-- A `WG_CMD_SET_DEVICE` request. -/
structure SetDevice where
  flags : Option U32
  listenPort : Option U16
  fwmark : Option U32
  obfuscation : Request
  privateKey : Option Bytes
  peers : Option (List (Except Errno PeerAttrs))

/-- What a request finds around the device: whether its sender may change sockets, whether the
interface is up, and what `wg_socket_init` returns and the port that it gets. -/
structure Surroundings where
  capable : Bool
  netifRunning : Bool
  wgSocketInit : U16 → ℤ × U16

/-- A change of the settings of all peers. -/
def forAllPeers (f : WgPeer → WgPeer) (wg : Device) : Option Device :=
  wg.peerList.foldlM (fun wg peer => modifyPeer peer f wg) wg

def clearAllSrc : Device → Option Device :=
  forAllPeers fun p => { p with toSettings := clearSrc p.toSettings }

def setFwmark (fwmark : Option U32) (wg : Device) : Option Device :=
  match fwmark with
  | none => some wg
  | some fwmark => clearAllSrc { wg with fwmark }

def setPort (sur : Surroundings) (port : U16) (wg : Device) : Option (ℤ × Device) :=
  if wg.incomingPort = port then some (0, wg)
  else
    (clearAllSrc wg).map fun wg =>
      if !sur.netifRunning then (0, { wg with incomingPort := port })
      else
        let (ret, bound) := sur.wgSocketInit port
        (ret, if ret = 0 then { wg with incomingPort := bound } else wg)

def setListenPort (sur : Surroundings) (port : Option U16) (wg : Device) :
    Option (ℤ × Device) :=
  match port with
  | none => some (0, wg)
  | some port => setPort sur port wg

/-- A peer with the public key of the device is removed before the device gets it. -/
def removeOwn (privateKey : Bytes) (wg : Device) : Option Device :=
  match Noise.curve25519GeneratePublic pl.noise privateKey with
  | none => some wg
  | some publicKey =>
    (wgPubkeyHashtableLookup pl publicKey wg).bind fun (found, wg) =>
      match found with
      | none => some wg
      | some peer => (wgPeerPut peer wg).bind (wgPeerRemove peer)

/-- The identity with what is derived from it. -/
def setIdentity (privateKey : Bytes) (wg : Device) : Option Device :=
  let identity := Noise.wgNoiseSetStaticIdentityPrivateKey pl.noise privateKey wg.staticIdentity
  let wg := { wg with staticIdentity := identity }
  (forAllPeers (wgNoisePrecomputeStaticStatic pl identity) wg).map fun wg =>
    { wg with
      cookieChecker := Cookies.wgCookieCheckerPrecomputeDeviceKeys pl.cookies
        ⟨identity.hasIdentity, identity.staticPublic⟩ wg.cookieChecker }

/-- `WGDEVICE_A_PRIVATE_KEY`. -/
def setPrivateKey (privateKey : Option Bytes) (wg : Device) : Option Device :=
  match keyOf privateKey with
  | none => some wg
  | some privateKey =>
    if wg.staticIdentity.staticPrivate = privateKey then some wg
    else (removeOwn pl privateKey wg).bind (setIdentity pl privateKey)

/-- `WGDEVICE_F_REPLACE_PEERS`. -/
def replacePeers (flags : U32) (wg : Device) : Option Device :=
  if hasFlag flags wgdeviceFReplacePeers then wgPeerRemoveAll wg else some wg

/-- `wg_set_device` from the removal of all peers on. -/
def setKeysAndPeers (req : SetDevice) (wg : Device) : Option (ℤ × Device) := do
  let wg ← replacePeers (req.flags.getD 0) wg
  let wg ← setPrivateKey pl req.privateKey wg
  let checked := wgDeviceHandlePostConfig pl.mem wg.obfuscation
  let wg := { wg with obfuscation := checked.state }
  match checked.err with
  | some e => some (code e, wg)
  | none => setPeers pl (req.peers.getD []) wg

def wgSetDevice (sur : Surroundings) (req : SetDevice) (wg : Device) : Option (ℤ × Device) :=
  if (req.listenPort.isSome ∨ req.fwmark.isSome) ∧ ¬ sur.capable then some (code .EPERM, wg)
  else do
    let wg := { wg with deviceUpdateGen := wg.deviceUpdateGen + 1 }
    let wg ← setFwmark req.fwmark wg
    let (ret, wg) ← setListenPort sur req.listenPort wg
    if ret ≠ 0 then some (ret, wg)
    else
      let written := run (setAttr pl.mem) req.obfuscation.attrs wg.obfuscation
      let wg := { wg with obfuscation := written.state }
      match written.err with
      | some e => some (code e, wg)
      | none => setKeysAndPeers pl req wg

end Platform

end AmneziaWg.Config
