import AmneziaWg.Config.Model

/-!
# What a configuration is

Seen from outside, the peers of a device are a list of public keys with settings, and the
allowed IPs are a map from prefixes to public keys. A request changes them entry by entry. There
are no identifiers, references, buckets or tries here.

* **Specification**: `Conf`, and for each function of the setter what it does to it. Where
  memory may run out there are two outcomes, so an operation has a list of them.
* **Runs**: `runDevice` on devices and `Changes` on configurations.
-/

namespace AmneziaWg.Config

open Linux Stepwise AllowedIps

/-! ## Settings -/

/-- The endpoint that an address stands for, from any source address. -/
def endpointOf (e : Endian) (addr : Bytes) : Option Endpoint :=
  if addr.length = 16 ∧ e.load (addr.take 2) = afInet then some (.v4 addr (List.replicate 8 0))
  else if addr.length = 28 ∧ e.load (addr.take 2) = afInet6 then
    some (.v6 addr (List.replicate 16 0))
  else none

/-- A peer moves, unless it is there already. -/
def Settings.moveTo (endpoint : Option Endpoint) (s : Settings) : Settings :=
  { s with endpoint := (endpoint.filter fun new => !endpointEq new s.endpoint).getD s.endpoint }

/-- An entry names a prefix: its family, address and mask are there and fit. -/
structure AllowedipAttrs.Names (attrs : AllowedipAttrs) (f : Family) (ip : Address f) (cidr : ℕ) :
    Prop where
  family : attrs.family.map BitVec.toNat = some (match f with | .v4 => afInet | .v6 => afInet6)
  ipaddr : attrs.ipaddr = some ip.bytes
  cidrMask : attrs.cidrMask.map BitVec.toNat = some cidr
  fits : cidr ≤ f.bits

/-- A device as its users see it. -/
structure Conf extends Basics where
  peers : List (Bytes × Settings)
  routes : Reference Bytes

namespace Conf

/-- The values that a function may return, each with the configuration that it leaves. -/
abbrev Outcomes := List (ℤ × Conf)

def new (now : U64) (random : Bytes) (allocations : ℕ) : Conf where
  toBasics := (wgNewlink now random allocations).toBasics
  peers := []
  routes := fun _ _ => none

/-! ## Peers -/

def keys (c : Conf) : List Bytes := c.peers.map Prod.fst

def modify (key : Bytes) (f : Settings → Settings) (c : Conf) : Conf :=
  { c with peers := c.peers.map fun entry => if entry.1 = key then (key, f entry.2) else entry }

def modifyAll (f : Settings → Settings) (c : Conf) : Conf :=
  { c with peers := c.peers.map fun entry => (entry.1, f entry.2) }

/-- The prefixes of a peer are taken from it. -/
def dropRoutes (key : Bytes) (c : Conf) : Conf :=
  { c with routes := c.routes.apply (.removeByPeer key) }

def remove (key : Bytes) (c : Conf) : Conf :=
  { c.dropRoutes key with peers := c.peers.filter fun entry => entry.1 ≠ key }

def removeAll (c : Conf) : Conf := { c with peers := [], routes := fun _ _ => none }

def newSettings (presharedKey : Option Bytes) : Settings where
  presharedKey := presharedKey.getD (List.replicate noiseSymmetricKeyLen 0)
  endpoint := .none
  persistentKeepaliveInterval := 0
  advancedSecurity := false

def create (key : Bytes) (presharedKey : Option Bytes) (c : Conf) : Conf :=
  { c with peers := c.peers ++ [(key, newSettings presharedKey)] }

/-! ## Requests -/

def setAllowedip (key : Bytes) (attrs : AllowedipAttrs) (c : Conf) : Outcomes :=
  match attrs.op key with
  | none => [(code .EINVAL, c)]
  | some (.insert f ip cidr key granted) =>
    (0, { c with routes := c.routes.apply (.insert f ip cidr key granted) }) ::
      if granted = (true, true) then [] else [(code .ENOMEM, c)]
  | some op => [(0, { c with routes := c.routes.apply op })]

def setAllowedips (key : Bytes) : List (Except Errno AllowedipAttrs) → Conf → Outcomes
  | [], c => [(0, c)]
  | .error e :: _, c => [(code e, c)]
  | .ok attrs :: rest, c =>
    (setAllowedip key attrs c).flatMap fun (ret, c) =>
      if ret < 0 then [(ret, c)] else setAllowedips key rest c

section Platform

variable (pl : Platform)

def updatePeer (flags : U32) (presharedKey : Option Bytes) (attrs : PeerAttrs) (key : Bytes)
    (c : Conf) : Outcomes :=
  if hasFlag flags wgpeerFRemoveMe then [(0, c.remove key)]
  else
    let c := c.modify key fun s =>
      { s with presharedKey := presharedKey.getD s.presharedKey }
    let c := c.modify key (Settings.moveTo (attrs.endpoint.bind (endpointOf pl.endian)))
    let c := if hasFlag flags wgpeerFReplaceAllowedips then c.dropRoutes key else c
    (setAllowedips key (attrs.allowedips.getD []) c).map fun (ret, c) =>
      if ret < 0 then (ret, c)
      else
        let c := c.modify key fun s =>
          { s with
            persistentKeepaliveInterval :=
              attrs.persistentKeepaliveInterval.getD s.persistentKeepaliveInterval }
        let granted := c.obfuscation.dev.advancedSecurity && attrs.advancedSecurity
        (ret, c.modify key fun s =>
          { s with
            advancedSecurity :=
              if hasFlag flags wgpeerFHasAdvancedSecurity then granted else s.advancedSecurity })

def setPeer (attrs : PeerAttrs) (c : Conf) : Outcomes :=
  match keyOf attrs.publicKey with
  | none => [(code .EINVAL, c)]
  | some key =>
    let presharedKey := keyOf attrs.presharedKey
    let flags := attrs.flags.getD 0
    if attrs.protocolVersion.any (· ≠ 1) then [(-96, c)]
    else if key ∈ c.keys then updatePeer pl flags presharedKey attrs key c
    else if hasFlag flags (wgpeerFRemoveMe ||| wgpeerFUpdateOnly) then [(0, c)]
    else if c.staticIdentity.hasIdentity ∧ key = c.staticIdentity.staticPublic then [(0, c)]
    else if maxPeersPerDevice ≤ c.peers.length ∨ attrs.granted ≠ (true, true) then
      [(code .ENOMEM, c)]
    else
      updatePeer pl (flags &&& ~~~wgpeerFReplaceAllowedips) presharedKey attrs key
        (c.create key presharedKey)

def setPeers : List (Except Errno PeerAttrs) → Conf → Outcomes
  | [], c => [(0, c)]
  | .error e :: _, c => [(code e, c)]
  | .ok attrs :: rest, c =>
    (setPeer pl attrs c).flatMap fun (ret, c) =>
      if ret < 0 then [(ret, c)] else setPeers rest c

def setFwmark (fwmark : Option U32) (c : Conf) : Conf :=
  match fwmark with
  | none => c
  | some fwmark => modifyAll clearSrc { c with fwmark }

def setPort (sur : Surroundings) (port : U16) (c : Conf) : ℤ × Conf :=
  if c.incomingPort = port then (0, c)
  else
    let c := c.modifyAll clearSrc
    if !sur.netifRunning then (0, { c with incomingPort := port })
    else
      let (ret, bound) := sur.wgSocketInit port
      (ret, if ret = 0 then { c with incomingPort := bound } else c)

def setListenPort (sur : Surroundings) (port : Option U16) (c : Conf) : ℤ × Conf :=
  match port with
  | none => (0, c)
  | some port => c.setPort sur port

/-- No peer may have the key of the device. -/
def removeOwn (privateKey : Bytes) (c : Conf) : Conf :=
  match Noise.curve25519GeneratePublic pl.noise privateKey with
  | none => c
  | some publicKey => c.remove publicKey

def setIdentity (privateKey : Bytes) (c : Conf) : Conf :=
  let identity := Noise.wgNoiseSetStaticIdentityPrivateKey pl.noise privateKey c.staticIdentity
  { c with
    staticIdentity := identity
    cookieChecker := Cookies.wgCookieCheckerPrecomputeDeviceKeys pl.cookies
      ⟨identity.hasIdentity, identity.staticPublic⟩ c.cookieChecker }

def setPrivateKey (privateKey : Option Bytes) (c : Conf) : Conf :=
  match keyOf privateKey with
  | none => c
  | some privateKey =>
    if c.staticIdentity.staticPrivate = privateKey then c
    else (c.removeOwn pl privateKey).setIdentity pl privateKey

def setKeysAndPeers (req : SetDevice) (c : Conf) : Outcomes :=
  let c := if hasFlag (req.flags.getD 0) wgdeviceFReplacePeers then c.removeAll else c
  let c := c.setPrivateKey pl req.privateKey
  let checked := wgDeviceHandlePostConfig pl.mem c.obfuscation
  let c := { c with obfuscation := checked.state }
  match checked.err with
  | some e => [(code e, c)]
  | none => setPeers pl (req.peers.getD []) c

def setDevice (sur : Surroundings) (req : SetDevice) (c : Conf) : Outcomes :=
  if (req.listenPort.isSome ∨ req.fwmark.isSome) ∧ ¬ sur.capable then [(code .EPERM, c)]
  else
    let c := setFwmark req.fwmark { c with deviceUpdateGen := c.deviceUpdateGen + 1 }
    let (ret, c) := c.setListenPort sur req.listenPort
    if ret ≠ 0 then [(ret, c)]
    else
      let written := run (setAttr pl.mem) req.obfuscation.attrs c.obfuscation
      let c := { c with obfuscation := written.state }
      match written.err with
      | some e => [(code e, c)]
      | none => setKeysAndPeers pl req c

end Platform

end Conf

/-! ## Runs -/

/-- What happens to the configuration. -/
inductive Event where
  /-- A `WG_CMD_SET_DEVICE` request. -/
  | setDevice (sur : Surroundings) (req : SetDevice)
  /-- `wg_open`. -/
  | up (sur : Surroundings)
  /-- An authenticated packet of the peer with this key came in. The source knows the peer by the
  keypair of the packet. -/
  | roam (key : Bytes) (skb : SkbAddrs)
  /-- `wg_destruct`. -/
  | destruct

/-- The sockets are opened on the configured port. -/
def openSockets (sur : Surroundings) (b : Basics) : ℤ × Basics :=
  let (ret, bound) := sur.wgSocketInit b.incomingPort
  (ret, if ret = 0 then { b with incomingPort := bound } else b)

section Runs

variable (pl : Platform)

/-- What an event returns, and the device after it. -/
def Event.onDevice (wg : Device) : Event → Option (ℤ × Device)
  | .setDevice sur req => wgSetDevice pl sur req wg
  | .up sur =>
    let (ret, basics) := openSockets sur wg.toBasics
    some (ret, { wg with toBasics := basics })
  | .roam key skb =>
    (wgPubkeyHashtableLookup pl key wg).bind fun (found, wg) =>
      match found with
      | none => some (0, wg)
      | some peer =>
        (modifySettings peer (wgSocketSetPeerEndpointFromSkb pl skb) wg).bind fun wg =>
          (wgPeerPut peer wg).map fun wg => (0, wg)
  | .destruct => (wgPeerRemoveAll { wg with incomingPort := 0 }).map fun wg => (0, wg)

def Event.onConf (c : Conf) : Event → Conf.Outcomes
  | .setDevice sur req => c.setDevice pl sur req
  | .up sur =>
    let (ret, basics) := openSockets sur c.toBasics
    [(ret, { c with toBasics := basics })]
  | .roam key skb => [(0, c.modify key (Settings.moveTo (wgSocketEndpointFromSkb pl skb)))]
  | .destruct => [(0, Conf.removeAll { c with incomingPort := 0 })]

/-- The results of a sequence of events, and the device after them. -/
def runDevice : Device → List Event → Option (List ℤ × Device)
  | wg, [] => some ([], wg)
  | wg, event :: events =>
    (event.onDevice pl wg).bind fun (ret, wg) =>
      (runDevice wg events).map fun (rets, wg) => (ret :: rets, wg)

/-- The configuration may change like this. -/
inductive Changes : Conf → List Event → List ℤ → Conf → Prop
  | nil (c : Conf) : Changes c [] [] c
  | cons {c c' c'' : Conf} {event : Event} {events : List Event} {ret : ℤ} {rets : List ℤ}
      (hfirst : (ret, c') ∈ event.onConf pl c) (hrest : Changes c' events rets c'') :
      Changes c (event :: events) (ret :: rets) c''

end Runs

end AmneziaWg.Config
