import AmneziaWg.AllowedIps.ReadNode
import AmneziaWg.Config.Results
import AmneziaWg.Noise.Agreement

/-!
# A dump restores the peers

A dump lists every peer in one element, or in several if its allowed IPs do not fit into one
message: the first element has all settings, the others only say which peer goes on. Sent back
as they are, with `WGDEVICE_F_REPLACE_PEERS`, the elements set the same peers and the same
allowed IPs, on any device that validates its obfuscation settings, if memory does not run out.

* **Model**: `getPeer` and `getPeers`, the elements that `wg_get_device_dump` puts into its
  messages while `bogus_endpoints` is off. Where a message ends is a parameter.
* **Specification**: `Listing`, a peer with its allowed IPs, cut into pieces.
* **Restoring**: `setPeers_listings`, what the elements do to a configuration.
* **Result**: `config_round_trip`.
-/

namespace AmneziaWg.Config

open Linux Stepwise AllowedIps PrefixTree

/-! ## Model layer -/

section Model

variable (pl : Platform)

/-- `get_allowedips`, as the attributes are read back. -/
def getAllowedips (f : Family) (ip : Bytes) (cidr : ℕ) : AllowedipAttrs where
  family := some (match f with
    | .v4 => BitVec.ofNat 16 afInet
    | .v6 => BitVec.ofNat 16 afInet6)
  ipaddr := some (ip.take (f.bits / 8))
  cidrMask := some (BitVec.ofNat 8 cidr)
  flags := none
  granted := (true, true)

/-- `WGPEER_A_ENDPOINT`. -/
def shownEndpoint : Endpoint → Option Bytes
  | .none => none
  | .v4 addr _ => some addr
  | .v6 addr _ => some addr

/-- The first element of a peer. -/
def firstElement (key : Bytes) (s : Settings) (allowedips : List AllowedipAttrs) : PeerAttrs where
  publicKey := some key
  presharedKey := some s.presharedKey
  flags := some wgpeerFHasAdvancedSecurity
  protocolVersion := some 1
  endpoint := shownEndpoint s.endpoint
  allowedips := some (allowedips.map .ok)
  persistentKeepaliveInterval := some s.persistentKeepaliveInterval
  advancedSecurity := s.advancedSecurity
  granted := (true, true)

/-- An element that continues a peer. -/
def nextElement (key : Bytes) (s : Settings) (allowedips : List AllowedipAttrs) : PeerAttrs where
  publicKey := some key
  presharedKey := none
  flags := some wgpeerFHasAdvancedSecurity
  protocolVersion := none
  endpoint := none
  allowedips := some (allowedips.map .ok)
  persistentKeepaliveInterval := none
  advancedSecurity := s.advancedSecurity
  granted := (true, true)

/-- A peer with its allowed IPs: how many go into each element, and the rest into the last. -/
def elements (key : Bytes) (s : Settings) (allowedips : List AllowedipAttrs) :
    List ℕ → List PeerAttrs
  | [] => [firstElement key s allowedips]
  | size :: sizes => firstElement key s (allowedips.take size) :: continued (allowedips.drop size) sizes
where
  continued (allowedips : List AllowedipAttrs) : List ℕ → List PeerAttrs
    | [] => [nextElement key s allowedips]
    | size :: sizes =>
      nextElement key s (allowedips.take size) :: continued (allowedips.drop size) sizes

/-- What is read of a node on the list of a peer. -/
def readAllowedip (buffer : Bytes) (wg : Device) (node : ℕ) : Option AllowedipAttrs := do
  let cell ← wg.peerAllowedips.heap.cells node
  let (f, ip, cidr) ← wgAllowedipsReadNode pl.endian cell.data buffer
  return getAllowedips f ip cidr

/-- `get_peer`, until the peer is complete. `buffer` is what `ip` held before. -/
def getPeer (buffer : Bytes) (sizes : List ℕ) (peer : ℕ) (wg : Device) :
    Option (List PeerAttrs) := do
  let p ← wg.peers peer
  let allowedips ← (wg.peerAllowedips.lists peer).mapM (readAllowedip pl buffer wg)
  return elements p.remoteStatic p.toSettings allowedips sizes

/-- All elements of a dump. -/
def getPeers (buffer : Bytes) (sizes : ℕ → List ℕ) (wg : Device) : Option (List PeerAttrs) :=
  (wg.peerList.mapM fun peer => getPeer pl buffer (sizes peer) peer wg).map List.flatten

/-- The request that sends them back. -/
def restore (elements : List PeerAttrs) : SetDevice where
  flags := some wgdeviceFReplacePeers
  listenPort := none
  fwmark := none
  obfuscation := {}
  privateKey := none
  peers := some (elements.map .ok)

/-- What becomes of the settings: the source address is found anew, and advanced security needs
the one of the device. -/
def restored (dev : WgDevice) (s : Settings) : Settings :=
  { clearSrc s with advancedSecurity := dev.advancedSecurity && s.advancedSecurity }

end Model

variable {pl : Platform} {c : Conf} {key : Bytes} {s : Settings}

/-! ## Restoring -/

/-- The entry sets a prefix. -/
def Inserts (attrs : AllowedipAttrs) : Prop :=
  ∃ (f : Family) (ip : Address f) (cidr : ℕ),
    ∀ {P : Type} (peer : P), attrs.op peer = some (.insert f ip cidr peer (true, true))

/-- The calls that the entries make for a key. -/
def calls (key : Bytes) (allowedips : List AllowedipAttrs) : List (Op Bytes) :=
  allowedips.filterMap (·.op key)

variable {allowedips : List AllowedipAttrs}

theorem setAllowedips_inserts (h : ∀ attrs ∈ allowedips, Inserts attrs) (c : Conf) :
    c.setAllowedips key (allowedips.map .ok) =
      [(0, { c with routes := (calls key allowedips).foldl Reference.apply c.routes })] := by
  induction allowedips generalizing c with
  | nil => rfl
  | cons attrs allowedips ih =>
    obtain ⟨f, ip, cidr, hop⟩ := h attrs List.mem_cons_self
    rw [List.map_cons, Conf.setAllowedips, Conf.setAllowedip, hop, calls, List.filterMap_cons,
      hop, List.foldl_cons]
    dsimp only
    rw [if_pos rfl, List.flatMap_singleton]
    exact ih (fun other hother => h other (List.mem_cons_of_mem _ hother)) _

/-- A peer is put behind the others, and calls are made for it. -/
def Conf.listed (c : Conf) (key : Bytes) (s : Settings) (ops : List (Op Bytes)) : Conf :=
  { c with peers := c.peers ++ [(key, s)], routes := ops.foldl Reference.apply c.routes }

theorem modify_listed (hnew : key ∉ c.keys) (f : Settings → Settings) (ops : List (Op Bytes)) :
    (c.listed key s ops).modify key f = c.listed key (f s) ops := by
  have hold : ∀ entry ∈ c.peers,
      (if entry.1 = key then (key, f entry.2) else entry) = entry := fun entry hentry =>
    if_neg fun heq => hnew (List.mem_map.mpr ⟨entry, hentry, heq⟩)
  simp only [Conf.modify, Conf.listed, List.map_append, List.map_singleton, if_true]
  rw [List.map_congr_left hold, List.map_id']

/-- The last peer gets the settings of an element, and its prefixes. -/
theorem updatePeer_listed (hnew : key ∉ c.keys) (ops : List (Op Bytes)) {flags : U32}
    {presharedKey : Option Bytes} {attrs : PeerAttrs}
    (hremove : hasFlag flags wgpeerFRemoveMe = false)
    (hreplace : hasFlag flags wgpeerFReplaceAllowedips = false)
    (hattrs : attrs.allowedips = some (allowedips.map .ok))
    (hinserts : ∀ attrs ∈ allowedips, Inserts attrs) :
    (c.listed key s ops).updatePeer pl flags presharedKey attrs key =
      [(0, c.listed key
        { s.moveTo (attrs.endpoint.bind (endpointOf pl.endian)) with
          presharedKey := presharedKey.getD s.presharedKey
          persistentKeepaliveInterval :=
            attrs.persistentKeepaliveInterval.getD s.persistentKeepaliveInterval
          advancedSecurity :=
            if hasFlag flags wgpeerFHasAdvancedSecurity
            then c.obfuscation.dev.advancedSecurity && attrs.advancedSecurity
            else s.advancedSecurity }
        (ops ++ calls key allowedips))] := by
  have hset : ∀ s, (c.listed key s ops).setAllowedips key (allowedips.map .ok) =
      [(0, c.listed key s (ops ++ calls key allowedips))] := by
    intro s
    rw [setAllowedips_inserts hinserts]
    simp only [Conf.listed, List.foldl_append]
  simp only [Conf.updatePeer, hremove, hreplace, hattrs, Bool.false_eq_true, if_false,
    Option.getD_some, modify_listed hnew, hset, List.map_singleton, lt_irrefl]
  rfl

theorem keyOf_some (h : key.length = 32) : keyOf (some key) = some key := by
  simp [keyOf, h]

/-- An endpoint that was not there. -/
theorem moveTo_shown (hs : s.endpoint.WellFormed pl.endian) {new : Settings}
    (hnone : new.endpoint = .none) :
    new.moveTo ((shownEndpoint s.endpoint).bind (endpointOf pl.endian)) =
      { new with endpoint := wgSocketClearPeerEndpointSrc s.endpoint } := by
  obtain ⟨psk, endpoint, interval, advanced⟩ := new
  cases hnone
  cases hend : s.endpoint with
  | none => rfl
  | v4 addr src =>
    rw [hend] at hs
    have h4 : addr.length = 16 ∧ pl.endian.load (addr.take 2) = afInet := hs
    rw [shownEndpoint, Option.bind_some, endpointOf, if_pos h4]
    rfl
  | v6 addr src =>
    rw [hend] at hs
    have hne : ¬ (addr.length = 16 ∧ pl.endian.load (addr.take 2) = afInet) := by
      rw [hs.1]
      exact fun hcontra => absurd hcontra.1 (by decide)
    have h6 : addr.length = 28 ∧ pl.endian.load (addr.take 2) = afInet6 := hs
    rw [shownEndpoint, Option.bind_some, endpointOf, if_neg hne, if_pos h6]
    rfl

theorem setPeer_first (hnew : key ∉ c.keys) (hkey : key.length = 32)
    (hpsk : s.presharedKey.length = 32) (hendpoint : s.endpoint.WellFormed pl.endian)
    (hown : c.staticIdentity.hasIdentity = true → key ≠ c.staticIdentity.staticPublic)
    (hroom : c.peers.length < maxPeersPerDevice) (hinserts : ∀ attrs ∈ allowedips, Inserts attrs) :
    c.setPeer pl (firstElement key s allowedips) =
      [(0, c.listed key (restored c.obfuscation.dev s) (calls key allowedips))] := by
  have hcreate : c.create key (some s.presharedKey) =
      c.listed key (Conf.newSettings (some s.presharedKey)) [] := rfl
  rw [Conf.setPeer]
  simp only [firstElement, keyOf_some hkey, keyOf_some hpsk]
  rw [if_neg (by decide), if_neg hnew, if_neg (by decide), if_neg (fun h => hown h.1 h.2),
    if_neg (by simpa using hroom), hcreate]
  refine (updatePeer_listed hnew [] (by decide) (by decide) rfl hinserts).trans ?_
  rw [moveTo_shown hendpoint rfl, if_pos (by decide)]
  rfl

theorem setPeer_next (hnew : key ∉ c.keys) (hkey : key.length = 32) (ops : List (Op Bytes))
    (hinserts : ∀ attrs ∈ allowedips, Inserts attrs) :
    (c.listed key (restored c.obfuscation.dev s) ops).setPeer pl (nextElement key s allowedips) =
      [(0, c.listed key (restored c.obfuscation.dev s) (ops ++ calls key allowedips))] := by
  have hmem : key ∈ (c.listed key (restored c.obfuscation.dev s) ops).keys := by
    simp [Conf.keys, Conf.listed]
  rw [Conf.setPeer]
  simp only [nextElement, keyOf_some hkey, Option.any_none, Bool.false_eq_true, if_false,
    if_pos hmem]
  refine (updatePeer_listed hnew ops (by decide) (by decide) rfl hinserts).trans ?_
  rw [if_pos (by decide)]
  rfl

section Elements

variable {allowedips : List AllowedipAttrs}

theorem setPeers_of_setPeer {attrs : PeerAttrs} {c' : Conf} (h : c.setPeer pl attrs = [(0, c')])
    (rest : List (Except Errno PeerAttrs)) :
    c.setPeers pl (.ok attrs :: rest) = c'.setPeers pl rest := by
  rw [Conf.setPeers, h, List.flatMap_singleton]
  rfl

theorem calls_take_drop (key : Bytes) (allowedips : List AllowedipAttrs) (size : ℕ) :
    calls key (allowedips.take size) ++ calls key (allowedips.drop size) = calls key allowedips := by
  rw [calls, calls, ← List.filterMap_append, List.take_append_drop, calls]

/-- The elements that continue a peer bring the rest of its allowed IPs. -/
theorem setPeers_continued (hnew : key ∉ c.keys) (hkey : key.length = 32)
    (hinserts : ∀ attrs ∈ allowedips, Inserts attrs) (ops : List (Op Bytes)) (sizes : List ℕ)
    (rest : List (Except Errno PeerAttrs)) :
    (c.listed key (restored c.obfuscation.dev s) ops).setPeers pl
        ((elements.continued key s allowedips sizes).map .ok ++ rest) =
      (c.listed key (restored c.obfuscation.dev s) (ops ++ calls key allowedips)).setPeers pl
        rest := by
  induction sizes generalizing allowedips ops with
  | nil => exact setPeers_of_setPeer (setPeer_next hnew hkey ops hinserts) rest
  | cons size sizes ih =>
    have htake : ∀ attrs ∈ allowedips.take size, Inserts attrs := fun attrs hattrs =>
      hinserts attrs (List.mem_of_mem_take hattrs)
    have hdrop : ∀ attrs ∈ allowedips.drop size, Inserts attrs := fun attrs hattrs =>
      hinserts attrs (List.mem_of_mem_drop hattrs)
    refine (setPeers_of_setPeer (setPeer_next hnew hkey ops htake) _).trans ((ih hdrop _).trans ?_)
    rw [List.append_assoc, calls_take_drop]

end Elements

/-- What a dump says of a peer. -/
structure Listing where
  key : Bytes
  settings : Settings
  allowedips : List AllowedipAttrs
  sizes : List ℕ

def Listing.elements (l : Listing) : List PeerAttrs :=
  Config.elements l.key l.settings l.allowedips l.sizes

/-- It can be set. -/
structure Listing.Valid (pl : Platform) (l : Listing) : Prop where
  key : l.key.length = 32
  presharedKey : l.settings.presharedKey.length = 32
  endpoint : l.settings.endpoint.WellFormed pl.endian
  inserts : ∀ attrs ∈ l.allowedips, Inserts attrs

/-- A new peer is set, wherever its elements are cut. -/
theorem setPeers_elements {l : Listing} (hl : l.Valid pl) (hnew : l.key ∉ c.keys)
    (hown : c.staticIdentity.hasIdentity = true → l.key ≠ c.staticIdentity.staticPublic)
    (hroom : c.peers.length < maxPeersPerDevice) (rest : List (Except Errno PeerAttrs)) :
    c.setPeers pl (l.elements.map .ok ++ rest) =
      (c.listed l.key (restored c.obfuscation.dev l.settings)
        (calls l.key l.allowedips)).setPeers pl rest := by
  obtain ⟨key, s, allowedips, sizes⟩ := l
  cases sizes with
  | nil =>
    exact setPeers_of_setPeer (setPeer_first hnew hl.key hl.presharedKey hl.endpoint hown hroom
      hl.inserts) rest
  | cons size sizes =>
    have htake : ∀ attrs ∈ allowedips.take size, Inserts attrs := fun attrs hattrs =>
      hl.inserts attrs (List.mem_of_mem_take hattrs)
    have hdrop : ∀ attrs ∈ allowedips.drop size, Inserts attrs := fun attrs hattrs =>
      hl.inserts attrs (List.mem_of_mem_drop hattrs)
    refine (setPeers_of_setPeer (setPeer_first hnew hl.key hl.presharedKey hl.endpoint hown hroom
      htake) _).trans ((setPeers_continued hnew hl.key hdrop _ sizes rest).trans ?_)
    rw [calls_take_drop]

/-- The elements of all peers, one after the other. -/
theorem setPeers_listings {ls : List Listing} (hls : ∀ l ∈ ls, l.Valid pl)
    (hnodup : (ls.map Listing.key).Nodup) (hnew : ∀ l ∈ ls, l.key ∉ c.keys)
    (hown : c.staticIdentity.hasIdentity = true →
      ∀ l ∈ ls, l.key ≠ c.staticIdentity.staticPublic)
    (hroom : c.peers.length + ls.length ≤ maxPeersPerDevice) :
    c.setPeers pl ((ls.flatMap Listing.elements).map .ok) =
      [(0, { c with
        peers := c.peers ++ ls.map fun l => (l.key, restored c.obfuscation.dev l.settings)
        routes := (ls.flatMap fun l => calls l.key l.allowedips).foldl Reference.apply
          c.routes })] := by
  induction ls generalizing c with
  | nil => simp [Conf.setPeers]
  | cons l ls ih =>
    rw [List.length_cons] at hroom
    obtain ⟨hfirst, hnodup⟩ := List.nodup_cons.mp hnodup
    rw [List.flatMap_cons, List.map_append, setPeers_elements (hls l List.mem_cons_self)
      (hnew l List.mem_cons_self) (fun hidentity => hown hidentity l List.mem_cons_self)
      (by omega), ih]
    · simp only [Conf.listed, List.map_cons, List.flatMap_cons, List.foldl_append,
        List.append_assoc, List.singleton_append]
    · exact fun other hother => hls other (List.mem_cons_of_mem _ hother)
    · exact hnodup
    · intro other hother hmem
      have hcases : other.key ∈ c.keys ++ [l.key] := by
        simpa [Conf.keys, Conf.listed] using hmem
      rcases List.mem_append.mp hcases with hold | hsame
      · exact hnew other (List.mem_cons_of_mem _ hother) hold
      · rw [← List.mem_singleton.mp hsame] at hfirst
        exact hfirst (List.mem_map_of_mem hother)
    · exact fun hidentity other hother => hown hidentity other (List.mem_cons_of_mem _ hother)
    · simp only [Conf.listed, List.length_append, List.length_singleton]
      omega

/-! ## Dumping -/

section Dump

variable {wg : Device} {t : Family → Tree ℕ ℕ} {m : Reference ℕ} {buffer : Bytes} {peer n : ℕ}

theorem getAllowedips_op {f : Family} {ip : Bytes} {cidr : ℕ} (hcidr : cidr ≤ f.bits)
    (hip : (ip.take (f.bits / 8)).length = f.bits / 8) {P : Type} (peer : P) :
    (getAllowedips f ip cidr).op peer = some (.insert f ⟨ip.take (f.bits / 8), hip⟩ cidr peer
      (true, true)) := by
  have hnat : (BitVec.ofNat 8 cidr).toNat = cidr := by
    have hwidth := (bits_le f).1
    rw [BitVec.toNat_ofNat]
    omega
  have hflags : hasFlag ((none : Option U32).getD 0) wgallowedipFRemoveMe = false := by decide
  cases f with
  | v4 =>
    simp only [AllowedipAttrs.op, getAllowedips, hnat, hflags]
    exact dif_pos ⟨by decide, hcidr, hip⟩
  | v6 =>
    simp only [AllowedipAttrs.op, getAllowedips, hnat, hflags]
    refine (dif_neg fun hcontra => ?_).trans (dif_pos ⟨by decide, hcidr, hip⟩)
    exact absurd hcontra.1 (by decide)

/-- A node on the list of a peer is read as an insertion of its prefix. -/
theorem readAllowedip_spec (hinv : Inv pl.endian wg.peerAllowedips t)
    (hm : ∀ f, (t f).Represents (m f)) (hbuffer : buffer.length = 16)
    (hn : n ∈ wg.peerAllowedips.lists peer) :
    ∃ (attrs : AllowedipAttrs) (f : Family) (ip : Address f) (cidr : ℕ),
      readAllowedip pl buffer wg n = some attrs ∧
      (∀ {P : Type} (peer : P), attrs.op peer = some (.insert f ip cidr peer (true, true))) ∧
      cidr ≤ f.bits ∧ m f ((netBits ip.bytes).take cidr) = some peer ∧
      Valued (t f).nodes n ((netBits ip.bytes).take cidr) peer := by
  obtain ⟨op, f, q, hdump, ⟨ip, cidr, peer', rfl, hcidr, rfl, hq⟩, hvalued⟩ :=
    dumpNode_restores hinv hm hbuffer hn
  rw [dumpNode] at hdump
  obtain ⟨cell, hcell, hdump⟩ := Option.bind_eq_some_iff.mp hdump
  obtain ⟨⟨f', ip', cidr'⟩, hread, hdump⟩ := Option.bind_eq_some_iff.mp hdump
  dsimp only at hdump
  split at hdump
  · next hip =>
    cases hdump
    refine ⟨getAllowedips f ip' cidr, f, _, cidr, ?_, getAllowedips_op hcidr hip, hcidr, hq,
      hvalued⟩
    simp only [readAllowedip, hcell, hread, Option.bind_eq_bind, Option.bind_some]
    rfl
  · cases hdump

/-- A node has one prefix. -/
theorem valued_eq (hinv : Inv pl.endian wg.peerAllowedips t) {f g : Family} {q r : Bits}
    {v w : ℕ} (hf : Valued (t f).nodes n q v) (hg : Valued (t g).nodes n r w) : f = g ∧ q = r := by
  obtain ⟨x, hx, hxn, rfl, -⟩ := hf
  obtain ⟨y, hy, hyn, rfl, -⟩ := hg
  have hsame : f = g := by
    by_contra hne
    exact hinv.disjoint f g hne x hx y hy (hxn.trans hyn.symm)
  subst hsame
  exact ⟨rfl, (hinv.tag_eq_iff hx hy).mp (hxn.trans hyn.symm)⟩

/-- What the elements of a peer say is what the configuration says of it. -/
structure Lists (pl : Platform) (wg : Device) (m : Reference ℕ) (c : Conf) (peer : ℕ)
    (l : Listing) : Prop where
  entry : wg.entry peer = some (l.key, l.settings)
  valid : l.Valid pl
  sound : ∀ op ∈ calls l.key l.allowedips, ∃ f q, Restores c.routes f q op
  complete : ∀ f q, m f q = some peer →
    ∃ op ∈ calls l.key l.allowedips, Restores c.routes f q op

theorem getPeer_lists (h : Represents pl [] [] wg c) (hsound : wg.Sound pl)
    (hinv : Inv pl.endian wg.peerAllowedips t) (hm : ∀ f, (t f).Represents (m f))
    (hroutes : ∀ f q, c.routes f q = (m f q).bind wg.key) (hbuffer : buffer.length = 16)
    (sizes : List ℕ) (hmem : peer ∈ wg.peerList) :
    ∃ l : Listing, getPeer pl buffer sizes peer wg = some l.elements ∧ Lists pl wg m c peer l := by
  obtain ⟨p, hp⟩ := h.allocated hmem
  have hread : ∀ n ∈ wg.peerAllowedips.lists peer, ∃ attrs, readAllowedip pl buffer wg n =
      some attrs ∧ ∃ (f : Family) (ip : Address f) (cidr : ℕ),
        (∀ {P : Type} (peer : P), attrs.op peer = some (.insert f ip cidr peer (true, true))) ∧
        cidr ≤ f.bits ∧ m f ((netBits ip.bytes).take cidr) = some peer ∧
        Valued (t f).nodes n ((netBits ip.bytes).take cidr) peer := by
    intro n hn
    obtain ⟨attrs, f, ip, cidr, hattrs, hop⟩ := readAllowedip_spec hinv hm hbuffer hn
    exact ⟨attrs, hattrs, f, ip, cidr, hop⟩
  obtain ⟨allowedips, hallowedips, hfrom, hto⟩ := mapM_exists hread
  obtain ⟨hkey, hpsk, hendpoint⟩ := hsound.sized peer p hp
  -- a prefix of the peer is one with its key
  have hrestores : ∀ {f : Family} {q : Bits}, m f q = some peer →
      c.routes f q = some p.remoteStatic := by
    intro f q hq
    rw [hroutes f q, hq, Option.bind_some, key_eq hp]
  refine ⟨⟨p.remoteStatic, p.toSettings, allowedips, sizes⟩, ?_, ?_, ⟨hkey, hpsk, hendpoint, ?_⟩,
    ?_, ?_⟩
  · simp only [getPeer, hp, hallowedips, Option.bind_eq_bind, Option.bind_some]
    rfl
  · rw [Device.entry, hp, Option.map_some]
  · intro attrs hattrs
    obtain ⟨n, -, f, ip, cidr, hop, -⟩ := hfrom attrs hattrs
    exact ⟨f, ip, cidr, hop⟩
  · intro op hop
    obtain ⟨attrs, hattrs, hcall⟩ := List.mem_filterMap.mp hop
    obtain ⟨n, -, f, ip, cidr, hinsert, hcidr, hq, -⟩ := hfrom attrs hattrs
    rw [hinsert] at hcall
    cases hcall
    exact ⟨f, _, ip, cidr, _, rfl, hcidr, rfl, hrestores hq⟩
  · intro f q hq
    obtain ⟨x, hx, rfl, hval⟩ := (hm f q peer).mp hq
    have hvalued : Valued (t f).nodes x.tag x.pre peer := ⟨x, hx, rfl, rfl, hval⟩
    obtain ⟨attrs, hattrs, g, ip, cidr, hinsert, hcidr, hr, hvalued'⟩ :=
      hto x.tag ((hinv.lists peer x.tag).mpr ⟨f, x.pre, hvalued⟩)
    obtain ⟨rfl, hsame⟩ := valued_eq hinv hvalued hvalued'
    refine ⟨_, List.mem_filterMap.mpr ⟨attrs, hattrs, hinsert _⟩, ip, cidr, _, rfl, hcidr, hsame.symm,
      hrestores hq⟩

theorem mapM_eq_map {α β : Type} {g : α → Option β} {k : α → β} {l : List α}
    (h : ∀ a ∈ l, g a = some (k a)) : l.mapM g = some (l.map k) := by
  induction l with
  | nil => rfl
  | cons a l ih =>
    rw [List.mapM_cons, h a List.mem_cons_self,
      ih fun other hother => h other (List.mem_cons_of_mem a hother)]
    rfl

instance : Inhabited Listing := ⟨⟨[], Conf.newSettings none, [], []⟩⟩

/-- A dump lists all peers in their order, and all prefixes. -/
theorem getPeers_lists (h : Represents pl [] [] wg c) (hsound : wg.Sound pl)
    (hbuffer : buffer.length = 16) (sizes : ℕ → List ℕ) :
    ∃ ls : List Listing, getPeers pl buffer sizes wg = some (ls.flatMap Listing.elements) ∧
      (∀ l ∈ ls, l.Valid pl) ∧ (ls.map fun l => (l.key, l.settings)) = c.peers ∧
      (ls.flatMap fun l => calls l.key l.allowedips).foldl Reference.apply (fun _ _ => none) =
        c.routes := by
  obtain ⟨m, ⟨t, hinv, hm⟩, howned, hroutes⟩ := h.routes
  have hlists : ∀ peer ∈ wg.peerList, ∃ l : Listing,
      getPeer pl buffer (sizes peer) peer wg = some l.elements ∧ Lists pl wg m c peer l :=
    fun peer hmem => getPeer_lists h hsound hinv hm hroutes hbuffer (sizes peer) hmem
  choose! listing helements hlisting using hlists
  refine ⟨wg.peerList.map listing, ?_, ?_, ?_, ?_⟩
  · rw [getPeers, mapM_eq_map helements, Option.map_some, List.flatMap_map]
    rfl
  · intro l hl
    obtain ⟨peer, hpeer, rfl⟩ := List.mem_map.mp hl
    exact (hlisting peer hpeer).valid
  · refine List.map_injective_iff.mpr (Option.some_injective _) ?_
    rw [← h.entries, List.map_map, List.map_map]
    exact List.map_congr_left fun peer hpeer => (hlisting peer hpeer).entry.symm
  · have hcalls : ∀ op ∈ (wg.peerList.map listing).flatMap fun l => calls l.key l.allowedips,
        ∃ f q, Restores c.routes f q op := by
      intro op hop
      obtain ⟨l, hl, hop⟩ := List.mem_flatMap.mp hop
      obtain ⟨peer, hpeer, rfl⟩ := List.mem_map.mp hl
      exact (hlisting peer hpeer).sound op hop
    funext f q
    rcases foldl_restores hcalls (fun _ _ => none) f q with heq | ⟨hnone, hmissing⟩
    · exact heq
    · -- a prefix that no call is about belongs to nobody
      rw [hnone, hroutes f q]
      cases hq : m f q with
      | none => rfl
      | some peer =>
        have hpeer := howned f q peer hq
        obtain ⟨op, hop, hres⟩ := (hlisting peer hpeer).complete f q hq
        exact absurd hres (hmissing op (List.mem_flatMap.mpr
          ⟨_, List.mem_map_of_mem hpeer, hop⟩))

end Dump

/-! ## Round trip -/

/-- Before the elements, the request removes all peers and checks the device again. -/
theorem setDevice_restore (hpost : (wgDeviceHandlePostConfig pl.mem c.obfuscation).err = none)
    (sur : Surroundings) (elements : List PeerAttrs) :
    c.setDevice pl sur (restore elements) =
      Conf.setPeers pl (elements.map .ok)
        { c with
          deviceUpdateGen := c.deviceUpdateGen + 1
          obfuscation := (wgDeviceHandlePostConfig pl.mem c.obfuscation).state
          peers := []
          routes := fun _ _ => none } := by
  have hkeys : ∀ c : Conf, (wgDeviceHandlePostConfig pl.mem c.obfuscation).err = none →
      c.setKeysAndPeers pl (restore elements) = Conf.setPeers pl (elements.map .ok)
        { c.removeAll with
          obfuscation := (wgDeviceHandlePostConfig pl.mem c.obfuscation).state } := by
    intro c hpost
    have hreplace : hasFlag ((restore elements).flags.getD 0) wgdeviceFReplacePeers = true := by
      show hasFlag wgdeviceFReplacePeers wgdeviceFReplacePeers = true
      decide
    have hkey : ∀ c : Conf, c.setPrivateKey pl (restore elements).privateKey = c := fun _ => rfl
    have hsame : c.removeAll.obfuscation = c.obfuscation := rfl
    rw [Conf.setKeysAndPeers, if_pos hreplace, hkey, hsame]
    dsimp only
    rw [hpost]
    rfl
  rw [Conf.setDevice, if_neg (by simp [restore])]
  exact hkeys { c with deviceUpdateGen := c.deviceUpdateGen + 1 } hpost

theorem restore_outcome {ls : List Listing} (hls : ∀ l ∈ ls, l.Valid pl)
    (hnodup : (ls.map Listing.key).Nodup) (hroom : ls.length ≤ maxPeersPerDevice)
    (hown : c.staticIdentity.hasIdentity = true →
      ∀ l ∈ ls, l.key ≠ c.staticIdentity.staticPublic)
    (hpost : (wgDeviceHandlePostConfig pl.mem c.obfuscation).err = none) (sur : Surroundings) :
    ∃ c', c.setDevice pl sur (restore (ls.flatMap Listing.elements)) = [(0, c')] ∧
      c'.peers = ls.map (fun l => (l.key, restored c'.obfuscation.dev l.settings)) ∧
      c'.routes = (ls.flatMap fun l => calls l.key l.allowedips).foldl Reference.apply
        fun _ _ => none := by
  refine ⟨_, (setDevice_restore hpost sur _).trans (setPeers_listings hls hnodup ?_ hown ?_), rfl,
    rfl⟩
  · exact fun _ _ hmem => absurd hmem List.not_mem_nil
  · rwa [List.length_nil, Nat.zero_add]

/-- The peers of any device, dumped and set on another one whose obfuscation settings pass
validation and whose allocations succeed. -/
theorem config_round_trip (pl : Platform) {now now' : U64} {random random' : Bytes}
    {allocations allocations' : ℕ} {events events' : List Event} {rets rets' : List ℤ}
    {src dst : Device}
    (hsrc : runDevice pl (wgNewlink now random allocations) events = some (rets, src))
    (hdst : runDevice pl (wgNewlink now' random' allocations') events' = some (rets', dst))
    (hown : dst.staticIdentity.hasIdentity = true →
      ∀ peer p, src.peers peer = some p → p.remoteStatic ≠ dst.staticIdentity.staticPublic)
    (hpost : (wgDeviceHandlePostConfig pl.mem dst.obfuscation).err = none)
    (sur : Surroundings) {buffer : Bytes} (hbuffer : buffer.length = 16) (sizes : ℕ → List ℕ) :
    ∃ elements dst', getPeers pl buffer sizes src = some elements ∧
      wgSetDevice pl sur (restore elements) dst = some (0, dst') ∧
      dst'.peerList.map dst'.entry = src.peerList.map (fun peer =>
        (src.entry peer).map fun entry => (entry.1, restored dst'.obfuscation.dev entry.2)) ∧
      ∀ (f : Family) (ip : Address f),
        (lookup pl.endian dst'.peerAllowedips f ip.bytes).map (·.bind dst'.key) =
          (lookup pl.endian src.peerAllowedips f ip.bytes).map (·.bind src.key) := by
  obtain ⟨_, _, c, hrun, -, h, hsound⟩ := run_from_new pl now random allocations events
  cases hsrc.symm.trans hrun
  obtain ⟨_, _, d, hrun', -, h', -⟩ := run_from_new pl now' random' allocations' events'
  cases hdst.symm.trans hrun'
  obtain ⟨ls, hdump, hls, hpeers, hroutes⟩ :=
    getPeers_lists h (h.sound hsound) hbuffer sizes
  have hkeys : ls.map Listing.key = c.keys := by
    rw [Conf.keys, ← hpeers, List.map_map]
    rfl
  have hnodup : (ls.map Listing.key).Nodup := by
    have hsome := h.keys
    rw [keys_eq h] at hsome
    rw [hkeys]
    exact hsome.of_map
  have hroom : ls.length ≤ maxPeersPerDevice := by
    have hlimit := h.limit
    rwa [numPeers_eq h, ← hpeers, List.length_map] at hlimit
  have hown' : d.staticIdentity.hasIdentity = true →
      ∀ l ∈ ls, l.key ≠ d.staticIdentity.staticPublic := by
    rw [← h'.basics]
    intro hidentity l hl
    have hmem : l.key ∈ c.keys := hkeys ▸ List.mem_map_of_mem hl
    obtain ⟨peer, hpeer, hkey⟩ := (mem_keys_iff h).mp hmem
    obtain ⟨p, hp⟩ := h.allocated hpeer
    rw [key_eq hp] at hkey
    rw [← Option.some.inj hkey]
    exact hown hidentity peer p hp
  rw [congrArg Basics.obfuscation h'.basics] at hpost
  obtain ⟨d', hset, hpeers', hroutes'⟩ := restore_outcome hls hnodup hroom hown' hpost sur
  obtain ⟨ret, dst', c', hanswer, hmem, hafter⟩ :=
    setDevice_refines h' sur (restore (ls.flatMap Listing.elements))
  rw [hset, List.mem_singleton, Prod.mk.injEq] at hmem
  obtain ⟨rfl, rfl⟩ := hmem
  refine ⟨_, dst', hdump, hanswer, ?_, fun f ip => ?_⟩
  · have hsrc : src.peerList.map src.entry = ls.map fun l => some (l.key, l.settings) := by
      rw [h.entries, ← hpeers, List.map_map]
      rfl
    have hmap := congrArg (List.map (Option.map fun entry : Bytes × Settings =>
      (entry.1, restored dst'.obfuscation.dev entry.2))) hsrc
    rw [List.map_map, List.map_map] at hmap
    rw [hafter.entries, hpeers', List.map_map, ← hafter.basics]
    exact hmap.symm
  · rw [h.shows.sent, hafter.shows.sent, hroutes', hroutes]

/-- A machine with primitives that can be computed. -/
def samplePlatform : Platform where
  endian := .little
  noise := Noise.samplePrimitives
  cookies := Cookies.plain
  siphash := fun _ => 0
  mem := .generous

/-- A request that adds a peer with an endpoint and two allowed IPs. -/
def sampleRequest : SetDevice where
  flags := none
  listenPort := none
  fwmark := none
  obfuscation := {}
  privateKey := some (List.replicate 32 1)
  peers := some [.ok {
    publicKey := some (List.replicate 32 7)
    presharedKey := none
    flags := none
    protocolVersion := some 1
    endpoint := some ([2, 0, 202, 108, 10, 0, 0, 1] ++ List.replicate 8 0)
    allowedips := some [
      .ok ⟨some 2, some [192, 168, 0, 0], some 16, none, (true, true)⟩,
      .ok ⟨some 10, some (List.replicate 16 0), some 0, none, (true, true)⟩]
    persistentKeepaliveInterval := some 25
    advancedSecurity := false
    granted := (true, true) }]

def sampleSurroundings : Surroundings := ⟨true, false, fun port => (0, port)⟩

theorem sampleRequest_set :
    (runDevice samplePlatform (wgNewlink 0 [] 0) [.setDevice sampleSurroundings sampleRequest]).map
      (fun answer => (answer.1, answer.2.peerList)) = some ([0], [1]) := by
  decide +kernel

/-- The peer is dumped in two elements, one for each allowed IP, and set on a new device. -/
theorem config_round_trip_split :
    ∃ src elements dst', runDevice samplePlatform (wgNewlink 0 [] 0)
        [.setDevice sampleSurroundings sampleRequest] = some ([0], src) ∧ src.peerList = [1] ∧
      getPeers samplePlatform (List.replicate 16 0xff) (fun _ => [1]) src = some elements ∧
      wgSetDevice samplePlatform sampleSurroundings (restore elements) (wgNewlink 5 [] 0) =
        some (0, dst') ∧
      dst'.peerList.map dst'.entry = [(src.entry 1).map fun entry =>
        (entry.1, restored dst'.obfuscation.dev entry.2)] := by
  obtain ⟨⟨rets, src⟩, hrun, hanswer⟩ := Option.map_eq_some_iff.mp sampleRequest_set
  obtain ⟨rfl, hlist⟩ := Prod.mk.inj hanswer
  have hdst : runDevice samplePlatform (wgNewlink 5 [] 0) [] = some ([], wgNewlink 5 [] 0) := rfl
  obtain ⟨elements, dst', hdump, hset, hpeers, -⟩ := config_round_trip samplePlatform hrun hdst
    (fun hidentity => absurd hidentity Bool.false_ne_true) (by decide +kernel) sampleSurroundings
    (List.length_replicate (n := 16) (a := (0xff : U8))) fun _ => [1]
  refine ⟨src, elements, dst', hrun, hlist, hdump, hset, ?_⟩
  rw [hpeers, hlist]
  rfl

end AmneziaWg.Config
