import AmneziaWg.Config.Requests

/-!
# What every configuration keeps to

From the creation of a device on, whatever requests it gets and however they end.

* **Results**: `config_refines`, a device shows the configuration that its users have set;
  `config_sound`, no peer leaks, dangles, has the key of the device or stale secrets.
-/

namespace AmneziaWg.Config

open Linux Stepwise AllowedIps PrefixTree

variable {pl : Platform} {dead held : List ℕ} {wg : Device} {c c' : Conf} {peer : ℕ} {key : Bytes}

/-! ## What a device shows -/

/-- A device looks like a configuration to its users: what it lists, which peer it finds for a
public key and where it sends a packet. -/
structure Shows (pl : Platform) (wg : Device) (c : Conf) : Prop where
  basics : wg.toBasics = c.toBasics
  peers : wg.peerList.map wg.entry = c.peers.map some
  found : ∀ key, (wgPubkeyHashtableLookup pl key wg).map (fun found => found.1.bind wg.entry) =
    some (c.peers.find? fun entry => entry.1 = key)
  sent : ∀ (f : Family) (ip : Address f),
    (lookup pl.endian wg.peerAllowedips f ip.bytes).map (·.bind wg.key) =
      some (lpm (c.routes f) (netBits ip.bytes))

theorem new_represents (now : U64) (random : Bytes) (allocations : ℕ) :
    Represents pl [] [] (wgNewlink now random allocations) (Conf.new now random allocations) where
  counted := fun _ => rfl
  alive := fun _ hmem => absurd hmem List.not_mem_nil
  keys := List.nodup_nil
  fresh := fun _ hne => absurd rfl hne
  buckets := fun _ _ => ⟨fun hmem => absurd hmem List.not_mem_nil, fun hmem => hmem.1⟩
  num := rfl
  limit := Nat.zero_le _
  basics := rfl
  entries := rfl
  routes := ⟨fun _ _ => none, init_refines, fun _ _ _ hnone => absurd hnone (by simp),
    fun _ _ => rfl⟩

/-- The entry of a key is the entry of the peer with the key. -/
theorem find_entry (h : Represents pl dead held wg c) (key : Bytes) :
    c.peers.find? (fun entry => entry.1 = key) =
      (wg.peerList.find? fun peer => wg.key peer = some key).bind wg.entry := by
  have hmap : (c.peers.find? fun entry => entry.1 = key).map some =
      (wg.peerList.find? fun peer => wg.key peer = some key).map wg.entry := by
    have hsome : (fun entry : Bytes × Settings => decide (entry.1 = key)) =
        (fun entry => decide (entry.map Prod.fst = some key)) ∘ some := by
      funext entry
      simp
    have hentry : (fun peer => decide (wg.key peer = some key)) =
        (fun entry => decide (entry.map Prod.fst = some key)) ∘ wg.entry := by
      funext peer
      simp only [Function.comp_apply, Device.entry, Device.key, Option.map_map]
      rfl
    rw [hsome, hentry, ← List.find?_map, ← List.find?_map, h.entries]
  simpa [Option.bind_map] using congrArg (Option.bind · id) hmap

theorem Represents.shows (h : Represents pl [] [] wg c) : Shows pl wg c where
  basics := h.basics
  peers := h.entries
  found := by
    intro key
    rw [find_entry h]
    rcases lookup_refines h key with ⟨hnot, hlookup⟩ | ⟨peer, wg₁, -, hlookup, hselected, -⟩
    · rw [hlookup, List.find?_eq_none.mpr]
      · rfl
      · intro peer hpeer hkey
        exact hnot ((mem_keys_iff h).mpr ⟨peer, hpeer, of_decide_eq_true hkey⟩)
    · have hfound : wg.peerList.find? (fun other => wg.key other = some key) = some peer := by
        cases hfind : wg.peerList.find? fun other => wg.key other = some key with
        | none =>
          exact absurd (decide_eq_true hselected.named)
            (List.find?_eq_none.mp hfind peer hselected.listed)
        | some other =>
          have hkey : wg.key other = some key := by simpa using List.find?_some hfind
          rw [h.key_inj (List.mem_of_find?_eq_some hfind) hselected.listed
            (hkey.trans hselected.named.symm)]
      rw [hlookup, hfound]
      rfl
  sent := by
    intro f ip
    obtain ⟨m, ⟨t, hinv, hm⟩, howned, hroutes⟩ := h.routes
    rw [lookup_eq hinv (hm f) ip, Option.map_some, lpm_bind]
    · exact congrArg (fun m => some (lpm m (netBits ip.bytes))) (funext fun q => (hroutes f q).symm)
    · intro q other hother
      obtain ⟨p, hp⟩ := h.allocated (howned f q other hother)
      rw [key_eq hp]
      exact Option.some_ne_none _

/-! ## Peers and their keys -/

/-- The bytes of a socket address. -/
def Endpoint.WellFormed (e : Endian) : Endpoint → Prop
  | .none => True
  | .v4 addr _ => addr.length = 16 ∧ e.load (addr.take 2) = afInet
  | .v6 addr _ => addr.length = 28 ∧ e.load (addr.take 2) = afInet6

/-- A device is not its own peer, knows the keys for its macs, and has peers with keys and
endpoints that a request may set. -/
structure Conf.Sound (pl : Platform) (c : Conf) : Prop where
  own : c.staticIdentity.hasIdentity = true →
    ∀ entry ∈ c.peers, entry.1 ≠ c.staticIdentity.staticPublic
  macs : Cookies.wgCookieCheckerPrecomputeDeviceKeys pl.cookies
    ⟨c.staticIdentity.hasIdentity, c.staticIdentity.staticPublic⟩ c.cookieChecker = c.cookieChecker
  sized : ∀ entry ∈ c.peers, entry.1.length = 32 ∧ entry.2.presharedKey.length = 32 ∧
    entry.2.endpoint.WellFormed pl.endian

/-- What is done to the settings of a peer that is there. -/
inductive Changed (pl : Platform) : (Settings → Settings) → Prop
  | presharedKey (attr : Option Bytes) :
      Changed pl fun s => { s with presharedKey := (keyOf attr).getD s.presharedKey }
  | endpoint (addr : Option Bytes) :
      Changed pl (Settings.moveTo (addr.bind (endpointOf pl.endian)))
  | interval (interval : Option U16) :
      Changed pl fun s => { s with
        persistentKeepaliveInterval := interval.getD s.persistentKeepaliveInterval }
  | advanced (flags : U32) (granted : Bool) :
      Changed pl fun s => { s with
        advancedSecurity :=
          if hasFlag flags wgpeerFHasAdvancedSecurity then granted else s.advancedSecurity }
  | src : Changed pl clearSrc
  | roamed (skb : SkbAddrs) : Changed pl (Settings.moveTo (wgSocketEndpointFromSkb pl skb))

/-- The keys of the device are the same, and what holds of all peers still does if no change of
settings can break it. -/
structure Follows (pl : Platform) (c c' : Conf) : Prop where
  identity : c'.staticIdentity = c.staticIdentity
  checker : c'.cookieChecker = c.cookieChecker
  peers : ∀ Q : Bytes → Settings → Prop,
    (∀ f, Changed pl f → ∀ key s, Q key s → Q key (f s)) →
    (∀ entry ∈ c.peers, Q entry.1 entry.2) → ∀ entry ∈ c'.peers, Q entry.1 entry.2

/-- The peers are the same. -/
theorem Follows.of_peers (hidentity : c'.staticIdentity = c.staticIdentity)
    (hchecker : c'.cookieChecker = c.cookieChecker) (hpeers : c'.peers = c.peers) :
    Follows pl c c' :=
  ⟨hidentity, hchecker, fun _ _ hall => hpeers ▸ hall⟩

theorem Follows.refl (c : Conf) : Follows pl c c := .of_peers rfl rfl rfl

theorem Follows.trans {c'' : Conf} (h : Follows pl c c') (h' : Follows pl c' c'') :
    Follows pl c c'' :=
  ⟨h'.identity.trans h.identity, h'.checker.trans h.checker,
    fun Q hQ hall => h'.peers Q hQ (h.peers Q hQ hall)⟩

theorem length_of_keyOf {attr : Option Bytes} (h : keyOf attr = some key) : key.length = 32 := by
  rw [keyOf, Option.filter_eq_some_iff] at h
  exact of_decide_eq_true h.2

variable {e : Endian} {endpoint : Endpoint}

theorem clearSrc_wellFormed (h : endpoint.WellFormed e) :
    (wgSocketClearPeerEndpointSrc endpoint).WellFormed e := by
  cases endpoint with
  | none => trivial
  | v4 addr src => exact h
  | v6 addr src => exact h

theorem moveTo_wellFormed {endpoint : Option Endpoint} {s : Settings}
    (hold : s.endpoint.WellFormed e) (h : ∀ new ∈ endpoint, new.WellFormed e) :
    (s.moveTo endpoint).endpoint.WellFormed e := by
  rw [Settings.moveTo]
  dsimp only
  cases hmoves : endpoint.filter fun new => !endpointEq new s.endpoint with
  | none => exact hold
  | some new => exact h new (Option.filter_eq_some_iff.mp hmoves).1

theorem endpointOf_wellFormed {addr : Bytes} (h : endpointOf e addr = some endpoint) :
    endpoint.WellFormed e := by
  rw [endpointOf] at h
  split at h
  · next h4 =>
    cases h
    exact h4
  · split at h
    · next h6 =>
      cases h
      exact h6
    · cases h

theorem fromSkb_wellFormed {skb : SkbAddrs} (h : wgSocketEndpointFromSkb pl skb = some endpoint) :
    endpoint.WellFormed pl.endian := by
  cases skb with
  | ip source saddr daddr iif =>
    cases h
    refine ⟨?_, ?_⟩
    · simp only [List.length_append, length_store, Wire.length_be, List.length_replicate]
    · rw [List.append_assoc, List.append_assoc, List.take_left' (length_store pl.endian 2 afInet),
        load_store pl.endian (by decide)]
  | ipv6 source saddr daddr scopeId =>
    cases h
    refine ⟨?_, ?_⟩
    · simp only [List.length_append, length_store, Wire.length_be, List.length_replicate]
    · rw [List.append_assoc, List.append_assoc, List.append_assoc,
        List.take_left' (length_store pl.endian 2 afInet6), load_store pl.endian (by decide)]
  | other => cases h

variable {f : Settings → Settings}

/-- Every change keeps the sizes. -/
theorem Changed.sized (h : Changed pl f) {s : Settings}
    (hs : s.presharedKey.length = 32 ∧ s.endpoint.WellFormed pl.endian) :
    (f s).presharedKey.length = 32 ∧ (f s).endpoint.WellFormed pl.endian := by
  cases h with
  | presharedKey attr =>
    refine ⟨?_, hs.2⟩
    cases hattr : keyOf attr with
    | none => exact hs.1
    | some presharedKey => exact length_of_keyOf hattr
  | endpoint addr =>
    refine ⟨hs.1, moveTo_wellFormed hs.2 fun new hnew => ?_⟩
    obtain ⟨bytes, -, hbytes⟩ := Option.bind_eq_some_iff.mp hnew
    exact endpointOf_wellFormed hbytes
  | interval interval => exact hs
  | advanced flags granted => exact hs
  | src => exact ⟨hs.1, clearSrc_wellFormed hs.2⟩
  | roamed skb => exact ⟨hs.1, moveTo_wellFormed hs.2 fun new hnew => fromSkb_wellFormed hnew⟩

theorem Follows.sound (h : Follows pl c c') (hsound : c.Sound pl) : c'.Sound pl where
  own := by
    rw [h.identity]
    exact fun hidentity => h.peers (fun key _ => key ≠ c.staticIdentity.staticPublic)
      (fun _ _ _ _ hne => hne) (hsound.own hidentity)
  macs := by
    rw [h.identity, h.checker]
    exact hsound.macs
  sized := h.peers (fun key s => key.length = 32 ∧ s.presharedKey.length = 32 ∧
    s.endpoint.WellFormed pl.endian) (fun _ hf _ _ hs => ⟨hs.1, hf.sized hs.2⟩) hsound.sized

theorem modify_follows (hf : Changed pl f) (key : Bytes) (c : Conf) :
    Follows pl c (c.modify key f) := by
  refine ⟨rfl, rfl, fun Q hQ hall entry hentry => ?_⟩
  obtain ⟨old, hold, rfl⟩ := List.mem_map.mp hentry
  split
  · next heq => exact heq ▸ hQ f hf _ _ (hall old hold)
  · exact hall old hold

theorem modifyAll_follows (hf : Changed pl f) (c : Conf) : Follows pl c (c.modifyAll f) := by
  refine ⟨rfl, rfl, fun Q hQ hall entry hentry => ?_⟩
  obtain ⟨old, hold, rfl⟩ := List.mem_map.mp hentry
  exact hQ f hf _ _ (hall old hold)

theorem remove_follows (key : Bytes) (c : Conf) : Follows pl c (c.remove key) :=
  ⟨rfl, rfl, fun _ _ hall entry hentry => hall entry (List.mem_filter.mp hentry).1⟩

theorem removeAll_follows (c : Conf) : Follows pl c c.removeAll :=
  ⟨rfl, rfl, fun _ _ _ _ hentry => absurd hentry List.not_mem_nil⟩

variable {outcome : ℤ × Conf}

/-- Only the routes change. -/
theorem setAllowedip_follows {attrs : AllowedipAttrs} (h : outcome ∈ c.setAllowedip key attrs) :
    Follows pl c outcome.2 := by
  rcases attrs.op_cases with ⟨hop, -⟩ | ⟨f, ip, cidr, -, ⟨-, hop⟩ | ⟨-, hop⟩⟩
  · rw [Conf.setAllowedip, hop] at h
    rw [List.mem_singleton.mp h]
    exact .refl c
  · rw [Conf.setAllowedip, hop] at h
    rcases List.mem_cons.mp h with rfl | hdenied
    · exact .of_peers rfl rfl rfl
    · split at hdenied
      · cases hdenied
      · rw [List.mem_singleton.mp hdenied]
        exact .refl c
  · rw [Conf.setAllowedip, hop] at h
    rw [List.mem_singleton.mp h]
    exact .of_peers rfl rfl rfl

theorem setAllowedips_follows {entries : List (Except Errno AllowedipAttrs)}
    (h : outcome ∈ c.setAllowedips key entries) : Follows pl c outcome.2 := by
  induction entries generalizing c with
  | nil =>
    rw [List.mem_singleton.mp h]
    exact .refl c
  | cons entry entries ih =>
    cases entry with
    | error e =>
      rw [List.mem_singleton.mp h]
      exact .refl c
    | ok attrs =>
      obtain ⟨⟨ret, c₁⟩, hfirst, hrest⟩ := List.mem_flatMap.mp h
      have h₁ : Follows pl c c₁ := setAllowedip_follows hfirst
      dsimp only at hrest
      split at hrest
      · rw [List.mem_singleton.mp hrest]
        exact h₁
      · exact h₁.trans (ih hrest)

theorem updatePeer_follows {flags : U32} {presharedKey : Option Bytes} {attrs : PeerAttrs}
    (h : outcome ∈ c.updatePeer pl flags (keyOf presharedKey) attrs key) :
    Follows pl c outcome.2 := by
  rw [Conf.updatePeer] at h
  split at h
  · rw [List.mem_singleton.mp h]
    exact remove_follows key c
  · obtain ⟨⟨ret, c₁⟩, hmem, rfl⟩ := List.mem_map.mp h
    have h₂ : Follows pl c _ := (modify_follows (.presharedKey presharedKey) key c).trans
      (modify_follows (.endpoint attrs.endpoint) key _)
    have h₃ : Follows pl c c₁ := by
      refine Follows.trans ?_ (setAllowedips_follows hmem)
      split
      · exact h₂.trans (.of_peers rfl rfl rfl)
      · exact h₂
    dsimp only
    split
    · exact h₃
    · exact (h₃.trans (modify_follows (.interval _) key _)).trans
        (modify_follows (.advanced ..) key _)

/-- A new peer does not have the key of the device. -/
theorem create_sound {presharedKey : Option Bytes} (hsound : c.Sound pl) (hkey : key.length = 32)
    (hown : ¬ (c.staticIdentity.hasIdentity ∧ key = c.staticIdentity.staticPublic)) :
    (c.create key (keyOf presharedKey)).Sound pl := by
  have hnew : ∀ entry ∈ (c.create key (keyOf presharedKey)).peers,
      entry ∈ c.peers ∨ entry = (key, Conf.newSettings (keyOf presharedKey)) := by
    intro entry hentry
    rwa [Conf.create, List.mem_append, List.mem_singleton] at hentry
  refine ⟨fun hidentity entry hentry => ?_, hsound.macs, fun entry hentry => ?_⟩
  · rcases hnew entry hentry with hold | rfl
    · exact hsound.own hidentity entry hold
    · exact fun heq => hown ⟨hidentity, heq⟩
  · rcases hnew entry hentry with hold | rfl
    · exact hsound.sized entry hold
    · refine ⟨hkey, ?_, trivial⟩
      cases hattr : keyOf presharedKey with
      | none => exact List.length_replicate
      | some psk => exact length_of_keyOf hattr

theorem setPeer_sound {attrs : PeerAttrs} (hsound : c.Sound pl) (h : outcome ∈ c.setPeer pl attrs) :
    outcome.2.Sound pl := by
  have hsame : ∀ {ret : ℤ}, outcome ∈ [(ret, c)] → outcome.2.Sound pl := by
    intro ret hmem
    rw [List.mem_singleton.mp hmem]
    exact hsound
  rw [Conf.setPeer] at h
  cases hkey : keyOf attrs.publicKey with
  | none =>
    rw [hkey] at h
    exact hsame h
  | some key =>
    rw [hkey] at h
    dsimp only at h
    split at h
    · exact hsame h
    split at h
    · exact (updatePeer_follows h).sound hsound
    split at h
    · exact hsame h
    split at h
    · exact hsame h
    · next hown =>
      split at h
      · exact hsame h
      · exact (updatePeer_follows h).sound (create_sound hsound (length_of_keyOf hkey) hown)

theorem setPeers_sound {entries : List (Except Errno PeerAttrs)} (hsound : c.Sound pl)
    (h : outcome ∈ c.setPeers pl entries) : outcome.2.Sound pl := by
  induction entries generalizing c with
  | nil =>
    rw [List.mem_singleton.mp h]
    exact hsound
  | cons entry entries ih =>
    cases entry with
    | error e =>
      rw [List.mem_singleton.mp h]
      exact hsound
    | ok attrs =>
      obtain ⟨⟨ret, c₁⟩, hfirst, hrest⟩ := List.mem_flatMap.mp h
      have hsound₁ := setPeer_sound hsound hfirst
      dsimp only at hrest
      split at hrest
      · rw [List.mem_singleton.mp hrest]
        exact hsound₁
      · exact ih hsound₁ hrest

theorem setFwmark_follows (fwmark : Option U32) (c : Conf) : Follows pl c (c.setFwmark fwmark) := by
  cases fwmark with
  | none => exact .refl c
  | some fwmark =>
    have hmarked : Follows pl c { c with fwmark } := .of_peers rfl rfl rfl
    exact hmarked.trans (modifyAll_follows .src _)

theorem setListenPort_follows (sur : Surroundings) (port : Option U16) (c : Conf) :
    Follows pl c (c.setListenPort sur port).2 := by
  cases port with
  | none => exact .refl c
  | some port =>
    have hclear : Follows pl c (c.modifyAll clearSrc) := modifyAll_follows .src c
    rw [Conf.setListenPort, Conf.setPort]
    split
    · exact .refl c
    · dsimp only
      split
      · exact hclear.trans (.of_peers rfl rfl rfl)
      · dsimp only
        split
        · exact hclear.trans (.of_peers rfl rfl rfl)
        · exact hclear

theorem removeOwn_follows (privateKey : Bytes) (c : Conf) :
    Follows pl c (c.removeOwn pl privateKey) := by
  rw [Conf.removeOwn]
  split
  · exact .refl c
  · exact remove_follows ..

/-- The device gets the public key that was looked up. -/
theorem staticPublic_of_generate {privateKey publicKey : Bytes}
    (h : Noise.curve25519GeneratePublic pl.noise privateKey = some publicKey)
    (identity : Noise.NoiseStaticIdentity) :
    (Noise.wgNoiseSetStaticIdentityPrivateKey pl.noise privateKey identity).staticPublic =
      publicKey := by
  rw [Noise.curve25519GeneratePublic] at h
  split at h
  · cases h
  · next hnull =>
    rw [Noise.curve25519] at h
    split at h
    · cases h
    · rw [← Option.some.inj h]
      exact if_neg hnull

theorem precomputeDeviceKeys_idem (identity : Cookies.StaticIdentity)
    (checker : Cookies.CookieChecker) :
    Cookies.wgCookieCheckerPrecomputeDeviceKeys pl.cookies identity
        (Cookies.wgCookieCheckerPrecomputeDeviceKeys pl.cookies identity checker) =
      Cookies.wgCookieCheckerPrecomputeDeviceKeys pl.cookies identity checker := by
  simp only [Cookies.wgCookieCheckerPrecomputeDeviceKeys]
  split <;> rfl

/-- Whoever has the new key of the device was removed before. -/
theorem setIdentity_sound (hsound : c.Sound pl) (privateKey : Bytes) :
    ((c.removeOwn pl privateKey).setIdentity pl privateKey).Sound pl where
  own := by
    intro hidentity entry hentry
    obtain ⟨publicKey, hpublic⟩ := Option.isSome_iff_exists.mp hidentity
    have hmem : entry ∈ (c.removeOwn pl privateKey).peers := hentry
    rw [Conf.removeOwn, hpublic] at hmem
    show entry.1 ≠ (Noise.wgNoiseSetStaticIdentityPrivateKey pl.noise privateKey _).staticPublic
    rw [staticPublic_of_generate hpublic]
    exact of_decide_eq_true (List.mem_filter.mp hmem).2
  macs := precomputeDeviceKeys_idem ..
  sized := ((removeOwn_follows privateKey c).sound hsound).sized

theorem setPrivateKey_sound (hsound : c.Sound pl) (privateKey : Option Bytes) :
    (c.setPrivateKey pl privateKey).Sound pl := by
  rw [Conf.setPrivateKey]
  cases keyOf privateKey with
  | none => exact hsound
  | some privateKey =>
    dsimp only
    split
    · exact hsound
    · exact setIdentity_sound hsound privateKey

theorem Conf.Sound.setObfuscation (h : c.Sound pl) (obfuscation : DevState) :
    Conf.Sound pl { c with obfuscation } := ⟨h.own, h.macs, h.sized⟩

theorem setKeysAndPeers_sound {req : SetDevice} (hsound : c.Sound pl)
    (h : outcome ∈ c.setKeysAndPeers pl req) : outcome.2.Sound pl := by
  rw [Conf.setKeysAndPeers] at h
  have hreplaced : (if hasFlag (req.flags.getD 0) wgdeviceFReplacePeers then c.removeAll
      else c).Sound pl := by
    split
    · exact (removeAll_follows c).sound hsound
    · exact hsound
  have hkeyed := setPrivateKey_sound hreplaced req.privateKey
  split at h
  · rw [List.mem_singleton.mp h]
    exact hkeyed.setObfuscation _
  · exact setPeers_sound (hkeyed.setObfuscation _) h

theorem setDevice_sound {sur : Surroundings} {req : SetDevice} (hsound : c.Sound pl)
    (h : outcome ∈ c.setDevice pl sur req) : outcome.2.Sound pl := by
  rw [Conf.setDevice] at h
  split at h
  · rw [List.mem_singleton.mp h]
    exact hsound
  · dsimp only at h
    have hmarked := (setFwmark_follows req.fwmark { c with
      deviceUpdateGen := c.deviceUpdateGen + 1 }).sound ⟨hsound.own, hsound.macs, hsound.sized⟩
    have hbound := (setListenPort_follows sur req.listenPort _).sound hmarked
    split at h
    · rw [List.mem_singleton.mp h]
      exact hbound
    split at h
    · rw [List.mem_singleton.mp h]
      exact hbound.setObfuscation _
    · exact setKeysAndPeers_sound (hbound.setObfuscation _) h

theorem event_sound {event : Event} (hsound : c.Sound pl) (h : outcome ∈ event.onConf pl c) :
    outcome.2.Sound pl := by
  cases event with
  | setDevice sur req => exact setDevice_sound hsound h
  | up sur =>
    rw [List.mem_singleton.mp h]
    dsimp only [openSockets]
    split <;> exact ⟨hsound.own, hsound.macs, hsound.sized⟩
  | roam key skb =>
    rw [List.mem_singleton.mp h]
    exact (modify_follows (.roamed skb) key c).sound hsound
  | destruct =>
    rw [List.mem_singleton.mp h]
    exact (removeAll_follows _).sound ⟨hsound.own, hsound.macs, hsound.sized⟩

theorem Changes.sound {events : List Event} {rets : List ℤ} (h : Changes pl c events rets c')
    (hsound : c.Sound pl) : c'.Sound pl := by
  induction h with
  | nil c => exact hsound
  | cons hfirst _ ih => exact ih (event_sound hsound hfirst)

/-! ## Soundness -/

/-- What holds of the peers of a device between two requests. -/
structure Device.Sound (pl : Platform) (wg : Device) : Prop where
  /-- No peer leaks, and none on the list was freed. -/
  allocated : ∀ peer, peer ∈ wg.peerList ↔ ∃ p, wg.peers peer = some p
  /-- The device holds the only reference. -/
  alive : ∀ peer p, wg.peers peer = some p → p.refcount = 1 ∧ p.isDead = false
  count : wg.numPeers = wg.peerList.length ∧ wg.numPeers ≤ maxPeersPerDevice
  /-- A packet goes to a peer of the device. -/
  routed : ∀ (f : Family) (ip : Address f) (peer : ℕ),
    lookup pl.endian wg.peerAllowedips f ip.bytes = some (some peer) → peer ∈ wg.peerList
  /-- No two peers have the same key, and none has the key of the device. -/
  keys : ∀ peer p peer' p', wg.peers peer = some p → wg.peers peer' = some p' →
    p.remoteStatic = p'.remoteStatic → peer = peer'
  own : wg.staticIdentity.hasIdentity = true →
    ∀ peer p, wg.peers peer = some p → p.remoteStatic ≠ wg.staticIdentity.staticPublic
  /-- Keys have their length, and endpoints are socket addresses. -/
  sized : ∀ peer p, wg.peers peer = some p → p.remoteStatic.length = 32 ∧
    p.presharedKey.length = 32 ∧ p.endpoint.WellFormed pl.endian
  /-- The secret that handshakes use is the one of the present keys. -/
  secrets : ∀ peer p, wg.peers peer = some p → p.precomputedStaticStatic =
    if wg.staticIdentity.hasIdentity then
      (Noise.curve25519 pl.noise wg.staticIdentity.staticPrivate p.remoteStatic).getD
        Noise.nullPoint
    else Noise.nullPoint
  /-- And so are the keys of the macs. -/
  macs : Cookies.wgCookieCheckerPrecomputeDeviceKeys pl.cookies
      ⟨wg.staticIdentity.hasIdentity, wg.staticIdentity.staticPublic⟩ wg.cookieChecker =
        wg.cookieChecker ∧
    ∀ peer p, wg.peers peer = some p → Cookies.wgCookieCheckerPrecomputePeerKeys pl.cookies
      p.remoteStatic p.latestCookie = p.latestCookie

theorem Represents.sound (h : Represents pl [] [] wg c) (hsound : c.Sound pl) : wg.Sound pl := by
  have hlisted : ∀ peer, peer ∈ wg.peerList ↔ ∃ p, wg.peers peer = some p := by
    intro peer
    rw [← h.counted.mem_iff, List.append_nil, List.append_nil]
  have hentry : ∀ {peer p}, wg.peers peer = some p → (p.remoteStatic, p.toSettings) ∈ c.peers := by
    intro peer p hp
    have hmem : wg.entry peer ∈ c.peers.map some := by
      rw [← h.entries]
      exact List.mem_map_of_mem ((hlisted peer).mpr ⟨p, hp⟩)
    rw [Device.entry, hp, Option.map_some] at hmem
    simpa using hmem
  constructor
  · exact hlisted
  · intro peer p hp
    have hmem := (hlisted peer).mpr ⟨p, hp⟩
    refine ⟨?_, (h.alive peer hmem p hp).1⟩
    rw [(h.counted.refcount hp).1, List.append_nil, List.append_nil]
    exact List.count_eq_one_of_mem h.nodup hmem
  · exact ⟨h.num, h.limit⟩
  · intro f ip peer hlookup
    obtain ⟨m, ⟨t, hinv, hm⟩, howned, -⟩ := h.routes
    rw [lookup_eq hinv (hm f) ip] at hlookup
    obtain ⟨q, hq⟩ := exists_of_lpm (Option.some.inj hlookup)
    exact howned f q peer hq
  · intro peer p peer' p' hp hp' hsame
    refine h.key_inj ((hlisted _).mpr ⟨_, hp⟩) ((hlisted _).mpr ⟨_, hp'⟩) ?_
    rw [key_eq hp, key_eq hp', hsame]
  · rw [h.basics]
    exact fun hidentity peer p hp => hsound.own hidentity _ (hentry hp)
  · exact fun peer p hp => hsound.sized _ (hentry hp)
  · intro peer p hp
    have hsecret := (h.alive peer ((hlisted peer).mpr ⟨p, hp⟩) p hp).2.secret
    exact (congrArg WgPeer.precomputedStaticStatic hsecret).symm
  · rw [h.basics]
    exact ⟨hsound.macs, fun peer p hp => (h.alive peer ((hlisted peer).mpr ⟨p, hp⟩) p hp).2.cookie⟩

/-! ## Runs -/

/-- Every sequence of events, from the creation of the device on. -/
theorem run_from_new (pl : Platform) (now : U64) (random : Bytes) (allocations : ℕ)
    (events : List Event) :
    ∃ rets wg c, runDevice pl (wgNewlink now random allocations) events = some (rets, wg) ∧
      Changes pl (Conf.new now random allocations) events rets c ∧ Represents pl [] [] wg c ∧
      c.Sound pl := by
  obtain ⟨rets, wg, c, hrun, hchanges, h⟩ :=
    run_refines_conf (new_represents now random allocations) events
  have hnew : (Conf.new now random allocations).Sound pl := by
    refine ⟨fun hidentity => absurd hidentity ?_, rfl, fun _ hentry => ?_⟩
    · exact Bool.false_ne_true
    · cases hentry
  exact ⟨rets, wg, c, hrun, hchanges, h, hchanges.sound hnew⟩

/-- Every sequence of events ends, returns what the specification allows, and leaves a device
that shows the configuration of the specification. -/
theorem config_refines (pl : Platform) (now : U64) (random : Bytes) (allocations : ℕ)
    (events : List Event) :
    ∃ rets wg c, runDevice pl (wgNewlink now random allocations) events = some (rets, wg) ∧
      Changes pl (Conf.new now random allocations) events rets c ∧ Shows pl wg c := by
  obtain ⟨rets, wg, c, hrun, hchanges, h, -⟩ := run_from_new pl now random allocations events
  exact ⟨rets, wg, c, hrun, hchanges, h.shows⟩

/-- Whatever requests a device gets, and however they end. -/
theorem config_sound (pl : Platform) (now : U64) (random : Bytes) (allocations : ℕ)
    (events : List Event) :
    ∃ rets wg, runDevice pl (wgNewlink now random allocations) events = some (rets, wg) ∧
      wg.Sound pl := by
  obtain ⟨rets, wg, c, hrun, -, h, hsound⟩ := run_from_new pl now random allocations events
  exact ⟨rets, wg, hrun, h.sound hsound⟩

end AmneziaWg.Config
