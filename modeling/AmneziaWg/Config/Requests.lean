import AmneziaWg.Config.Refinement

/-!
# Requests and their effect

Every request ends, and the device that it leaves stands for one of the configurations that the
specification allows, with the value that it returns.

* **Steps**: `setPeer_refines` for an entry of a request, `setDevice_refines` for a request and
  `event_refines` for everything that happens to a device.
* **Runs**: `run_refines`.
-/

namespace AmneziaWg.Config

open Linux Stepwise AllowedIps

variable {pl : Platform} {dead held : List ℕ} {wg wg' : Device} {c c' : Conf} {peer : ℕ}
  {key : Bytes}

/-- A function returns, and its result is one of those that are allowed. -/
def Answers (R : Device → Conf → Prop) (result : Option (ℤ × Device))
    (outcomes : Conf.Outcomes) : Prop :=
  ∃ ret wg c, result = some (ret, wg) ∧ (ret, c) ∈ outcomes ∧ R wg c

section Answers

variable {R S : Device → Conf → Prop} {result : Option (ℤ × Device)} {outcomes : Conf.Outcomes}
  {ret : ℤ}

theorem Answers.single (h : R wg c) : Answers R (some (ret, wg)) [(ret, c)] :=
  ⟨ret, wg, c, rfl, List.mem_singleton_self _, h⟩

/-- A loop goes on with what an entry leaves, until one fails. -/
theorem Answers.loop {next : Device → Option (ℤ × Device)} {nextOutcomes : Conf → Conf.Outcomes}
    (h : Answers R result outcomes)
    (hnext : ∀ wg c, R wg c → Answers R (next wg) (nextOutcomes c)) :
    Answers R (result.bind fun (ret, wg) => if ret < 0 then some (ret, wg) else next wg)
      (outcomes.flatMap fun (ret, c) => if ret < 0 then [(ret, c)] else nextOutcomes c) := by
  obtain ⟨ret, wg, c, rfl, hmem, hafter⟩ := h
  by_cases hneg : ret < 0
  · refine ⟨ret, wg, c, by simp [hneg], List.mem_flatMap.mpr ⟨_, hmem, ?_⟩, hafter⟩
    simp [hneg]
  · obtain ⟨ret', wg', c', hrun, hmem', hafter'⟩ := hnext wg c hafter
    refine ⟨ret', wg', c', by simp [hneg, hrun], List.mem_flatMap.mpr ⟨_, hmem, ?_⟩, hafter'⟩
    simpa [hneg] using hmem'

end Answers

/-! ## Allowed IPs -/

section Allowedips

theorem Selected.modify (h : Selected pl held peer key wg c) (f : Settings → Settings) :
    ∃ wg', modifySettings peer f wg = some wg' ∧
      Selected pl held peer key wg' (c.modify key f) := by
  obtain ⟨wg', hwrite, hlist, hkeys, hafter⟩ :=
    modifySettings_refines h.toRepresents h.listed h.named f
  exact ⟨wg', hwrite, hafter, hlist ▸ h.listed, hkeys ▸ h.named⟩

theorem Selected.setTable (h : Selected pl held peer key wg c) {table : Table ℕ}
    {m : Reference ℕ} (hm : Refines pl.endian table m)
    (howned : ∀ f q peer, m f q = some peer → peer ∈ wg.peerList) {routes : Reference Bytes}
    (hroutes : ∀ f q, routes f q = (m f q).bind wg.key) :
    Selected pl held peer key { wg with peerAllowedips := table } { c with routes } :=
  ⟨h.toRepresents.setTable hm howned routes hroutes, h.listed, h.named⟩

theorem Selected.replaceAllowedips (h : Selected pl held peer key wg c) (flags : U32) :
    ∃ wg', replaceAllowedips flags peer wg = some wg' ∧
      Selected pl held peer key wg'
        (if hasFlag flags wgpeerFReplaceAllowedips then c.dropRoutes key else c) := by
  rw [Config.replaceAllowedips]
  split
  · obtain ⟨m, hm, howned, hroutes⟩ := h.routes
    obtain ⟨table, htable, hafter⟩ := removeByPeer_refines hm peer
    rw [htable, Option.map_some]
    refine ⟨_, rfl, h.setTable hafter (fun f q other hother => ?_)
      (routes_removeByPeer h.toLinked h.listed h.named howned hroutes)⟩
    have hcases : (if m f q = some peer then none else m f q) = some other := hother
    split at hcases
    · cases hcases
    · exact howned f q other hcases
  · exact ⟨wg, rfl, h⟩

/-- A request calls the table with the prefix that the entry names, if it names one. -/
theorem AllowedipAttrs.op_cases (attrs : AllowedipAttrs) :
    ((∀ {P : Type} (peer : P), attrs.op peer = none) ∧ ∀ f ip cidr, ¬ attrs.Names f ip cidr) ∨
      ∃ (f : Family) (ip : Address f) (cidr : ℕ), attrs.Names f ip cidr ∧
        ((hasFlag (attrs.flags.getD 0) wgallowedipFRemoveMe = false ∧
            ∀ {P : Type} (peer : P), attrs.op peer = some (.insert f ip cidr peer attrs.granted)) ∨
          hasFlag (attrs.flags.getD 0) wgallowedipFRemoveMe = true ∧
            ∀ {P : Type} (peer : P), attrs.op peer = some (.remove f ip cidr peer)) := by
  obtain ⟨family, ipaddr, cidrMask, flags, granted⟩ := attrs
  rcases family with _ | family
  · exact .inl ⟨fun _ => rfl, fun _ _ _ hnames => nomatch hnames.family⟩
  rcases ipaddr with _ | ip
  · exact .inl ⟨fun _ => rfl, fun _ _ _ hnames => nomatch hnames.ipaddr⟩
  rcases cidrMask with _ | cidr
  · exact .inl ⟨fun _ => rfl, fun _ _ _ hnames => nomatch hnames.cidrMask⟩
  by_cases h4 : family.toNat = afInet ∧ cidr.toNat ≤ 32 ∧ ip.length = 4
  · refine .inr ⟨.v4, ⟨ip, h4.2.2⟩, cidr.toNat, ⟨congrArg some h4.1, rfl, rfl, h4.2.1⟩, ?_⟩
    cases hflag : hasFlag (flags.getD 0) wgallowedipFRemoveMe with
    | false => exact .inl ⟨rfl, fun _ => by simp only [AllowedipAttrs.op, dif_pos h4, hflag,
        Bool.false_eq_true, if_false]⟩
    | true =>
      exact .inr ⟨rfl, fun _ => by simp only [AllowedipAttrs.op, dif_pos h4, hflag, if_true]⟩
  · by_cases h6 : family.toNat = afInet6 ∧ cidr.toNat ≤ 128 ∧ ip.length = 16
    · refine .inr ⟨.v6, ⟨ip, h6.2.2⟩, cidr.toNat, ⟨congrArg some h6.1, rfl, rfl, h6.2.1⟩, ?_⟩
      cases hflag : hasFlag (flags.getD 0) wgallowedipFRemoveMe with
      | false => exact .inl ⟨rfl, fun _ => by simp only [AllowedipAttrs.op, dif_neg h4, dif_pos h6,
          hflag, Bool.false_eq_true, if_false]⟩
      | true => exact .inr ⟨rfl, fun _ => by simp only [AllowedipAttrs.op, dif_neg h4, dif_pos h6,
          hflag, if_true]⟩
    · refine .inl ⟨fun _ => by simp [AllowedipAttrs.op, h4, h6], ?_⟩
      rintro f ⟨bytes, hbytes⟩ cidr' ⟨hfamily, hip, hcidr, hfits⟩
      cases hip
      cases hcidr
      cases f with
      | v4 => exact h4 ⟨Option.some.inj hfamily, hfits, hbytes⟩
      | v6 => exact h6 ⟨Option.some.inj hfamily, hfits, hbytes⟩

/-- The map of a family with one entry changed. -/
theorem update_entry {V : Type} (m : Reference V) (f g : Family) (q r : PrefixTree.Bits)
    (v : Option V) : Function.update m f (Function.update (m f) q v) g r =
      if g = f ∧ r = q then v else m g r := by
  by_cases hg : g = f
  · subst hg
    rw [Function.update_self]
    by_cases hr : r = q
    · subst hr
      simp
    · simp [hr]
  · simp [hg]

theorem remove_entry {V : Type} [DecidableEq V] (m : Reference V) {f : Family} (ip : Address f)
    (cidr : ℕ) (v : V) (g : Family) (r : PrefixTree.Bits) :
    m.apply (.remove f ip cidr v) g r =
      if m f ((netBits ip.bytes).take cidr) = some v ∧ g = f ∧ r = (netBits ip.bytes).take cidr
      then none else m g r := by
  rw [Reference.apply]
  by_cases hown : m f ((netBits ip.bytes).take cidr) = some v
  · simp only [hown, true_and, if_true, update_entry]
  · simp only [hown, false_and, if_false]

theorem Selected.setAllowedip (h : Selected pl held peer key wg c) (attrs : AllowedipAttrs) :
    Answers (Selected pl held peer key) (setAllowedip pl peer attrs wg)
      (c.setAllowedip key attrs) := by
  obtain ⟨m, hm, howned, hroutes⟩ := h.routes
  rcases attrs.op_cases with ⟨hop, -⟩ | ⟨f, ip, cidr, ⟨-, -, -, hcidr⟩, ⟨-, hop⟩ | ⟨-, hop⟩⟩
  · rw [Config.setAllowedip, Conf.setAllowedip, hop, hop]
    exact .single h
  · -- an entry is set, or there is no memory
    rw [Config.setAllowedip, Conf.setAllowedip, hop, hop]
    obtain ⟨ret, table, hstep, hallowed, hafter⟩ :=
      step_refines hm (.insert f ip cidr peer attrs.granted)
    dsimp only
    rw [hstep]
    rcases hallowed with ⟨hlong, -⟩ | ⟨-, rfl | ⟨hdenied, rfl⟩⟩
    · omega
    · refine ⟨0, _, _, rfl, List.mem_cons_self, h.setTable hafter ?_ ?_⟩
      · intro g r other hother
        have hother : Function.update m f _ g r = some other := hother
        rw [update_entry] at hother
        split at hother
        · cases hother
          exact h.listed
        · exact howned g r other hother
      · intro g r
        show Function.update c.routes f _ g r = (Function.update m f _ g r).bind wg.key
        rw [update_entry, update_entry, hroutes g r]
        split
        · exact h.named.symm
        · rfl
    · refine ⟨-12, _, c, rfl, ?_, h.setTable hafter howned hroutes⟩
      rw [if_neg hdenied]
      exact List.mem_cons_of_mem _ (List.mem_singleton_self _)
  · -- an entry of this peer is deleted
    rw [Config.setAllowedip, Conf.setAllowedip, hop, hop]
    obtain ⟨ret, table, hstep, hallowed, hafter⟩ := step_refines hm (.remove f ip cidr peer)
    dsimp only
    rw [hstep]
    rcases hallowed with ⟨hlong, -⟩ | ⟨-, rfl⟩
    · omega
    · have hsame : c.routes f ((netBits ip.bytes).take cidr) = some key ↔
          m f ((netBits ip.bytes).take cidr) = some peer := by
        rw [hroutes]
        constructor
        · intro hbind
          obtain ⟨other, hother, hkey⟩ := Option.bind_eq_some_iff.mp hbind
          rw [hother, h.key_inj (howned _ _ _ hother) h.listed (hkey.trans h.named.symm)]
        · intro hown
          rw [hown]
          exact h.named
      refine ⟨0, _, _, rfl, List.mem_singleton_self _, h.setTable hafter ?_ ?_⟩
      · intro g r other hother
        have hother : m.apply (.remove f ip cidr peer) g r = some other := hother
        rw [remove_entry] at hother
        split at hother
        · cases hother
        · exact howned g r other hother
      · intro g r
        show c.routes.apply (.remove f ip cidr key) g r =
          (m.apply (.remove f ip cidr peer) g r).bind wg.key
        simp only [remove_entry, hsame, hroutes g r]
        split <;> rfl

theorem Selected.setAllowedips (h : Selected pl held peer key wg c)
    (entries : List (Except Errno AllowedipAttrs)) :
    Answers (Selected pl held peer key) (setAllowedips pl peer entries wg)
      (c.setAllowedips key entries) := by
  induction entries generalizing wg c with
  | nil => exact .single h
  | cons entry entries ih =>
    cases entry with
    | error e => exact .single h
    | ok attrs => exact (h.setAllowedip attrs).loop fun _ _ hafter => ih hafter

end Allowedips

/-! ## Entries for peers -/

section Peers

theorem setPeerEndpoint_eq {endpoint : Endpoint} (hnew : endpoint ≠ .none) (s : Settings) :
    { s with endpoint := wgSocketSetPeerEndpoint endpoint s.endpoint } =
      s.moveTo (some endpoint) := by
  unfold wgSocketSetPeerEndpoint Settings.moveTo
  rw [Option.filter_some]
  cases endpointEq endpoint s.endpoint with
  | true => rfl
  | false =>
    cases endpoint with
    | none => exact absurd rfl hnew
    | v4 addr src => rfl
    | v6 addr src => rfl

/-- `WGPEER_A_ENDPOINT` moves the peer to the endpoint that the address stands for. -/
theorem setEndpoint_eq (addr : Option Bytes) :
    setEndpoint pl addr = Settings.moveTo (addr.bind (endpointOf pl.endian)) := by
  funext s
  cases addr with
  | none => rfl
  | some addr =>
    rw [setEndpoint, Option.bind_some, endpointOf]
    split
    · exact setPeerEndpoint_eq Endpoint.noConfusion s
    · split
      · exact setPeerEndpoint_eq Endpoint.noConfusion s
      · rfl

/-- A packet moves the peer to where it came from. -/
theorem setPeerEndpointFromSkb_eq (skb : SkbAddrs) :
    wgSocketSetPeerEndpointFromSkb pl skb =
      Settings.moveTo (wgSocketEndpointFromSkb pl skb) := by
  funext s
  have hsome : ∀ endpoint, wgSocketEndpointFromSkb pl skb = some endpoint → endpoint ≠ .none := by
    rintro endpoint hskb rfl
    cases skb <;> cases hskb
  rw [wgSocketSetPeerEndpointFromSkb]
  cases hskb : wgSocketEndpointFromSkb pl skb with
  | none => rfl
  | some endpoint => exact setPeerEndpoint_eq (hsome endpoint hskb) s

/-- Without the flag it stays. -/
theorem setAdvancedSecurity_eq (flags : U32) (dev : WgDevice) (flag : Bool) :
    setAdvancedSecurity flags dev flag = fun s =>
      { s with
        advancedSecurity :=
          if hasFlag flags wgpeerFHasAdvancedSecurity then dev.advancedSecurity && flag
          else s.advancedSecurity } := by
  funext s
  rw [setAdvancedSecurity]
  split <;> rfl

theorem updatePeer_refines (h : Selected pl held peer key wg c) (flags : U32)
    (presharedKey : Option Bytes) (attrs : PeerAttrs) :
    Answers (Represents pl [] held) (updatePeer pl flags presharedKey attrs peer wg)
      (c.updatePeer pl flags presharedKey attrs key) := by
  rw [updatePeer, Conf.updatePeer]
  split
  · obtain ⟨wg₁, hremove, h₁⟩ := remove_refines h.toRepresents h.listed h.named
    rw [hremove]
    exact .single h₁
  · obtain ⟨wg₁, hpsk, h₁⟩ := h.modify (setPresharedKey presharedKey)
    obtain ⟨wg₂, hendpoint, h₂⟩ := h₁.modify (setEndpoint pl attrs.endpoint)
    rw [setEndpoint_eq] at h₂
    obtain ⟨wg₃, hreplace, h₃⟩ := h₂.replaceAllowedips flags
    obtain ⟨ret, wg₄, c₄, hrun, hmem, h₄⟩ := h₃.setAllowedips (attrs.allowedips.getD [])
    simp only [hpsk, hendpoint, hreplace, hrun, Option.bind_eq_bind, Option.bind_some]
    by_cases hneg : ret < 0
    · refine ⟨ret, wg₄, c₄, by rw [if_pos hneg], List.mem_map.mpr ⟨_, hmem, ?_⟩, h₄.toRepresents⟩
      dsimp only
      rw [if_pos hneg]
    · obtain ⟨wg₅, hinterval, h₅⟩ := h₄.modify (setInterval attrs.persistentKeepaliveInterval)
      obtain ⟨wg₆, hadvanced, h₆⟩ := h₅.modify
        (setAdvancedSecurity flags wg₅.obfuscation.dev attrs.advancedSecurity)
      have hobfuscation := congrArg Basics.obfuscation h₅.basics
      rw [hobfuscation, setAdvancedSecurity_eq] at h₆
      refine ⟨ret, wg₆, _, ?_, List.mem_map.mpr ⟨_, hmem, ?_⟩, h₆.toRepresents⟩
      · simp only [if_neg hneg, hinterval, hadvanced, Option.bind_some]
      · exact if_neg hneg

theorem updateAndPut_refines (h : Selected pl (peer :: held) peer key wg c) (flags : U32)
    (presharedKey : Option Bytes) (attrs : PeerAttrs) :
    Answers (Represents pl [] held) (updateAndPut pl flags presharedKey attrs peer wg)
      (c.updatePeer pl flags presharedKey attrs key) := by
  obtain ⟨ret, wg₁, c₁, hupdate, hmem, h₁⟩ := updatePeer_refines h flags presharedKey attrs
  obtain ⟨wg₂, hput, -, h₂⟩ := put_refines h₁
  refine ⟨ret, wg₂, c₁, ?_, hmem, h₂⟩
  rw [updateAndPut, hupdate, Option.bind_some]
  dsimp only
  rw [hput, Option.map_some]

theorem numPeers_eq (h : Represents pl [] held wg c) : wg.numPeers = c.peers.length := by
  rw [h.num, List.length_nil, Nat.add_zero, ← List.length_map wg.entry, h.entries, List.length_map]

/-- A peer that was not there is added, unless it is the device itself. -/
theorem newPeer_refines (h : Represents pl [] held wg c) (hnew : key ∉ c.keys)
    (hroom : wg.numPeers < maxPeersPerDevice) (flags : U32) (presharedKey : Option Bytes)
    (attrs : PeerAttrs) :
    Answers (Represents pl [] held)
      ((wgPeerGet (wg.peerCounter + 1) (created pl key presharedKey wg)).bind
        (updateAndPut pl flags presharedKey attrs (wg.peerCounter + 1)))
      ((c.create key presharedKey).updatePeer pl flags presharedKey attrs key) := by
  have hcreated : Represents pl [] held (created pl key presharedKey wg)
      (c.create key presharedKey) := create_refines h hnew hroom
  have hlisted : wg.peerCounter + 1 ∈ (created pl key presharedKey wg).peerList :=
    mem_created.mpr (.inr rfl)
  obtain ⟨wg₁, hget, hlist, hkeys, h₁⟩ := get_refines hcreated hlisted
  rw [hget, Option.bind_some]
  exact updateAndPut_refines ⟨h₁, hlist ▸ hlisted, hkeys ▸ created_key_self⟩ _ _ _

theorem setPeer_refines (h : Represents pl [] held wg c) (attrs : PeerAttrs) :
    Answers (Represents pl [] held) (setPeer pl attrs wg) (c.setPeer pl attrs) := by
  rw [setPeer, Conf.setPeer]
  cases hkey : keyOf attrs.publicKey with
  | none => exact .single h
  | some key =>
    dsimp only
    split
    · exact .single h
    · rcases lookup_refines h key with ⟨hnot, hlookup⟩ | ⟨peer, wg₁, hmem, hlookup, -, h₁⟩
      · rw [hlookup, Option.bind_some, if_neg hnot]
        dsimp only
        split
        · exact .single h
        · rw [h.basics]
          split
          · exact .single h
          · rw [← numPeers_eq h]
            by_cases hrefused : maxPeersPerDevice ≤ wg.numPeers ∨ attrs.granted ≠ (true, true)
            · rw [create_refused hrefused, if_pos hrefused]
              exact .single h
            · rw [if_neg hrefused]
              rw [not_or, not_le, not_not] at hrefused
              rw [hrefused.2, create_eq hrefused.1]
              exact newPeer_refines h hnot hrefused.1 _ _ _
      · rw [hlookup, Option.bind_some, if_pos hmem]
        exact updateAndPut_refines h₁ _ _ _

theorem setPeers_refines (h : Represents pl [] held wg c)
    (entries : List (Except Errno PeerAttrs)) :
    Answers (Represents pl [] held) (setPeers pl entries wg) (c.setPeers pl entries) := by
  induction entries generalizing wg c with
  | nil => exact .single h
  | cons entry entries ih =>
    cases entry with
    | error e => exact .single h
    | ok attrs => exact (setPeer_refines h attrs).loop fun _ _ hafter => ih hafter

end Peers

/-! ## Settings of the device -/

section Settings

/-- Everything but the peers and the identity. -/
theorem Represents.mapBasics (h : Represents pl dead held wg c) (change : Basics → Basics)
    (hidentity : ∀ b, (change b).staticIdentity = b.staticIdentity) :
    Represents pl dead held { wg with toBasics := change wg.toBasics }
      { c with toBasics := change c.toBasics } :=
  { counted := h.counted
    alive := fun other hother p hp => (hidentity wg.toBasics).symm ▸ h.alive other hother p hp
    keys := h.keys
    fresh := h.fresh
    buckets := h.buckets
    num := h.num
    limit := h.limit
    basics := congrArg change h.basics
    entries := h.entries
    routes := h.routes }

/-- All listed peers are written. -/
def Device.mapPeers (f : WgPeer → WgPeer) (b : Basics) (wg : Device) : Device :=
  { wg with
    toBasics := b
    peers := fun peer => if peer ∈ wg.peerList then (wg.peers peer).map f else wg.peers peer }

/-- A loop over peers writes each of them once. -/
theorem foldlM_modifyPeer (wg : Device) {l : List ℕ} (f : WgPeer → WgPeer) (hnodup : l.Nodup)
    (hall : ∀ peer ∈ l, ∃ p, wg.peers peer = some p) :
    l.foldlM (fun wg peer => modifyPeer peer f wg) wg =
      some { wg with
        peers := fun peer => if peer ∈ l then (wg.peers peer).map f else wg.peers peer } := by
  induction l generalizing wg with
  | nil => simp
  | cons first l ih =>
    obtain ⟨hnot, hnodup⟩ := List.nodup_cons.mp hnodup
    obtain ⟨p, hp⟩ := hall first List.mem_cons_self
    have hne : ∀ other ∈ l, other ≠ first := fun other hother heq => hnot (heq ▸ hother)
    rw [List.foldlM_cons, modifyPeer_eq wg hp, Option.bind_eq_bind, Option.bind_some,
      ih _ hnodup fun other hother => ?_]
    · congr 2
      funext other
      by_cases heq : other = first
      · subst heq
        simp [hnot, hp]
      · simp [heq]
    · dsimp only
      rw [Function.update_of_ne (hne other hother)]
      exact hall other (List.mem_cons_of_mem _ hother)

theorem forAllPeers_eq (h : Linked pl dead held wg) (b : Basics) (f : WgPeer → WgPeer) :
    forAllPeers f { wg with toBasics := b } = some (wg.mapPeers f b) :=
  foldlM_modifyPeer { wg with toBasics := b } f h.nodup fun _ hother => h.allocated hother

section MapPeers

variable {f : WgPeer → WgPeer} {g : Settings → Settings} {b : Basics}

theorem mapPeers_of_mem (hmem : peer ∈ wg.peerList) :
    (wg.mapPeers f b).peers peer = (wg.peers peer).map f := if_pos hmem

theorem mapPeers_map {α : Type} {view : WgPeer → α} (hview : ∀ p, view (f p) = view p) :
    ((wg.mapPeers f b).peers peer).map view = (wg.peers peer).map view := by
  by_cases hmem : peer ∈ wg.peerList
  · rw [mapPeers_of_mem hmem, Option.map_map]
    exact congrArg (Option.map · _) (funext hview)
  · exact congrArg (Option.map view) (if_neg hmem)

/-- All listed peers are written, perhaps for a new identity. -/
theorem mapPeers_refines (h : Represents pl [] held wg c)
    (hkey : ∀ p, (f p).remoteStatic = p.remoteStatic) (hcount : ∀ p, (f p).refcount = p.refcount)
    (hsettings : ∀ p, (f p).toSettings = g p.toSettings)
    (halive : ∀ p, p.isDead = false ∧ Derived pl wg.staticIdentity p →
      (f p).isDead = false ∧ Derived pl b.staticIdentity (f p)) :
    Represents pl [] held (wg.mapPeers f b) ({ c with toBasics := b }.modifyAll g) := by
  have hkeys : (wg.mapPeers f b).key = wg.key := funext fun other => mapPeers_map hkey
  refine ⟨⟨?_, ?_, ?_, ?_, ?_, h.num, h.limit⟩, rfl, ?_, ?_⟩
  · intro other
    rw [mapPeers_map hcount]
    exact h.counted other
  · intro other hother p hp
    have hother : other ∈ wg.peerList := hother
    rw [mapPeers_of_mem hother] at hp
    obtain ⟨q, hq, rfl⟩ := Option.map_eq_some_iff.mp hp
    exact halive q (h.alive other hother q hq)
  · rw [hkeys]
    exact h.keys
  · intro other hother
    refine h.fresh other fun hnone => hother ?_
    have hsame : ((wg.mapPeers f b).peers other).map WgPeer.refcount = _ := mapPeers_map hcount
    rw [hnone] at hsame
    exact Option.map_eq_none_iff.mp hsame
  · rw [hkeys]
    exact h.buckets
  · have hmodify : ({ c with toBasics := b }.modifyAll g).peers.map some =
        (c.peers.map some).map (Option.map fun entry => (entry.1, g entry.2)) := by
      simp [Conf.modifyAll]
    rw [hmodify, ← h.entries, List.map_map]
    refine List.map_congr_left fun other (hother : other ∈ wg.peerList) => ?_
    rw [Function.comp_apply, Device.entry, Device.entry, mapPeers_of_mem hother, Option.map_map,
      Option.map_map]
    refine congrArg (Option.map · _) (funext fun p => ?_)
    simp only [Function.comp_apply, hkey, hsettings]
  · obtain ⟨m, hm, howned, hroutes⟩ := h.routes
    refine ⟨m, hm, howned, fun f q => ?_⟩
    rw [hkeys]
    exact hroutes f q

end MapPeers

/-- The peers have to find their source addresses anew. -/
theorem clearAllSrc_refines (h : Represents pl [] held wg c) :
    ∃ wg', clearAllSrc wg = some wg' ∧ Represents pl [] held wg' (c.modifyAll clearSrc) := by
  refine ⟨_, forAllPeers_eq h.toLinked wg.toBasics _, ?_⟩
  have hc : c = { c with toBasics := wg.toBasics } := by rw [h.basics]
  rw [hc]
  refine mapPeers_refines h (fun _ => rfl) (fun _ => rfl) (fun _ => rfl) ?_
  rintro p ⟨hdead, hsecret, hcookie⟩
  refine ⟨hdead, ?_, hcookie⟩
  have hsecret := congrArg WgPeer.precomputedStaticStatic hsecret
  simp only [wgNoisePrecomputeStaticStatic] at hsecret ⊢
  rw [hsecret]

theorem setFwmark_refines (h : Represents pl [] held wg c) (fwmark : Option U32) :
    ∃ wg', setFwmark fwmark wg = some wg' ∧ Represents pl [] held wg' (c.setFwmark fwmark) := by
  cases fwmark with
  | none => exact ⟨wg, rfl, h⟩
  | some fwmark =>
    exact clearAllSrc_refines (h.mapBasics (fun b => { b with fwmark }) fun _ => rfl)

theorem setPort_refines (h : Represents pl [] held wg c) (sur : Surroundings) (port : U16) :
    ∃ wg', setPort sur port wg = some ((c.setPort sur port).1, wg') ∧
      Represents pl [] held wg' (c.setPort sur port).2 := by
  rw [setPort, Conf.setPort, h.basics]
  split
  · exact ⟨wg, rfl, h⟩
  · obtain ⟨wg₁, hclear, h₁⟩ := clearAllSrc_refines h
    have hset : ∀ port, Represents pl [] held { wg₁ with incomingPort := port }
        { c.modifyAll clearSrc with incomingPort := port } := fun port =>
      h₁.mapBasics (fun b => { b with incomingPort := port }) fun _ => rfl
    rw [hclear, Option.map_some]
    dsimp only
    split
    · exact ⟨_, rfl, hset port⟩
    · refine ⟨_, rfl, ?_⟩
      split
      · exact hset _
      · exact h₁

theorem setListenPort_refines (h : Represents pl [] held wg c) (sur : Surroundings)
    (port : Option U16) :
    ∃ wg', setListenPort sur port wg = some ((c.setListenPort sur port).1, wg') ∧
      Represents pl [] held wg' (c.setListenPort sur port).2 := by
  cases port with
  | none => exact ⟨wg, rfl, h⟩
  | some port => exact setPort_refines h sur port

end Settings

/-! ## The identity of the device -/

section Identity

/-- Nothing is removed for a key that no peer has. -/
theorem remove_of_notMem (h : Represents pl dead held wg c) (hnot : key ∉ c.keys) :
    c.remove key = c := by
  have hpeers : c.peers.filter (fun entry => entry.1 ≠ key) = c.peers := by
    refine List.filter_eq_self.mpr fun entry hentry => decide_eq_true fun heq => hnot ?_
    exact List.mem_map.mpr ⟨entry, hentry, heq⟩
  have hroutes : c.routes.apply (.removeByPeer key) = c.routes := by
    obtain ⟨m, -, howned, hroutes⟩ := h.routes
    funext f q
    refine if_neg fun hown => hnot ?_
    rw [hroutes f q] at hown
    obtain ⟨peer, hpeer, hkey⟩ := Option.bind_eq_some_iff.mp hown
    exact (mem_keys_iff h).mpr ⟨peer, howned f q peer hpeer, hkey⟩
  rw [Conf.remove, Conf.dropRoutes, hpeers, hroutes]

/-- Two devices with the same list that stand for the same configuration. -/
theorem key_of_same {held' : List ℕ} (h : Represents pl dead held wg c)
    (h' : Represents pl dead held' wg' c) (hlist : wg'.peerList = wg.peerList)
    (hmem : peer ∈ wg.peerList) : wg'.key peer = wg.key peer := by
  have hkeys := (keys_eq h').trans (keys_eq h).symm
  rw [hlist] at hkeys
  exact List.map_inj_left.mp hkeys peer hmem

theorem removeOwn_refines (h : Represents pl [] held wg c) (privateKey : Bytes) :
    ∃ wg', removeOwn pl privateKey wg = some wg' ∧
      Represents pl [] held wg' (c.removeOwn pl privateKey) := by
  rw [removeOwn, Conf.removeOwn]
  cases hpublic : Noise.curve25519GeneratePublic pl.noise privateKey with
  | none => exact ⟨wg, rfl, h⟩
  | some publicKey =>
    dsimp only
    rcases lookup_refines h publicKey with ⟨hnot, hlookup⟩ | ⟨peer, wg₁, -, hlookup, -, h₁⟩
    · rw [hlookup, remove_of_notMem h hnot]
      exact ⟨wg, rfl, h⟩
    · -- the reference is put before the removal, which the list still allows
      obtain ⟨wg₂, hput, hlist, h₂⟩ := put_refines h₁.toRepresents
      have hnamed := (key_of_same h₁.toRepresents h₂ hlist h₁.listed).trans h₁.named
      obtain ⟨wg₃, hremove, h₃⟩ := remove_refines h₂ (hlist ▸ h₁.listed) hnamed
      refine ⟨wg₃, ?_, h₃⟩
      rw [hlookup, Option.bind_some]
      dsimp only
      rw [hput, Option.bind_some, hremove]

theorem modifyAll_id (c : Conf) : c.modifyAll id = c := by
  rw [Conf.modifyAll]
  exact congrArg (fun peers => { c with peers }) (List.map_id _)

/-- All peers get the secret that they share with the new identity. -/
theorem setIdentity_refines (h : Represents pl [] held wg c) (privateKey : Bytes) :
    ∃ wg', setIdentity pl privateKey wg = some wg' ∧
      Represents pl [] held wg' (c.setIdentity pl privateKey) := by
  rw [setIdentity, Conf.setIdentity, ← h.basics]
  generalize Noise.wgNoiseSetStaticIdentityPrivateKey pl.noise privateKey wg.staticIdentity =
    identity
  have hall := mapPeers_refines (b := { wg.toBasics with staticIdentity := identity })
    (f := wgNoisePrecomputeStaticStatic pl identity) (g := id) h (fun _ => rfl) (fun _ => rfl)
    (fun _ => rfl) fun p hp => ⟨hp.1, rfl, hp.2.cookie⟩
  rw [modifyAll_id] at hall
  refine ⟨_, ?_, hall.mapBasics (fun b => { b with
    cookieChecker := Cookies.wgCookieCheckerPrecomputeDeviceKeys pl.cookies
      ⟨identity.hasIdentity, identity.staticPublic⟩ b.cookieChecker }) fun _ => rfl⟩
  dsimp only
  rw [forAllPeers_eq h.toLinked { wg.toBasics with staticIdentity := identity }, Option.map_some]

theorem setPrivateKey_refines (h : Represents pl [] held wg c) (privateKey : Option Bytes) :
    ∃ wg', setPrivateKey pl privateKey wg = some wg' ∧
      Represents pl [] held wg' (c.setPrivateKey pl privateKey) := by
  rw [setPrivateKey, Conf.setPrivateKey]
  cases keyOf privateKey with
  | none => exact ⟨wg, rfl, h⟩
  | some privateKey =>
    dsimp only
    rw [h.basics]
    split
    · exact ⟨wg, rfl, h⟩
    · obtain ⟨wg₁, hremove, h₁⟩ := removeOwn_refines h privateKey
      rw [hremove, Option.bind_some]
      exact setIdentity_refines h₁ privateKey

end Identity

/-! ## Requests and runs -/

section Runs

theorem replacePeers_refines (h : Represents pl [] held wg c) (flags : U32) :
    ∃ wg', replacePeers flags wg = some wg' ∧ Represents pl [] held wg'
      (if hasFlag flags wgdeviceFReplacePeers then c.removeAll else c) := by
  rw [replacePeers]
  split
  · exact removeAll_refines h
  · exact ⟨wg, rfl, h⟩

theorem Represents.setObfuscation (h : Represents pl dead held wg c) (obfuscation : DevState) :
    Represents pl dead held { wg with obfuscation } { c with obfuscation } :=
  h.mapBasics (fun b => { b with obfuscation }) fun _ => rfl

theorem setKeysAndPeers_refines (h : Represents pl [] held wg c) (req : SetDevice) :
    Answers (Represents pl [] held) (setKeysAndPeers pl req wg) (c.setKeysAndPeers pl req) := by
  obtain ⟨wg₁, hreplace, h₁⟩ := replacePeers_refines h (req.flags.getD 0)
  obtain ⟨wg₂, hkey, h₂⟩ := setPrivateKey_refines h₁ req.privateKey
  rw [setKeysAndPeers, Conf.setKeysAndPeers, hreplace, Option.bind_eq_bind, Option.bind_some, hkey,
    Option.bind_some]
  dsimp only
  rw [congrArg Basics.obfuscation h₂.basics]
  generalize Conf.setPrivateKey pl req.privateKey _ = c₂ at h₂ ⊢
  cases (wgDeviceHandlePostConfig pl.mem c₂.obfuscation).err with
  | some e => exact .single (h₂.setObfuscation _)
  | none => exact setPeers_refines (h₂.setObfuscation _) _

theorem setDevice_refines (h : Represents pl [] held wg c) (sur : Surroundings) (req : SetDevice) :
    Answers (Represents pl [] held) (wgSetDevice pl sur req wg) (c.setDevice pl sur req) := by
  rw [wgSetDevice, Conf.setDevice]
  split
  · exact .single h
  · have h₁ := h.mapBasics (fun b => { b with deviceUpdateGen := b.deviceUpdateGen + 1 })
      fun _ => rfl
    obtain ⟨wg₂, hmark, h₂⟩ := setFwmark_refines h₁ req.fwmark
    obtain ⟨wg₃, hport, h₃⟩ := setListenPort_refines h₂ sur req.listenPort
    dsimp only at hmark hport h₃ ⊢
    simp only [hmark, hport, Option.bind_eq_bind, Option.bind_some]
    generalize Conf.setListenPort sur req.listenPort _ = answer at hport h₃ ⊢
    obtain ⟨ret, c₃⟩ := answer
    dsimp only
    split
    · exact .single h₃
    · rw [congrArg Basics.obfuscation h₃.basics]
      dsimp only
      cases (Stepwise.run (setAttr pl.mem) req.obfuscation.attrs c₃.obfuscation).err with
      | some e => exact .single (h₃.setObfuscation _)
      | none => exact setKeysAndPeers_refines (h₃.setObfuscation _) req

theorem modify_of_notMem {f : Settings → Settings} (hnot : key ∉ c.keys) : c.modify key f = c := by
  rw [Conf.modify]
  refine congrArg (fun peers => { c with peers }) ((List.map_congr_left fun entry hentry => ?_).trans
    (List.map_id _))
  exact if_neg fun heq => hnot (List.mem_map.mpr ⟨entry, hentry, heq⟩)

/-- Whatever happens to a device is what the specification says of its configuration. -/
theorem event_refines (h : Represents pl [] [] wg c) (event : Event) :
    Answers (Represents pl [] []) (event.onDevice pl wg) (event.onConf pl c) := by
  cases event with
  | setDevice sur req => exact setDevice_refines h sur req
  | up sur =>
    have hopened := h.mapBasics (fun b => (openSockets sur b).2) fun b => by
      rw [openSockets]
      dsimp only
      split <;> rfl
    refine ⟨_, _, _, rfl, ?_, hopened⟩
    rw [h.basics]
    exact List.mem_singleton_self _
  | roam key skb =>
    rw [Event.onDevice, Event.onConf]
    rcases lookup_refines h key with ⟨hnot, hlookup⟩ | ⟨peer, wg₁, -, hlookup, -, h₁⟩
    · rw [hlookup, Option.bind_some, modify_of_notMem hnot]
      exact .single h
    · obtain ⟨wg₂, hroam, h₂⟩ := h₁.modify (wgSocketSetPeerEndpointFromSkb pl skb)
      rw [setPeerEndpointFromSkb_eq] at h₂
      obtain ⟨wg₃, hput, -, h₃⟩ := put_refines h₂.toRepresents
      rw [hlookup, Option.bind_some]
      dsimp only
      rw [hroam, Option.bind_some, hput]
      exact .single h₃
  | destruct =>
    have hclosed := h.mapBasics (fun b => { b with incomingPort := 0 }) fun _ => rfl
    obtain ⟨wg₁, hremove, h₁⟩ := removeAll_refines hclosed
    refine ⟨0, wg₁, _, ?_, List.mem_singleton_self _, h₁⟩
    show (wgPeerRemoveAll _).map _ = _
    rw [hremove, Option.map_some]

theorem run_refines_conf (h : Represents pl [] [] wg c) (events : List Event) :
    ∃ rets wg' c', runDevice pl wg events = some (rets, wg') ∧ Changes pl c events rets c' ∧
      Represents pl [] [] wg' c' := by
  induction events generalizing wg c with
  | nil => exact ⟨[], wg, c, rfl, .nil c, h⟩
  | cons event events ih =>
    obtain ⟨ret, wg₁, c₁, hevent, hmem, h₁⟩ := event_refines h event
    obtain ⟨rets, wg₂, c₂, hrun, hchanges, h₂⟩ := ih h₁
    refine ⟨ret :: rets, wg₂, c₂, ?_, .cons hmem hchanges, h₂⟩
    rw [runDevice, hevent, Option.bind_some]
    dsimp only
    rw [hrun, Option.map_some]

end Runs

end AmneziaWg.Config
