import AmneziaWg.Config.Spec

/-!
# The device and its configuration

The list of peers, the table of public keys, the references, the tries and the counters of a
device all say the same, and it is what the specification says.

* **Relation**: `Represents`, a device and the configuration that it stands for.
* **Steps**: one lemma for each function, up to `event_refines`.
-/

namespace AmneziaWg.Config

open Linux Stepwise AllowedIps

/-! ## The relation -/

def Device.key (wg : Device) (peer : ℕ) : Option Bytes := (wg.peers peer).map WgPeer.remoteStatic

def Device.entry (wg : Device) (peer : ℕ) : Option (Bytes × Settings) :=
  (wg.peers peer).map fun p => (p.remoteStatic, p.toSettings)

/-- A peer is allocated while there are references to it, and counts them. -/
def Counted (refs : List ℕ) (peers : ℕ → Option WgPeer) : Prop :=
  ∀ peer, (peers peer).map WgPeer.refcount =
    if refs.count peer = 0 then none else some (refs.count peer)

/-- What a peer keeps of the keys is up to date. -/
structure Derived (pl : Platform) (identity : Noise.NoiseStaticIdentity) (p : WgPeer) : Prop where
  secret : wgNoisePrecomputeStaticStatic pl identity p = p
  cookie : Cookies.wgCookieCheckerPrecomputePeerKeys pl.cookies p.remoteStatic p.latestCookie =
    p.latestCookie

/-- A device between two steps of a request. Some peers are `dead` but still counted, and the
request holds references to others. -/
structure Linked (pl : Platform) (dead held : List ℕ) (wg : Device) : Prop where
  counted : Counted (wg.peerList ++ dead ++ held) wg.peers
  alive : ∀ peer ∈ wg.peerList, ∀ p, wg.peers peer = some p →
    p.isDead = false ∧ Derived pl wg.staticIdentity p
  keys : (wg.peerList.map wg.key).Nodup
  fresh : ∀ peer, wg.peers peer ≠ none → peer ≤ wg.peerCounter
  buckets : ∀ bucket peer, peer ∈ wg.peerHashtable bucket ↔
    peer ∈ wg.peerList ∧ (wg.key peer).map (pubkeyBucket pl) = some bucket
  num : wg.numPeers = wg.peerList.length + dead.length
  limit : wg.numPeers ≤ maxPeersPerDevice

/-- The device stands for the configuration. -/
structure Represents (pl : Platform) (dead held : List ℕ) (wg : Device) (c : Conf) : Prop
    extends Linked pl dead held wg where
  basics : wg.toBasics = c.toBasics
  entries : wg.peerList.map wg.entry = c.peers.map some
  routes : ∃ m, Refines pl.endian wg.peerAllowedips m ∧
    (∀ f q peer, m f q = some peer → peer ∈ wg.peerList) ∧
    ∀ f q, c.routes f q = (m f q).bind wg.key

/-- The request works on a listed peer. -/
structure Selected (pl : Platform) (held : List ℕ) (peer : ℕ) (key : Bytes) (wg : Device)
    (c : Conf) : Prop extends Represents pl [] held wg c where
  listed : peer ∈ wg.peerList
  named : wg.key peer = some key

variable {pl : Platform} {dead held : List ℕ} {wg wg' : Device} {c : Conf} {peer : ℕ} {p : WgPeer}
  {key : Bytes}

/-! ## References -/

section References

variable {refs refs' : List ℕ} {peers : ℕ → Option WgPeer}

theorem Counted.congr (h : Counted refs peers) (hcount : ∀ peer, refs'.count peer = refs.count peer) :
    Counted refs' peers := by
  intro peer
  rw [hcount, h peer]

theorem Counted.mem_iff (h : Counted refs peers) : peer ∈ refs ↔ ∃ p, peers peer = some p := by
  have hpeer := h peer
  rw [← List.count_pos_iff]
  cases hp : peers peer with
  | none =>
    rw [hp] at hpeer
    split at hpeer
    · next hzero => simp [hzero]
    · cases hpeer
  | some p =>
    rw [hp] at hpeer
    split at hpeer
    · cases hpeer
    · next hne => exact ⟨fun _ => ⟨p, rfl⟩, fun _ => Nat.pos_of_ne_zero hne⟩

theorem Counted.refcount (h : Counted refs peers) (hp : peers peer = some p) :
    p.refcount = refs.count peer ∧ 0 < refs.count peer := by
  have hpeer := h peer
  rw [hp] at hpeer
  split at hpeer
  · cases hpeer
  · next hne => exact ⟨Option.some.inj hpeer, Nat.pos_of_ne_zero hne⟩

/-- The counter of one peer is changed, or the peer is freed. -/
theorem Counted.update (h : Counted refs peers) {new : Option WgPeer}
    (hnew : new.map WgPeer.refcount =
      if refs'.count peer = 0 then none else some (refs'.count peer))
    (hothers : ∀ other, other ≠ peer → refs'.count other = refs.count other) :
    Counted refs' (Function.update peers peer new) := by
  intro other
  by_cases hother : other = peer
  · subst hother
    rw [Function.update_self, hnew]
  · rw [Function.update_of_ne hother, h other, hothers other hother]

/-- A write that leaves the counter alone. -/
theorem Counted.set (h : Counted refs peers) (hp : peers peer = some p) {q : WgPeer}
    (hsame : q.refcount = p.refcount) : Counted refs (Function.update peers peer (some q)) := by
  refine h.update ?_ fun _ _ => rfl
  rw [← h peer, hp, Option.map_some, Option.map_some, hsame]

end References

/-! ## One peer is written -/

variable {l : List ℕ}

section Write

variable {q : WgPeer} {held' : List ℕ}

theorem modifyPeer_eq (wg : Device) (hp : wg.peers peer = some p) (f : WgPeer → WgPeer) :
    modifyPeer peer f wg =
      some { wg with peers := Function.update wg.peers peer (some (f p)) } := by
  rw [modifyPeer, hp, Option.map_some]

theorem key_eq (hp : wg.peers peer = some p) : wg.key peer = some p.remoteStatic := by
  rw [Device.key, hp, Option.map_some]

theorem key_update (wg : Device) (hp : wg.peers peer = some p) (hkey : q.remoteStatic = p.remoteStatic) :
    ({ wg with peers := Function.update wg.peers peer (some q) } : Device).key = wg.key := by
  funext other
  by_cases hother : other = peer
  · subst hother
    simp only [Device.key, Function.update_self, hp, Option.map_some, hkey]
  · simp only [Device.key, Function.update_of_ne hother]

theorem Linked.allocated (h : Linked pl dead held wg) (hmem : peer ∈ wg.peerList) :
    ∃ p, wg.peers peer = some p :=
  h.counted.mem_iff.mp (List.mem_append_left _ (List.mem_append_left _ hmem))

/-- Two listed peers have two keys. -/
theorem Linked.key_inj (h : Linked pl dead held wg) {a b : ℕ} (ha : a ∈ wg.peerList)
    (hb : b ∈ wg.peerList) (hkey : wg.key a = wg.key b) : a = b :=
  List.inj_on_of_nodup_map h.keys ha hb hkey

/-- A peer is written, and perhaps the references to it change. -/
theorem Linked.write (h : Linked pl dead held wg) (hp : wg.peers peer = some p)
    (hkey : q.remoteStatic = p.remoteStatic)
    (halive : peer ∈ wg.peerList → q.isDead = false ∧ Derived pl wg.staticIdentity q)
    (hcounted : Counted (wg.peerList ++ dead ++ held')
      (Function.update wg.peers peer (some q))) :
    Linked pl dead held' { wg with peers := Function.update wg.peers peer (some q) } where
  counted := hcounted
  alive := by
    intro other hother r hr
    dsimp only at hother hr ⊢
    by_cases heq : other = peer
    · subst heq
      rw [Function.update_self] at hr
      cases hr
      exact halive hother
    · rw [Function.update_of_ne heq] at hr
      exact h.alive other hother r hr
  keys := by
    rw [key_update wg hp hkey]
    exact h.keys
  fresh := by
    intro other hother
    by_cases heq : other = peer
    · subst heq
      exact h.fresh other (by rw [hp]; exact Option.some_ne_none p)
    · dsimp only at hother
      rw [Function.update_of_ne heq] at hother
      exact h.fresh other hother
  buckets := by
    rw [key_update wg hp hkey]
    exact h.buckets
  num := h.num
  limit := h.limit

/-- The settings of one peer change, and nobody else's. -/
theorem entries_modify (h : Represents pl dead held wg c) (hmem : peer ∈ wg.peerList)
    (hp : wg.peers peer = some p) (hkey : q.remoteStatic = p.remoteStatic)
    {f : Settings → Settings} (hf : q.toSettings = f p.toSettings) :
    wg.peerList.map ({ wg with peers := Function.update wg.peers peer (some q) } : Device).entry =
      (c.modify p.remoteStatic f).peers.map some := by
  have hmodify : (c.modify p.remoteStatic f).peers.map some =
      (c.peers.map some).map (Option.map fun entry =>
        if entry.1 = p.remoteStatic then (p.remoteStatic, f entry.2) else entry) := by
    simp [Conf.modify]
  rw [hmodify, ← h.entries, List.map_map]
  refine List.map_congr_left fun other hother => ?_
  obtain ⟨r, hr⟩ := h.allocated hother
  by_cases heq : other = peer
  · subst heq
    rw [hp] at hr
    cases hr
    simp [Device.entry, hp, hkey, hf]
  · have hne : r.remoteStatic ≠ p.remoteStatic := by
      intro hsame
      refine heq (h.key_inj hother hmem ?_)
      rw [key_eq hr, key_eq hp, hsame]
    simp [Device.entry, Function.update_of_ne heq, hr, hne]

/-- The settings and the counter of a listed peer are written. -/
theorem write_refines (h : Represents pl dead held wg c) (hmem : peer ∈ wg.peerList)
    (hp : wg.peers peer = some p) (f : Settings → Settings) (n : ℕ)
    (hcounted : Counted (wg.peerList ++ dead ++ held') (Function.update wg.peers peer
      (some { p with toSettings := f p.toSettings, refcount := n }))) :
    Represents pl dead held'
      { wg with
        peers := Function.update wg.peers peer
          (some { p with toSettings := f p.toSettings, refcount := n }) }
      (c.modify p.remoteStatic f) := by
  obtain ⟨hdead, hderived⟩ := h.alive peer hmem p hp
  have hsecret := congrArg WgPeer.precomputedStaticStatic hderived.secret
  simp only [wgNoisePrecomputeStaticStatic] at hsecret
  have hlinked := h.toLinked.write (q := { p with toSettings := f p.toSettings, refcount := n })
    hp rfl (fun _ => ⟨hdead, by simp only [wgNoisePrecomputeStaticStatic, hsecret],
      hderived.cookie⟩) hcounted
  have hkeys := key_update (q := { p with toSettings := f p.toSettings, refcount := n }) wg hp rfl
  obtain ⟨m, hm, howned, hroutes⟩ := h.routes
  refine { hlinked with basics := h.basics, entries := ?_, routes := ⟨m, hm, howned, ?_⟩ }
  · exact entries_modify (q := { p with toSettings := f p.toSettings, refcount := n }) (f := f) h
      hmem hp rfl rfl
  · intro g r
    rw [hkeys]
    exact hroutes g r

theorem modify_id (key : Bytes) (c : Conf) : c.modify key id = c := by
  have hsame : (fun entry : Bytes × Settings =>
      if entry.1 = key then (key, id entry.2) else entry) = id := by
    funext entry
    split
    · next heq => rw [← heq]; rfl
    · rfl
  rw [Conf.modify, hsame, List.map_id]

/-- The settings of a listed peer are written. -/
theorem modifySettings_refines (h : Represents pl dead held wg c) (hmem : peer ∈ wg.peerList)
    (hkey : wg.key peer = some key) (f : Settings → Settings) :
    ∃ wg', modifySettings peer f wg = some wg' ∧ wg'.peerList = wg.peerList ∧
      wg'.key = wg.key ∧ Represents pl dead held wg' (c.modify key f) := by
  obtain ⟨p, hp⟩ := h.allocated hmem
  rw [key_eq hp] at hkey
  cases hkey
  refine ⟨_, modifyPeer_eq wg hp _, rfl, key_update wg hp rfl, ?_⟩
  exact write_refines h hmem hp f p.refcount (h.counted.set hp rfl)

/-- A reference to a listed peer is taken. -/
theorem get_refines (h : Represents pl dead held wg c) (hmem : peer ∈ wg.peerList) :
    ∃ wg', wgPeerGet peer wg = some wg' ∧ wg'.peerList = wg.peerList ∧ wg'.key = wg.key ∧
      Represents pl dead (peer :: held) wg' c := by
  obtain ⟨p, hp⟩ := h.allocated hmem
  obtain ⟨hcount, hpos⟩ := h.counted.refcount hp
  refine ⟨_, modifyPeer_eq wg hp _, rfl, key_update wg hp rfl, ?_⟩
  rw [← modify_id p.remoteStatic c]
  refine write_refines h hmem hp id (p.refcount + 1) (h.counted.update ?_ fun other hother => ?_)
  · simp [hcount, List.count_append, Nat.add_assoc]
  · simp [List.count_append, Ne.symm hother]

/-- The last reference frees the peer. -/
theorem put_eq (wg : Device) {n : ℕ} (hp : wg.peers peer = some p) (hn : p.refcount = n + 1) :
    wgPeerPut peer wg =
      some { wg with
        peers := Function.update wg.peers peer
          (if n = 0 then none else some { p with refcount := n }) } := by
  rw [wgPeerPut, hp, Option.bind_some, if_neg (by omega)]
  by_cases hzero : n = 0
  · rw [if_pos (by omega), if_pos hzero]
  · rw [if_neg (by omega), if_neg hzero, modifyPeer_eq wg hp, hn]
    rfl

theorem Counted.put {k : List ℕ} (h : Counted l wg.peers) (hp : wg.peers peer = some p)
    (hself : l.count peer = k.count peer + 1)
    (hothers : ∀ other, other ≠ peer → k.count other = l.count other) :
    p.refcount = k.count peer + 1 ∧
      Counted k (Function.update wg.peers peer
        (if k.count peer = 0 then none else some { p with refcount := k.count peer })) := by
  refine ⟨(h.refcount hp).1.trans hself, h.update ?_ hothers⟩
  split <;> rfl

/-- A peer that is not listed is written or freed. -/
theorem unlisted_refines {dead' : List ℕ} (h : Represents pl dead held wg c)
    (hnot : peer ∉ wg.peerList) (hp : wg.peers peer = some p) {new : Option WgPeer}
    (hcounted : Counted (wg.peerList ++ dead' ++ held') (Function.update wg.peers peer new))
    {n : ℕ} (hnum : n = wg.peerList.length + dead'.length) (hlimit : n ≤ maxPeersPerDevice) :
    Represents pl dead' held'
      { wg with peers := Function.update wg.peers peer new, numPeers := n } c := by
  have hne : ∀ other ∈ wg.peerList, other ≠ peer := fun other hother heq => hnot (heq ▸ hother)
  have hkey : ∀ other ∈ wg.peerList, ({ wg with
      peers := Function.update wg.peers peer new, numPeers := n } : Device).key other =
      wg.key other := by
    intro other hother
    simp only [Device.key, Function.update_of_ne (hne other hother)]
  refine ⟨⟨hcounted, ?_, ?_, ?_, ?_, hnum, hlimit⟩, h.basics, ?_, ?_⟩
  · intro other hother r hr
    dsimp only at hr
    rw [Function.update_of_ne (hne other hother)] at hr
    exact h.alive other hother r hr
  · rw [List.map_congr_left hkey]
    exact h.keys
  · intro other hother
    by_cases heq : other = peer
    · subst heq
      exact h.fresh other (by rw [hp]; exact Option.some_ne_none p)
    · dsimp only at hother
      rw [Function.update_of_ne heq] at hother
      exact h.fresh other hother
  · intro bucket other
    refine (h.buckets bucket other).trans (and_congr_right fun hother => ?_)
    rw [hkey other hother]
  · refine (List.map_congr_left fun other hother => ?_).trans h.entries
    simp only [Device.entry, Function.update_of_ne (hne other hother)]
  · obtain ⟨m, hm, howned, hroutes⟩ := h.routes
    refine ⟨m, hm, howned, fun f q => (hroutes f q).trans ?_⟩
    cases hq : m f q with
    | none => rfl
    | some other => exact (hkey other (howned f q other hq)).symm

/-- A reference of the request is put. -/
theorem put_refines (h : Represents pl dead (peer :: held) wg c) :
    ∃ wg', wgPeerPut peer wg = some wg' ∧ wg'.peerList = wg.peerList ∧
      Represents pl dead held wg' c := by
  obtain ⟨p, hp⟩ := h.counted.mem_iff.mp (List.mem_append_right _ List.mem_cons_self)
  obtain ⟨hcount, hcounted⟩ := h.counted.put (k := wg.peerList ++ dead ++ held) hp
    (by simp only [List.count_append, List.count_cons_self, Nat.add_assoc])
    (fun other hother => by simp [List.count_append, Ne.symm hother])
  refine ⟨_, put_eq wg hp hcount, rfl, ?_⟩
  by_cases hmem : peer ∈ wg.peerList
  · have hpos := List.count_pos_iff.mpr (List.mem_append_left held (List.mem_append_left dead hmem))
    rw [if_neg (Nat.pos_iff_ne_zero.mp hpos)] at hcounted ⊢
    rw [← modify_id p.remoteStatic c]
    exact write_refines h hmem hp id _ hcounted
  · exact unlisted_refines h hmem hp hcounted h.num h.limit

end Write

/-! ## Lookup -/

section Lookup

theorem keys_eq (h : Represents pl dead held wg c) : wg.peerList.map wg.key = c.keys.map some := by
  have hentries := congrArg (List.map (Option.map Prod.fst)) h.entries
  rw [List.map_map, List.map_map] at hentries
  rw [Conf.keys, List.map_map]
  refine Eq.trans (List.map_congr_left fun other _ => ?_) hentries
  simp only [Device.key, Device.entry, Function.comp_apply, Option.map_map]
  rfl

theorem mem_keys_iff (h : Represents pl dead held wg c) :
    key ∈ c.keys ↔ ∃ peer ∈ wg.peerList, wg.key peer = some key := by
  have hmem : some key ∈ c.keys.map some ↔ key ∈ c.keys := by simp
  rw [← hmem, ← keys_eq h, List.mem_map]

theorem findPeer_eq {bucket : List ℕ} (hall : ∀ peer ∈ bucket, ∃ p, wg.peers peer = some p) :
    findPeer wg key bucket = some (bucket.find? fun peer => wg.key peer = some key) := by
  induction bucket with
  | nil => rfl
  | cons peer bucket ih =>
    obtain ⟨p, hp⟩ := hall peer List.mem_cons_self
    rw [findPeer, hp, Option.bind_some, List.find?_cons, key_eq hp]
    by_cases heq : key = p.remoteStatic
    · rw [if_pos heq, heq]
      simp
    · rw [if_neg heq, ih fun other hother => hall other (List.mem_cons_of_mem _ hother)]
      simp [Ne.symm heq]

/-- A walk over the bucket of a key finds the listed peer with the key, and takes a reference. -/
theorem lookup_refines (h : Represents pl [] held wg c) (key : Bytes) :
    (key ∉ c.keys ∧ wgPubkeyHashtableLookup pl key wg = some (none, wg)) ∨
      ∃ peer wg', key ∈ c.keys ∧ wgPubkeyHashtableLookup pl key wg = some (some peer, wg') ∧
        Selected pl held peer key wg c ∧ Selected pl (peer :: held) peer key wg' c := by
  have hall : ∀ peer ∈ wg.peerHashtable (pubkeyBucket pl key), ∃ p, wg.peers peer = some p :=
    fun peer hpeer => h.allocated ((h.buckets _ peer).mp hpeer).1
  rw [wgPubkeyHashtableLookup, findPeer_eq hall, Option.bind_some]
  cases hfound : (wg.peerHashtable (pubkeyBucket pl key)).find? fun peer => wg.key peer = some key with
  | none =>
    refine .inl ⟨fun hmem => ?_, rfl⟩
    obtain ⟨peer, hpeer, hkey⟩ := (mem_keys_iff h).mp hmem
    have hbucket := (h.buckets (pubkeyBucket pl key) peer).mpr ⟨hpeer, by rw [hkey]; rfl⟩
    exact of_decide_eq_false (List.find?_eq_none.mp hfound peer hbucket |> Bool.eq_false_iff.mpr)
      hkey
  | some peer =>
    have hkey : wg.key peer = some key := by simpa using List.find?_some hfound
    have hmem := ((h.buckets _ peer).mp (List.mem_of_find?_eq_some hfound)).1
    obtain ⟨p, hp⟩ := h.allocated hmem
    obtain ⟨hcount, hpos⟩ := h.counted.refcount hp
    obtain ⟨wg', hget, hlist, hkeys, hafter⟩ := get_refines h hmem
    refine .inr ⟨peer, wg', (mem_keys_iff h).mpr ⟨peer, hmem, hkey⟩, ?_, ⟨h, hmem, hkey⟩,
      hafter, hlist ▸ hmem, hkeys ▸ hkey⟩
    dsimp only
    rw [hp, Option.bind_some, if_neg (by omega), hget, Option.map_some]

end Lookup

/-! ## Removal -/

section Removal

theorem Linked.nodup (h : Linked pl dead held wg) : wg.peerList.Nodup := List.Nodup.of_map _ h.keys

theorem count_filter_ne (l : List ℕ) (a b : ℕ) :
    (l.filter (· ≠ a)).count b = if b = a then 0 else l.count b := by
  split
  · next heq =>
    refine List.count_eq_zero_of_not_mem fun hmem => ?_
    simp [heq] at hmem
  · next hne => exact List.count_filter (by simpa using hne)

theorem length_filter_ne {a : ℕ} (hnodup : l.Nodup) (hmem : a ∈ l) :
    (l.filter (· ≠ a)).length + 1 = l.length := by
  have herase : l.filter (· ≠ a) = l.erase a := by
    rw [hnodup.erase_eq_filter]
    refine List.filter_congr fun b _ => ?_
    by_cases hb : b = a <;> simp [hb]
  rw [herase, List.length_erase_of_mem hmem]
  have hpos := List.length_pos_of_mem hmem
  omega

variable {table : Table ℕ} {m : Reference ℕ}

theorem removeByPeer_refines (h : Refines pl.endian table m) (peer : ℕ) :
    ∃ table', wgAllowedipsRemoveByPeer peer table = some table' ∧
      Refines pl.endian table' (m.apply (.removeByPeer peer)) := by
  obtain ⟨ret, table', hstep, rfl, hafter⟩ := step_refines h (.removeByPeer peer)
  obtain ⟨_, htable, heq⟩ := Option.map_eq_some_iff.mp hstep
  obtain ⟨-, rfl⟩ := Prod.mk.inj heq
  exact ⟨_, htable, hafter⟩

/-- The routes of a peer are the prefixes with its key. -/
theorem routes_removeByPeer (h : Linked pl dead held wg) (hmem : peer ∈ wg.peerList)
    (hkey : wg.key peer = some key) (howned : ∀ f q peer, m f q = some peer → peer ∈ wg.peerList)
    (hroutes : ∀ f q, c.routes f q = (m f q).bind wg.key) (f : Family) (q : PrefixTree.Bits) :
    (c.dropRoutes key).routes f q = (m.apply (.removeByPeer peer) f q).bind wg.key := by
  show (if c.routes f q = some key then none else c.routes f q) =
    (if m f q = some peer then none else m f q).bind wg.key
  rw [hroutes f q]
  cases hq : m f q with
  | none => rfl
  | some other =>
    by_cases heq : other = peer
    · subst heq
      simp [hkey]
    · have hother : wg.key other ≠ some key := fun hsame =>
        heq (h.key_inj (howned f q other hq) hmem (hsame.trans hkey.symm))
      simp [heq, hother]

theorem entries_filter (h : Represents pl dead held wg c) (hmem : peer ∈ wg.peerList)
    (hkey : wg.key peer = some key) :
    (wg.peerList.filter (· ≠ peer)).map wg.entry = (c.remove key).peers.map some := by
  have hremove : (c.remove key).peers.map some =
      (c.peers.map some).filter fun entry => entry.map Prod.fst ≠ some key := by
    rw [List.filter_map]
    refine congrArg (List.map some) (List.filter_congr fun entry _ => ?_)
    simp
  rw [hremove, ← h.entries, List.filter_map]
  refine congrArg (List.map wg.entry) (List.filter_congr fun other hother => ?_)
  have hfst : (wg.entry other).map Prod.fst = wg.key other := by
    simp only [Device.entry, Device.key, Option.map_map]
    rfl
  rw [Function.comp_apply, hfst, ← hkey]
  refine decide_eq_decide.mpr (not_congr ⟨fun heq => heq ▸ rfl, h.key_inj hother hmem⟩)

/-- `peer_make_dead` takes the peer out of everything that finds it. -/
theorem makeDead_refines (h : Represents pl dead held wg c) (hmem : peer ∈ wg.peerList)
    (hkey : wg.key peer = some key) :
    ∃ wg', peerMakeDead peer wg = some wg' ∧
      wg'.peerList = wg.peerList.filter (· ≠ peer) ∧ wg'.key = wg.key ∧
      Represents pl (dead ++ [peer]) held wg' (c.remove key) := by
  obtain ⟨p, hp⟩ := h.allocated hmem
  obtain ⟨m, hm, howned, hroutes⟩ := h.routes
  obtain ⟨table, htable, hafter⟩ := removeByPeer_refines hm peer
  have hcount : wg.peerList.count peer = 1 := List.count_eq_one_of_mem h.nodup hmem
  have hlength := length_filter_ne h.nodup hmem
  have hkeys : ∀ list table' hashtable, ({ wg with
      peers := Function.update wg.peers peer (some { p with isDead := true })
      peerList := list
      peerAllowedips := table'
      peerHashtable := hashtable } : Device).key = wg.key := by
    intro list table' hashtable
    exact key_update { wg with
      peerList := list, peerAllowedips := table', peerHashtable := hashtable } hp rfl
  refine ⟨{ wg with
    peers := Function.update wg.peers peer (some { p with isDead := true })
    peerList := wg.peerList.filter (· ≠ peer)
    peerAllowedips := table
    peerHashtable := fun bucket => (wg.peerHashtable bucket).filter (· ≠ peer) }, ?_, rfl,
    hkeys _ _ _, ⟨?_, ?_, ?_, ?_, ?_, ?_, h.limit⟩, h.basics, ?_, ?_⟩
  · rw [peerMakeDead, htable, Option.bind_some]
    exact modifyPeer_eq (wgPubkeyHashtableRemove peer { wg with
      peerList := wg.peerList.filter (· ≠ peer), peerAllowedips := table }) hp _
  · -- the reference of the list is now the one of the dead peer
    refine (h.counted.set (q := { p with isDead := true }) hp rfl).congr fun other => ?_
    simp only [List.count_append, count_filter_ne, List.count_singleton]
    by_cases heq : other = peer
    · subst heq
      simp only [if_true, beq_self_eq_true]
      omega
    · simp [heq, Ne.symm heq]
  · intro other hother r hr
    obtain ⟨hlisted, hne⟩ := List.mem_filter.mp hother
    dsimp only at hr
    rw [Function.update_of_ne (of_decide_eq_true hne)] at hr
    exact h.alive other hlisted r hr
  · rw [hkeys]
    exact h.keys.sublist (List.filter_sublist.map _)
  · intro other hother
    by_cases heq : other = peer
    · subst heq
      exact h.fresh other (by rw [hp]; exact Option.some_ne_none p)
    · dsimp only at hother
      rw [Function.update_of_ne heq] at hother
      exact h.fresh other hother
  · intro bucket other
    rw [hkeys]
    dsimp only
    rw [List.mem_filter, List.mem_filter, h.buckets, and_right_comm]
  · show wg.numPeers = (wg.peerList.filter (· ≠ peer)).length + (dead ++ [peer]).length
    rw [h.num, List.length_append, List.length_singleton]
    omega
  · rw [← entries_filter h hmem hkey]
    refine List.map_congr_left fun other hother => ?_
    simp only [Device.entry, Function.update_of_ne (of_decide_eq_true (List.mem_filter.mp hother).2)]
  · refine ⟨_, hafter, fun f q other hother => ?_, fun f q => ?_⟩
    · have hcases : (if m f q = some peer then none else m f q) = some other := hother
      split at hcases
      · cases hcases
      · next hne =>
        refine List.mem_filter.mpr ⟨howned f q other hcases, decide_eq_true fun heq => ?_⟩
        rw [hcases, heq] at hne
        exact hne rfl
    · rw [hkeys]
      exact routes_removeByPeer h.toLinked hmem hkey howned hroutes f q

/-- `peer_remove_after_dead` counts the peer out and puts the reference of the device. -/
theorem removeAfterDead_refines (h : Represents pl (peer :: dead) held wg c)
    (hnot : peer ∉ wg.peerList) :
    ∃ wg', peerRemoveAfterDead peer wg = some wg' ∧ wg'.peerList = wg.peerList ∧
      Represents pl dead held wg' c := by
  have hnum := h.num
  have hlimit := h.limit
  rw [List.length_cons] at hnum
  obtain ⟨p, hp⟩ := h.counted.mem_iff.mp
    (List.mem_append_left _ (List.mem_append_right _ List.mem_cons_self))
  obtain ⟨hcount, hcounted⟩ := h.counted.put (k := wg.peerList ++ dead ++ held) hp
    (by simp only [List.count_append, List.count_cons_self]; omega)
    (fun other hother => by simp [List.count_append, Ne.symm hother])
  refine ⟨{ wg with
    peers := Function.update wg.peers peer
      (if (wg.peerList ++ dead ++ held).count peer = 0 then none
      else some { p with refcount := (wg.peerList ++ dead ++ held).count peer })
    numPeers := wg.numPeers - 1 }, ?_, rfl, ?_⟩
  · rw [peerRemoveAfterDead, if_neg (by omega)]
    exact put_eq { wg with numPeers := wg.numPeers - 1 } hp hcount
  · exact unlisted_refines h hnot hp hcounted (by omega) (by omega)

theorem remove_refines (h : Represents pl [] held wg c) (hmem : peer ∈ wg.peerList)
    (hkey : wg.key peer = some key) :
    ∃ wg', wgPeerRemove peer wg = some wg' ∧ Represents pl [] held wg' (c.remove key) := by
  obtain ⟨wg₁, hmade, hlist, -, h₁⟩ := makeDead_refines h hmem hkey
  have hnot : peer ∉ wg₁.peerList := by
    rw [hlist]
    simp
  obtain ⟨wg₂, hremoved, -, h₂⟩ := removeAfterDead_refines h₁ hnot
  refine ⟨wg₂, ?_, h₂⟩
  rw [wgPeerRemove, hmade, Option.bind_some, hremoved]

/-- The first loop of `wg_peer_remove_all`. -/
theorem makeAllDead_refines (h : Represents pl dead held wg c) (hl : wg.peerList = l) :
    ∃ wg' c', l.foldlM (fun wg peer => peerMakeDead peer wg) wg = some wg' ∧ wg'.peerList = [] ∧
      Represents pl (dead ++ l) held wg' c' ∧ c'.toBasics = c.toBasics := by
  induction l generalizing dead wg c with
  | nil => exact ⟨wg, c, rfl, hl, by rwa [List.append_nil], rfl⟩
  | cons peer l ih =>
    have hmem : peer ∈ wg.peerList := by rw [hl]; exact List.mem_cons_self
    obtain ⟨p, hp⟩ := h.allocated hmem
    obtain ⟨wg₁, hmade, hlist, -, h₁⟩ := makeDead_refines h hmem (key_eq hp)
    have hl₁ : wg₁.peerList = l := by
      have hnodup := h.nodup
      rw [hl] at hnodup hlist
      have hnot : ∀ other ∈ l, other ≠ peer := fun other hother heq =>
        (List.nodup_cons.mp hnodup).1 (heq ▸ hother)
      rw [hlist, List.filter_cons_of_neg (by simp), List.filter_eq_self]
      exact fun other hother => decide_eq_true (hnot other hother)
    obtain ⟨wg₂, c₂, hrun, hnil, h₂, hbasics⟩ := ih h₁ hl₁
    refine ⟨wg₂, c₂, ?_, hnil, ?_, hbasics⟩
    · rw [List.foldlM_cons, hmade]
      exact hrun
    · rwa [List.append_assoc, List.singleton_append] at h₂

/-- And the second one. -/
theorem removeAllDead_refines (h : Represents pl l held wg c) (hnil : wg.peerList = []) :
    ∃ wg', l.foldlM (fun wg peer => peerRemoveAfterDead peer wg) wg = some wg' ∧
      wg'.peerList = [] ∧ Represents pl [] held wg' c := by
  induction l generalizing wg with
  | nil => exact ⟨wg, rfl, hnil, h⟩
  | cons peer l ih =>
    obtain ⟨wg₁, hremoved, hlist, h₁⟩ := removeAfterDead_refines h
      (by rw [hnil]; exact List.not_mem_nil)
    obtain ⟨wg₂, hrun, hnil₂, h₂⟩ := ih h₁ (hlist.trans hnil)
    refine ⟨wg₂, ?_, hnil₂, h₂⟩
    rw [List.foldlM_cons, hremoved]
    exact hrun

theorem free_refines (h : Refines pl.endian table m) :
    ∃ table', wgAllowedipsFree table = some table' ∧ Refines pl.endian table' fun _ _ => none := by
  obtain ⟨ret, table', hstep, rfl, hafter⟩ := step_refines h .free
  obtain ⟨_, htable, heq⟩ := Option.map_eq_some_iff.mp hstep
  obtain ⟨-, rfl⟩ := Prod.mk.inj heq
  exact ⟨_, htable, hafter⟩

/-- Another table of allowed IPs. -/
theorem Represents.setTable (h : Represents pl dead held wg c) (hm : Refines pl.endian table m)
    (howned : ∀ f q peer, m f q = some peer → peer ∈ wg.peerList) (routes : Reference Bytes)
    (hroutes : ∀ f q, routes f q = (m f q).bind wg.key) :
    Represents pl dead held { wg with peerAllowedips := table } { c with routes } :=
  { counted := h.counted
    alive := h.alive
    keys := h.keys
    fresh := h.fresh
    buckets := h.buckets
    num := h.num
    limit := h.limit
    basics := h.basics
    entries := h.entries
    routes := ⟨m, hm, howned, hroutes⟩ }

/-- A device without peers. -/
theorem eq_removeAll {b : Conf} (h : Represents pl dead held wg b) (hnil : wg.peerList = [])
    (hbasics : b.toBasics = c.toBasics) : b = c.removeAll := by
  have hpeers : b.peers = [] := by
    have hentries := h.entries
    rw [hnil] at hentries
    exact List.map_eq_nil_iff.mp hentries.symm
  have hroutes : b.routes = fun _ _ => none := by
    obtain ⟨m, -, howned, hroutes⟩ := h.routes
    funext f q
    rw [hroutes f q]
    cases hq : m f q with
    | none => rfl
    | some peer =>
      have hmem := howned f q peer hq
      rw [hnil] at hmem
      cases hmem
  obtain ⟨basics, peers, routes⟩ := b
  cases hpeers
  cases hroutes
  cases hbasics
  rfl

theorem removeAll_refines (h : Represents pl [] held wg c) :
    ∃ wg', wgPeerRemoveAll wg = some wg' ∧ Represents pl [] held wg' c.removeAll := by
  obtain ⟨m, hm, -, -⟩ := h.routes
  obtain ⟨table, hfree, hempty⟩ := free_refines hm
  have h₀ := h.setTable hempty (by simp) (fun _ _ => none) fun _ _ => rfl
  obtain ⟨wg₁, c₁, hmade, hnil₁, h₁, hbasics₁⟩ := makeAllDead_refines h₀ rfl
  obtain ⟨wg₂, hremoved, hnil₂, h₂⟩ := removeAllDead_refines h₁ hnil₁
  refine ⟨wg₂, ?_, ?_⟩
  · rw [wgPeerRemoveAll, hfree, Option.bind_some]
    dsimp only
    rw [hmade, Option.bind_some]
    exact hremoved
  · have heq : c₁ = c.removeAll := eq_removeAll h₂ hnil₂ hbasics₁
    rwa [← heq]

end Removal

/-! ## Creation -/

section Creation

theorem newPeer_derived (identity : Noise.NoiseStaticIdentity) (presharedKey : Option Bytes) :
    Derived pl identity (newPeer pl identity key presharedKey) := ⟨rfl, rfl⟩

/-- What `wg_peer_create` leaves, if there is room and memory. -/
def created (pl : Platform) (key : Bytes) (presharedKey : Option Bytes) (wg : Device) : Device :=
  { wg with
    peers := Function.update wg.peers (wg.peerCounter + 1)
      (some (newPeer pl wg.staticIdentity key presharedKey))
    peerCounter := wg.peerCounter + 1
    peerList := wg.peerList ++ [wg.peerCounter + 1]
    peerHashtable := Function.update wg.peerHashtable (pubkeyBucket pl key)
      ((wg.peerCounter + 1) :: wg.peerHashtable (pubkeyBucket pl key))
    numPeers := wg.numPeers + 1 }

variable {presharedKey : Option Bytes}

theorem create_eq (hroom : wg.numPeers < maxPeersPerDevice) :
    wgPeerCreate pl key presharedKey (true, true) wg =
      (some (wg.peerCounter + 1), created pl key presharedKey wg) := by
  rw [wgPeerCreate, if_neg (by omega), if_neg (by simp), if_neg (by simp)]
  rfl

theorem create_refused {granted : Bool × Bool}
    (h : maxPeersPerDevice ≤ wg.numPeers ∨ granted ≠ (true, true)) :
    wgPeerCreate pl key presharedKey granted wg = (none, wg) := by
  obtain ⟨first, second⟩ := granted
  rw [wgPeerCreate]
  split
  · rfl
  · next hroom =>
    rcases h with hfull | hmem
    · exact absurd hfull hroom
    · cases first <;> cases second <;> simp at hmem ⊢

theorem created_peers_of_ne (hne : peer ≠ wg.peerCounter + 1) :
    (created pl key presharedKey wg).peers peer = wg.peers peer := Function.update_of_ne hne _ _

theorem created_peers_self :
    (created pl key presharedKey wg).peers (wg.peerCounter + 1) =
      some (newPeer pl wg.staticIdentity key presharedKey) := Function.update_self ..

theorem created_key_of_ne (hne : peer ≠ wg.peerCounter + 1) :
    (created pl key presharedKey wg).key peer = wg.key peer := by
  rw [Device.key, created_peers_of_ne hne, Device.key]

theorem created_key_self :
    (created pl key presharedKey wg).key (wg.peerCounter + 1) = some key := by
  rw [Device.key, created_peers_self]
  rfl

theorem mem_created : peer ∈ (created pl key presharedKey wg).peerList ↔
    peer ∈ wg.peerList ∨ peer = wg.peerCounter + 1 := by
  show peer ∈ wg.peerList ++ [wg.peerCounter + 1] ↔ _
  rw [List.mem_append, List.mem_singleton]

/-- The next number is not in use. -/
theorem Linked.unused (h : Linked pl dead held wg) :
    wg.peerCounter + 1 ∉ wg.peerList ++ dead ++ held := by
  intro hmem
  obtain ⟨p, hp⟩ := h.counted.mem_iff.mp hmem
  have hle := h.fresh (wg.peerCounter + 1) (by rw [hp]; exact Option.some_ne_none p)
  omega

theorem Linked.ne_next (h : Linked pl dead held wg) (hmem : peer ∈ wg.peerList) :
    peer ≠ wg.peerCounter + 1 := fun heq =>
  h.unused (List.mem_append_left _ (List.mem_append_left _ (heq ▸ hmem)))

theorem created_linked (h : Represents pl [] held wg c) (hnew : key ∉ c.keys)
    (hroom : wg.numPeers < maxPeersPerDevice) :
    Linked pl [] held (created pl key presharedKey wg) where
  counted := by
    have hzero := List.count_eq_zero_of_not_mem h.unused
    refine h.counted.update ?_ fun other hother => ?_
    · have hone : (wg.peerList ++ [wg.peerCounter + 1] ++ [] ++ held).count
          (wg.peerCounter + 1) = 1 := by
        simp only [List.count_append, List.count_singleton, beq_self_eq_true, if_true] at hzero ⊢
        omega
      rw [show (created pl key presharedKey wg).peerList ++ [] ++ held =
        wg.peerList ++ [wg.peerCounter + 1] ++ [] ++ held from rfl, hone]
      rfl
    · simp [created, List.count_append, Ne.symm hother]
  alive := by
    intro other hother p hp
    rcases mem_created.mp hother with hlisted | rfl
    · rw [created_peers_of_ne (h.ne_next hlisted)] at hp
      exact h.alive other hlisted p hp
    · rw [created_peers_self] at hp
      cases hp
      exact ⟨rfl, newPeer_derived wg.staticIdentity presharedKey⟩
  keys := by
    show ((wg.peerList ++ [wg.peerCounter + 1]).map _).Nodup
    rw [List.map_append, List.map_singleton, created_key_self,
      List.map_congr_left fun other hother => created_key_of_ne (h.ne_next hother)]
    refine List.nodup_append.mpr ⟨h.keys, List.nodup_singleton _, ?_⟩
    rintro a ha b hb rfl
    obtain ⟨other, hother, hkey⟩ := List.mem_map.mp ha
    rw [List.mem_singleton.mp hb] at hkey
    exact hnew ((mem_keys_iff h).mpr ⟨other, hother, hkey⟩)
  fresh := by
    intro other hother
    by_cases heq : other = wg.peerCounter + 1
    · exact heq.le
    · rw [created_peers_of_ne heq] at hother
      exact (h.fresh other hother).trans (Nat.le_succ _)
  buckets := by
    intro bucket other
    rw [mem_created]
    show other ∈ Function.update wg.peerHashtable (pubkeyBucket pl key)
      ((wg.peerCounter + 1) :: wg.peerHashtable (pubkeyBucket pl key)) bucket ↔ _
    have hin : other ∈ Function.update wg.peerHashtable (pubkeyBucket pl key)
        ((wg.peerCounter + 1) :: wg.peerHashtable (pubkeyBucket pl key)) bucket ↔
        other ∈ wg.peerHashtable bucket ∨
          (other = wg.peerCounter + 1 ∧ pubkeyBucket pl key = bucket) := by
      by_cases heq : bucket = pubkeyBucket pl key
      · subst heq
        rw [Function.update_self, List.mem_cons]
        tauto
      · rw [Function.update_of_ne heq]
        have hne : pubkeyBucket pl key ≠ bucket := Ne.symm heq
        tauto
    rw [hin, h.buckets]
    by_cases heq : other = wg.peerCounter + 1
    · subst heq
      have hnot : wg.peerCounter + 1 ∉ wg.peerList := fun hmem => h.ne_next hmem rfl
      rw [created_key_self, Option.map_some, Option.some.injEq]
      tauto
    · rw [created_key_of_ne heq]
      tauto
  num := by
    have hnum := h.num
    show wg.numPeers + 1 = (wg.peerList ++ [wg.peerCounter + 1]).length + 0
    rw [List.length_append, List.length_singleton, hnum, List.length_nil]
  limit := hroom

/-- `wg_peer_create`, if there is room and memory. -/
theorem create_refines (h : Represents pl [] held wg c) (hnew : key ∉ c.keys)
    (hroom : wg.numPeers < maxPeersPerDevice) :
    Represents pl [] held (created pl key presharedKey wg) (c.create key presharedKey) := by
  refine { created_linked h hnew hroom with basics := h.basics, entries := ?_, routes := ?_ }
  · show (wg.peerList ++ [wg.peerCounter + 1]).map _ =
      (c.peers ++ [(key, Conf.newSettings presharedKey)]).map some
    rw [List.map_append, List.map_append, ← h.entries]
    refine congrArg₂ _ (List.map_congr_left fun other hother => ?_) ?_
    · rw [Device.entry, created_peers_of_ne (h.ne_next hother), Device.entry]
    · rw [List.map_singleton, Device.entry, created_peers_self]
      rfl
  · obtain ⟨m, hm, howned, hroutes⟩ := h.routes
    refine ⟨m, hm, fun f q other hother => ?_, fun f q => (hroutes f q).trans ?_⟩
    · exact mem_created.mpr (.inl (howned f q other hother))
    · cases hq : m f q with
      | none => rfl
      | some other => exact (created_key_of_ne (h.ne_next (howned f q other hq))).symm

end Creation

end AmneziaWg.Config
