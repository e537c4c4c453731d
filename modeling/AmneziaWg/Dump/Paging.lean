import AmneziaWg.Dump.Bogus
import AmneziaWg.Dump.Config
import AmneziaWg.Lib.Nlattr
import AmneziaWg.Lib.Paging
import AmneziaWg.Noise.Handshake

/-!
# The paginated dump

`wg_get_device_dump` is called until it has listed all peers. Between the calls it
keeps the last peer that is listed completely and, if the next one was cut, the allowed
IP to continue with. While no peer is complete, every message repeats the attributes of
the device. A peer that does not fit is taken back; its error means a full message.

* **Model**: `getAllowedips`, `getPeer`, `wgGetDeviceDump`, with the room that every
  attribute takes. The device is not modified while it is dumped, so a cursor is a
  position in a list.
* **Abstraction**: `left`, what a cursor leaves to be listed; `Room`, what a message needs
  to list more of a peer; `getPeer_spec`.
* **Result**: `dump_complete`. A dump with peers is complete exactly if the prefixes for
  made-up addresses can be parsed, and every message up to the end of the first peer has
  room for more of it behind the attributes of the device.
-/

namespace AmneziaWg.Dump

open Linux Nlattr Paging Noise

/-! ## Model layer -/

/-- What the machine decides: whether a 64-bit attribute is aligned, and open shifts. -/
structure Arch where
  efficientUnaligned : Bool
  shift : Shift

/-- `family` of an allowed IP. -/
inductive Family where
  | inet
  | inet6
deriving DecidableEq

/-- An allowed IP as `wg_allowedips_read_node` gives it. -/
structure AllowedIp where
  family : Family
  ip : Bytes
  cidr : U8
deriving DecidableEq

/-- The endpoint of a peer: `sockaddr_in`, `sockaddr_in6` or neither. -/
inductive Endpoint where
  | inet (port : U16) (addr : U32)
  | inet6 (port : U16) (flowinfo : U32) (addr : Bytes) (scopeId : U32)
  | unspec

/-- `struct __kernel_timespec`. -/
structure Timespec where
  sec : ℤ
  nsec : ℤ

/-- What the dump reads of a peer. -/
structure WgPeer where
  advancedSecurity : Bool
  remoteStatic : Bytes
  presharedKey : Bytes
  walltimeLastHandshake : Timespec
  persistentKeepaliveInterval : U16
  txBytes : U64
  rxBytes : U64
  endpoint : Endpoint
  allowedips : List AllowedIp
  isDead : Bool

/-- What the dump reads of a device. A dead peer is not on the list. -/
structure Device where
  incomingPort : U16
  fwmark : U32
  ifindex : U32
  name : Bytes
  config : WgDevice
  staticIdentity : NoiseStaticIdentity
  peerList : List WgPeer
  allowedipsSeq : U64
  alive : ∀ peer ∈ peerList, peer.isDead = false

/-! ### Attributes -/

inductive DevAttr where
  | listenPort (v : U16)
  | fwmark (v : U32)
  | ifindex (v : U32)
  | ifname (s : Bytes)
  | config (a : Attr)
  | privateKey (k : Bytes)
  | publicKey (k : Bytes)

inductive PeerAttr where
  | flags (v : U32)
  | advancedSecurity
  | publicKey (k : Bytes)
  | presharedKey (k : Bytes)
  | lastHandshakeTime (t : Timespec)
  | persistentKeepaliveInterval (v : U16)
  | txBytes (v : U64)
  | rxBytes (v : U64)
  | protocolVersion (v : U32)
  | endpoint (e : Endpoint)

inductive IpAttr where
  | cidrMask (v : U8)
  | family (f : Family)
  | ipaddr (f : Family) (ip : Bytes)

/-- The payload of an obfuscation attribute; a string has its terminator. -/
def configPayload : Attr → ℕ
  | .jc _ | .jmin _ | .jmax _ | .junkSize _ _ => 2
  | .header _ s | .ispec _ s | .imitateProtocol s => s.length + 1

def DevAttr.size (_ : ℕ) : DevAttr → ℕ
  | .listenPort _ => nlaTotalSize 2
  | .fwmark _ | .ifindex _ => nlaTotalSize 4
  | .ifname s => nlaTotalSize (s.length + 1)
  | .config a => nlaTotalSize (configPayload a)
  | .privateKey _ | .publicKey _ => nlaTotalSize 32

/-- `sizeof` of the socket address. -/
def Endpoint.payload : Endpoint → ℕ
  | .inet .. => 16
  | .inet6 .. => 28
  | .unspec => 0

/-- `nla_put_u64_64bit`: a padding attribute in front of it aligns the value. -/
def u64Size (arch : Arch) (pos : ℕ) : ℕ :=
  if ¬ arch.efficientUnaligned ∧ pos % 8 = 0 then nlaTotalSize 0 + nlaTotalSize 8
  else nlaTotalSize 8

def PeerAttr.size (arch : Arch) (pos : ℕ) : PeerAttr → ℕ
  | .flags _ | .protocolVersion _ => nlaTotalSize 4
  | .advancedSecurity => nlaTotalSize 0
  | .publicKey _ | .presharedKey _ => nlaTotalSize 32
  | .lastHandshakeTime _ => nlaTotalSize 16
  | .persistentKeepaliveInterval _ => nlaTotalSize 2
  | .txBytes _ | .rxBytes _ => u64Size arch pos
  | .endpoint e => nlaTotalSize e.payload

def IpAttr.size (_ : ℕ) : IpAttr → ℕ
  | .cidrMask _ => nlaTotalSize 1
  | .family _ => nlaTotalSize 2
  | .ipaddr .inet _ => nlaTotalSize 4
  | .ipaddr .inet6 _ => nlaTotalSize 16

/-- The content of one element of the peer list of a message. -/
structure PeerNest where
  attrs : List PeerAttr
  allowedips : Option (List AllowedIp)

/-- A message: the attributes of the device, and its peer list if it has one. -/
structure Message where
  attrs : List DevAttr
  peers : Option (List PeerNest)

/-! ### One peer -/

def ipAttrs (a : AllowedIp) : List IpAttr :=
  [.cidrMask a.cidr, .family a.family, .ipaddr a.family a.ip]

/-- `get_allowedips`: the position after the allowed IP, unless it does not fit. -/
def getAllowedips (capacity : ℕ) (a : AllowedIp) (pos : ℕ) : Option ℕ :=
  match nlaNestStart capacity pos with
  | none => none
  | some inner => nlaPutAll IpAttr.size capacity (ipAttrs a) inner

/-- The allowed IPs that fit, one after the other, and the position after them. -/
def putAllowedips (capacity : ℕ) : List AllowedIp → ℕ → List AllowedIp × ℕ
  | [], pos => ([], pos)
  | a :: rest, pos =>
    match getAllowedips capacity a pos with
    | none => ([], pos)
    | some pos =>
      let (written, pos) := putAllowedips capacity rest pos
      (a :: written, pos)

/-- `struct dump_ctx`: the last complete peer and the next allowed IP, by position. -/
structure DumpCtx where
  nextPeer : Option ℕ
  allowedipsSeq : U64
  nextAllowedip : Option ℕ
deriving DecidableEq

/-- What `wg_get_device_start` leaves. -/
def DumpCtx.start : DumpCtx := ⟨none, 0, none⟩

/-- The endpoint that is shown. -/
def shownEndpoint (arch : Arch) (draw : Draw) (prefixes : Option (Prefix U32 × Prefix Bytes)) :
    Endpoint → Endpoint
  | .inet port addr =>
    match prefixes with
    | none => .inet port addr
    | some (p, _) => .inet port (generateIpv4AddressWithPrefix arch.shift draw p)
  | .inet6 port flowinfo addr scopeId =>
    match prefixes with
    | none => .inet6 port flowinfo addr scopeId
    | some (_, p) => .inet6 port flowinfo (generateIpv6AddressWithPrefix draw p) scopeId
  | .unspec => .unspec

/-- `WGPEER_F_HAS_ADVANCED_SECURITY`. -/
def hasAdvancedSecurity : U32 := 1 <<< 3

/-- The attributes that every element has. -/
def headAttrs (peer : WgPeer) : List PeerAttr :=
  .flags hasAdvancedSecurity ::
    ((if peer.advancedSecurity then [.advancedSecurity] else []) ++ [.publicKey peer.remoteStatic])

/-- The attributes that only the first element of a peer has. -/
def bodyAttrs (arch : Arch) (draw : Draw) (prefixes : Option (Prefix U32 × Prefix Bytes))
    (peer : WgPeer) : List PeerAttr :=
  [.presharedKey peer.presharedKey, .lastHandshakeTime peer.walltimeLastHandshake,
    .persistentKeepaliveInterval peer.persistentKeepaliveInterval, .txBytes peer.txBytes,
    .rxBytes peer.rxBytes, .protocolVersion 1] ++
  match peer.endpoint with
  | .unspec => []
  | e => [.endpoint (shownEndpoint arch draw prefixes e)]

/-- The fixed attributes: all of them, unless the peer is continued. -/
def fixedAttrs (arch : Arch) (draw : Draw) (prefixes : Option (Prefix U32 × Prefix Bytes))
    (peer : WgPeer) (continued : Bool) : List PeerAttr :=
  headAttrs peer ++ if continued then [] else bodyAttrs arch draw prefixes peer

/-- What `get_peer` returns and leaves. -/
structure PeerReply where
  /-- The element that stays in the message. -/
  nest : Option PeerNest
  pos : ℕ
  ctx : DumpCtx
  err : Option Errno

/-- The setting of a dump that no call changes. -/
structure Setting where
  arch : Arch
  pton : Pton
  bogus : BogusEndpoints
  wg : Device

/-- `allowedips_node`: the allowed IP to continue with, or the first one. -/
def allowedipsNode (peer : WgPeer) : Option ℕ → Option ℕ
  | some j => some j
  | none => if peer.allowedips = [] then none else some 0

/-- The loop over the allowed IPs from the `j`-th on, and what follows it. -/
def listAllowedips (capacity : ℕ) (peer : WgPeer) (attrs : List PeerAttr) (ctx : DumpCtx)
    (j pos : ℕ) : PeerReply :=
  let todo := peer.allowedips.drop j
  let (written, pos) := putAllowedips capacity todo pos
  if written.length < todo.length then
    ⟨some ⟨attrs, some written⟩, pos, { ctx with nextAllowedip := some (j + written.length) },
      some .EMSGSIZE⟩
  else
    ⟨some ⟨attrs, some written⟩, pos, { ctx with nextAllowedip := none, allowedipsSeq := 0 }, none⟩

/-- `get_peer`. -/
def getPeer (d : Setting) (capacity : ℕ) (draw : Draw) (peer : WgPeer) (ctx : DumpCtx) (pos : ℕ) :
    PeerReply :=
  match nlaNestStart capacity pos with
  | none => ⟨none, pos, ctx, some .EMSGSIZE⟩
  | some inner =>
    match d.bogus.parse d.pton with
    -- the nest is neither ended nor cancelled, and reads as an empty one
    | .error e => ⟨some ⟨[], none⟩, inner, ctx, some e⟩
    | .ok prefixes =>
      let attrs := fixedAttrs d.arch draw prefixes peer ctx.nextAllowedip.isSome
      match nlaPutAll (PeerAttr.size d.arch) capacity attrs inner with
      | none => ⟨none, pos, ctx, some .EMSGSIZE⟩
      | some pos₁ =>
        let noAllowedips : PeerReply :=
          ⟨some ⟨attrs, none⟩, pos₁, { ctx with nextAllowedip := none, allowedipsSeq := 0 },
            none⟩
        match allowedipsNode peer ctx.nextAllowedip with
        | none => noAllowedips
        | some j =>
          if ctx.allowedipsSeq ≠ 0 ∧ ctx.allowedipsSeq ≠ d.wg.allowedipsSeq then noAllowedips
          else
            let ctx := { ctx with allowedipsSeq := d.wg.allowedipsSeq }
            match nlaNestStart capacity pos₁ with
            | none => ⟨none, pos, ctx, some .EMSGSIZE⟩
            | some pos₂ => listAllowedips capacity peer attrs ctx j pos₂

/-! ### One message -/

/-- One call: the room of the message, and the random bytes for every peer. -/
structure CallEnv where
  capacity : ℕ
  draws : ℕ → Draw

/-- What the loop over the peers leaves. -/
structure PeersReply where
  nests : List PeerNest
  ctx : DumpCtx
  /-- `next_peer_cursor`. -/
  cursor : Option ℕ
  done : Bool

/-- The loop over the peers, from the `i`-th on. -/
def getPeers (d : Setting) (env : CallEnv) :
    List WgPeer → ℕ → DumpCtx → Option ℕ → ℕ → PeersReply
  | [], _, ctx, cursor, _ => ⟨[], ctx, cursor, true⟩
  | peer :: rest, i, ctx, cursor, pos =>
    let r := getPeer d env.capacity (env.draws i) peer ctx pos
    match r.err with
    | some _ => ⟨r.nest.toList, r.ctx, cursor, false⟩
    | none =>
      let next := getPeers d env rest (i + 1) r.ctx (some i) r.pos
      { next with nests := r.nest.toList ++ next.nests }

/-- The attributes of the device. -/
def deviceAttrs (wg : Device) : List DevAttr :=
  [.listenPort wg.incomingPort, .fwmark wg.fwmark, .ifindex wg.ifindex, .ifname wg.name] ++
    (dumpAttrs wg.config).map .config ++
    if wg.staticIdentity.hasIdentity then
      [.privateKey wg.staticIdentity.staticPrivate, .publicKey wg.staticIdentity.staticPublic]
    else []

/-- `genlmsg_put` takes this much. -/
def genlmsgHdr : ℕ := 20

/-- The position after a peer, or that of the first one. -/
def firstAfter : Option ℕ → ℕ
  | none => 0
  | some i => i + 1

/-- The first peer of a message, by position. -/
def DumpCtx.first (ctx : DumpCtx) : ℕ := firstAfter ctx.nextPeer

/-- `ctx->next_peer && ctx->next_peer->is_dead`. -/
def nextPeerDead (wg : Device) (ctx : DumpCtx) : Prop :=
  ∃ i, ctx.nextPeer = some i ∧ ∃ peer, wg.peerList[i]? = some peer ∧ peer.isDead = true

instance (wg : Device) (ctx : DumpCtx) : Decidable (nextPeerDead wg ctx) :=
  decidable_of_iff (((ctx.nextPeer.bind fun i => wg.peerList[i]?).map (·.isDead)) = some true) (by
    simp only [nextPeerDead, Option.map_eq_some_iff, Option.bind_eq_some_iff]
    constructor
    · rintro ⟨peer, ⟨i, hi, hpeer⟩, hdead⟩
      exact ⟨i, hi, peer, hpeer, hdead⟩
    · rintro ⟨i, hi, peer, hpeer, hdead⟩
      exact ⟨peer, ⟨i, hi, hpeer⟩, hdead⟩)

/-- The attributes of the device, if no peer is complete yet. -/
def messageAttrs (wg : Device) (ctx : DumpCtx) : List DevAttr :=
  if ctx.nextPeer = none then deviceAttrs wg else []

/-- `wg_get_device_dump`. -/
def wgGetDeviceDump (d : Setting) (env : CallEnv) (ctx : DumpCtx) :
    Reply Message DumpCtx Errno :=
  if env.capacity < genlmsgHdr then .failed .EMSGSIZE
  else
    let attrs := messageAttrs d.wg ctx
    match nlaPutAll DevAttr.size env.capacity attrs genlmsgHdr with
    | none => .failed .EMSGSIZE
    | some pos =>
      match nlaNestStart env.capacity pos with
      | none => .failed .EMSGSIZE
      | some inner =>
        if d.wg.peerList = [] ∨ nextPeerDead d.wg ctx then .last ⟨attrs, none⟩
        else
          let r := getPeers d env (d.wg.peerList.drop ctx.first) ctx.first ctx ctx.nextPeer inner
          if r.done then .last ⟨attrs, some r.nests⟩
          else .more ⟨attrs, some r.nests⟩ { r.ctx with nextPeer := r.cursor }

/-! ## Abstraction -/

/-- What a reader learns from a dump: a peer, or an allowed IP of a peer. -/
inductive Item where
  | peer (key : Bytes)
  | ip (key : Bytes) (a : AllowedIp)

/-- Everything that is to be listed of a peer. -/
def WgPeer.items (peer : WgPeer) : List Item :=
  .peer peer.remoteStatic :: peer.allowedips.map (.ip peer.remoteStatic)

def PeerNest.key (nest : PeerNest) : Option Bytes :=
  nest.attrs.findSome? fun
    | .publicKey k => some k
    | _ => none

/-- The element starts a peer; one without preshared key continues it. -/
def PeerNest.opens (nest : PeerNest) : Bool :=
  nest.attrs.any fun
    | .presharedKey _ => true
    | _ => false

def PeerNest.items (nest : PeerNest) : List Item :=
  match nest.key with
  | none => []
  | some key =>
    (if nest.opens then [.peer key] else []) ++ (nest.allowedips.getD []).map (.ip key)

def Message.items (m : Message) : List Item := (m.peers.getD []).flatMap PeerNest.items

/-- What is left of a peer. -/
def remaining (peer : WgPeer) : Option ℕ → List Item
  | none => peer.items
  | some j => (peer.allowedips.drop j).map (.ip peer.remoteStatic)

/-- What is left of a list of peers, the first of which may have been cut. -/
def leftOf (next : Option ℕ) : List WgPeer → List Item
  | [] => []
  | peer :: rest => remaining peer next ++ rest.flatMap WgPeer.items

/-- What a cursor leaves to be listed. -/
def left (wg : Device) (ctx : DumpCtx) : List Item :=
  leftOf ctx.nextAllowedip (wg.peerList.drop ctx.first)

theorem items_fixed (arch : Arch) (draw : Draw) (prefixes : Option (Prefix U32 × Prefix Bytes))
    (peer : WgPeer) (continued : Bool) (ips : Option (List AllowedIp)) :
    (PeerNest.mk (fixedAttrs arch draw prefixes peer continued) ips).items =
      (if continued then [] else [.peer peer.remoteStatic]) ++
        (ips.getD []).map (.ip peer.remoteStatic) := by
  have hkey : (PeerNest.mk (fixedAttrs arch draw prefixes peer continued) ips).key =
      some peer.remoteStatic := by
    cases hadv : peer.advancedSecurity <;> simp [PeerNest.key, fixedAttrs, headAttrs, hadv]
  have hopens : (PeerNest.mk (fixedAttrs arch draw prefixes peer continued) ips).opens =
      !continued := by
    cases hadv : peer.advancedSecurity <;> cases continued <;>
      simp [PeerNest.opens, fixedAttrs, headAttrs, bodyAttrs, hadv]
  rw [PeerNest.items, hkey, hopens]
  cases continued <;> rfl

/-! ## Room -/

theorem nlaNestStart_eq (capacity pos : ℕ) :
    nlaNestStart capacity pos = if pos + 4 ≤ capacity then some (pos + 4) else none := rfl

/-- What an allowed IP takes. -/
def ipSize (a : AllowedIp) : ℕ :=
  match a.family with
  | .inet => 28
  | .inet6 => 40

theorem getAllowedips_eq (capacity : ℕ) (a : AllowedIp) (pos : ℕ) :
    getAllowedips capacity a pos =
      if pos + ipSize a ≤ capacity then some (pos + ipSize a) else none := by
  have hextent : extent IpAttr.size (ipAttrs a) (pos + 4) = pos + ipSize a := by
    rcases a with ⟨family, ip, cidr⟩
    cases family <;> rfl
  have hsize : 4 ≤ ipSize a := by
    unfold ipSize
    split <;> decide
  rw [getAllowedips, nlaNestStart_eq]
  by_cases hnest : pos + 4 ≤ capacity
  · rw [if_pos hnest]
    dsimp only
    rw [nlaPutAll_eq _ hnest, hextent]
  · rw [if_neg hnest, if_neg]
    omega

/-- Where the fixed attributes of a peer end if all of them are put. -/
def fixedEnd (arch : Arch) (peer : WgPeer) (pos : ℕ) : ℕ :=
  extent (PeerAttr.size arch) (fixedAttrs arch default none peer false) (pos + 4)

/-- Where the attributes of a continued peer end. -/
def headEnd (arch : Arch) (peer : WgPeer) (pos : ℕ) : ℕ :=
  extent (PeerAttr.size arch) (headAttrs peer) (pos + 4)

/-- Where the attributes of a peer end, continued or not. -/
def attrsEnd (arch : Arch) (peer : WgPeer) (next : Option ℕ) (pos : ℕ) : ℕ :=
  match next with
  | none => fixedEnd arch peer pos
  | some _ => headEnd arch peer pos

/-- A made-up address takes as much room as the real one. -/
theorem extent_fixedAttrs (arch : Arch) (draw : Draw)
    (prefixes : Option (Prefix U32 × Prefix Bytes)) (peer : WgPeer) (next : Option ℕ) (pos : ℕ) :
    extent (PeerAttr.size arch) (fixedAttrs arch draw prefixes peer next.isSome) (pos + 4) =
      attrsEnd arch peer next pos := by
  cases next with
  | some j => rw [fixedAttrs, attrsEnd, headEnd, Option.isSome_some, if_pos rfl, List.append_nil]
  | none =>
    unfold attrsEnd fixedEnd fixedAttrs bodyAttrs
    rw [Option.isSome_none, if_neg Bool.false_ne_true, if_neg Bool.false_ne_true]
    simp only [extent_append]
    cases hend : peer.endpoint with
    | unspec => rfl
    | inet port addr => cases prefixes <;> rfl
    | inet6 port flowinfo addr scopeId => cases prefixes <;> rfl

/-- A continued peer takes less. -/
theorem headEnd_le_fixedEnd (arch : Arch) (peer : WgPeer) (pos : ℕ) :
    headEnd arch peer pos ≤ fixedEnd arch peer pos := by
  rw [headEnd, fixedEnd, fixedAttrs, extent_append]
  exact le_extent _ _

theorem le_attrsEnd (arch : Arch) (peer : WgPeer) (next : Option ℕ) (pos : ℕ) :
    pos + 4 ≤ attrsEnd arch peer next pos := by
  cases next with
  | none => exact le_extent _ _
  | some j => exact le_extent _ _

/-- A message that is filled from this position on has room for more of a peer: for its fixed
attributes and the header of its list, or for one more allowed IP. -/
def Room (arch : Arch) (capacity pos : ℕ) (peer : WgPeer) : Option ℕ → Prop
  | none => fixedEnd arch peer pos + (if peer.allowedips = [] then 0 else 4) ≤ capacity
  | some j => ∀ a, peer.allowedips[j]? = some a → headEnd arch peer pos + 4 + ipSize a ≤ capacity

/-- How many allowed IPs, from the first one on, fit into so many bytes. -/
def fitting : ℕ → List AllowedIp → ℕ
  | _, [] => 0
  | bytes, a :: rest => if ipSize a ≤ bytes then fitting (bytes - ipSize a) rest + 1 else 0

/-- How many allowed IPs of a peer are listed after such a message. -/
def listed (arch : Arch) (capacity pos : ℕ) (peer : WgPeer) (next : Option ℕ) : ℕ :=
  next.getD 0 +
    fitting (capacity - (attrsEnd arch peer next pos + 4)) (peer.allowedips.drop (next.getD 0))

/-- The fixed attributes of a peer and one allowed IP of it fit from this position on. -/
structure Fits (arch : Arch) (capacity pos : ℕ) (peer : WgPeer) : Prop where
  fixed : fixedEnd arch peer pos ≤ capacity
  one : ∀ a ∈ peer.allowedips, fixedEnd arch peer pos + 4 + ipSize a ≤ capacity

variable {capacity pos : ℕ} {peer : WgPeer}

/-- Then there is room for more of the peer, wherever it was cut. -/
theorem Fits.room {arch : Arch} (h : Fits arch capacity pos peer) (next : Option ℕ) :
    Room arch capacity pos peer next := by
  cases next with
  | none =>
    unfold Room
    by_cases hips : peer.allowedips = []
    · rw [if_pos hips]
      exact h.fixed
    · rcases List.exists_mem_of_ne_nil _ hips with ⟨a, ha⟩
      have hone := h.one a ha
      rw [if_neg hips]
      omega
  | some j =>
    intro a ha
    have hone := h.one a (List.mem_of_getElem? ha)
    have hle := headEnd_le_fixedEnd arch peer pos
    omega

/-- The attributes of a peer fit if there is room for more of it. -/
theorem Room.attrs {arch : Arch} {next : Option ℕ} (h : Room arch capacity pos peer next)
    (hnext : ∀ j, next = some j → j < peer.allowedips.length) :
    attrsEnd arch peer next pos + (if peer.allowedips = [] then 0 else 4) ≤ capacity := by
  cases next with
  | none => exact h
  | some j =>
    have hj := hnext j rfl
    have hroom := h _ (List.getElem?_eq_getElem hj)
    have hne : peer.allowedips ≠ [] := List.ne_nil_of_length_pos (Nat.zero_lt_of_lt hj)
    rw [if_neg hne]
    show headEnd arch peer pos + 4 ≤ capacity
    omega

/-! ## One peer -/

/-- The allowed IPs that are written are the first ones, as many as fit. -/
theorem putAllowedips_eq (hpos : pos ≤ capacity) (todo : List AllowedIp) :
    (putAllowedips capacity todo pos).1 = todo.take (fitting (capacity - pos) todo) := by
  induction todo generalizing pos with
  | nil => rfl
  | cons a rest ih =>
    rw [putAllowedips, getAllowedips_eq, fitting]
    by_cases hfits : pos + ipSize a ≤ capacity
    · rw [if_pos hfits, if_pos (by omega), List.take_succ_cons, Nat.sub_sub]
      exact congrArg (a :: ·) (ih hfits)
    · rw [if_neg hfits, if_neg (by omega)]
      rfl

theorem fitting_le (bytes : ℕ) (todo : List AllowedIp) : fitting bytes todo ≤ todo.length := by
  induction todo generalizing bytes with
  | nil => exact le_rfl
  | cons a rest ih =>
    rw [fitting]
    split
    · exact Nat.succ_le_succ (ih _)
    · exact Nat.zero_le _

/-- The cursor belongs to a peer: it has the allowed IP to continue with, and the table has
not changed. -/
structure CtxFor (wg : Device) (ctx : DumpCtx) (peer : WgPeer) : Prop where
  seq : ctx.allowedipsSeq = 0 ∨ ctx.allowedipsSeq = wg.allowedipsSeq
  next : ∀ j, ctx.nextAllowedip = some j → j < peer.allowedips.length

/-- What `get_peer` can do: list what is left of the peer; list some of it, and if there is
room at least something; or take the peer back, if there is none. -/
inductive PeerOutcome (d : Setting) (capacity : ℕ) (peer : WgPeer) (ctx : DumpCtx) (pos : ℕ) :
    PeerReply → Prop
  | complete {nest : PeerNest} {pos' : ℕ} : nest.items = remaining peer ctx.nextAllowedip →
      Room d.arch capacity pos peer ctx.nextAllowedip →
      listed d.arch capacity pos peer ctx.nextAllowedip = peer.allowedips.length →
      PeerOutcome d capacity peer ctx pos
        ⟨some nest, pos', { ctx with nextAllowedip := none, allowedipsSeq := 0 }, none⟩
  | cut {nest : PeerNest} {pos' : ℕ} :
      listed d.arch capacity pos peer ctx.nextAllowedip < peer.allowedips.length →
      nest.items ++ remaining peer (some (listed d.arch capacity pos peer ctx.nextAllowedip)) =
        remaining peer ctx.nextAllowedip →
      (nest.items ≠ [] ↔ Room d.arch capacity pos peer ctx.nextAllowedip) →
      PeerOutcome d capacity peer ctx pos
        ⟨some nest, pos', ⟨ctx.nextPeer, d.wg.allowedipsSeq,
          some (listed d.arch capacity pos peer ctx.nextAllowedip)⟩, some .EMSGSIZE⟩
  | refused {seq : U64} : seq = ctx.allowedipsSeq ∨ seq = d.wg.allowedipsSeq →
      ¬ Room d.arch capacity pos peer ctx.nextAllowedip →
      PeerOutcome d capacity peer ctx pos
        ⟨none, pos, { ctx with allowedipsSeq := seq }, some .EMSGSIZE⟩

/-- The list of allowed IPs, from the one on that the cursor names. -/
theorem remaining_eq (peer : WgPeer) (next : Option ℕ) :
    remaining peer next = (if next.isSome then [] else [.peer peer.remoteStatic]) ++
      (peer.allowedips.drop (next.getD 0)).map (.ip peer.remoteStatic) := by
  cases next <;> rfl

variable {wg : Device} {ctx : DumpCtx}

/-- A peer without allowed IPs cannot have been cut; another one has the allowed IP that
the list goes on with. -/
theorem CtxFor.node (h : CtxFor wg ctx peer) :
    (allowedipsNode peer ctx.nextAllowedip = none ∧ peer.allowedips = [] ∧
      ctx.nextAllowedip = none) ∨
    (allowedipsNode peer ctx.nextAllowedip = some (ctx.nextAllowedip.getD 0) ∧
      ctx.nextAllowedip.getD 0 < peer.allowedips.length) := by
  cases hnext : ctx.nextAllowedip with
  | some j => exact .inr ⟨rfl, h.next j hnext⟩
  | none =>
    by_cases hips : peer.allowedips = []
    · exact .inl ⟨if_pos hips, hips, rfl⟩
    · exact .inr ⟨if_neg hips, List.length_pos_of_ne_nil hips⟩

/-- With the attributes in the message, there is room for more if the peer is new, or if the
next allowed IP fits. -/
theorem room_iff {arch : Arch} {next : Option ℕ} (hj : next.getD 0 < peer.allowedips.length)
    (hpos : attrsEnd arch peer next pos + 4 ≤ capacity) :
    Room arch capacity pos peer next ↔
      next = none ∨ next.getD 0 < listed arch capacity pos peer next := by
  have hne : peer.allowedips ≠ [] := List.ne_nil_of_length_pos (Nat.zero_lt_of_lt hj)
  cases next with
  | none =>
    refine iff_of_true ?_ (.inl rfl)
    show _ + (if peer.allowedips = [] then 0 else 4) ≤ _
    rw [if_neg hne]
    exact hpos
  | some j =>
    have hj' : j < peer.allowedips.length := hj
    have hpos' : headEnd arch peer pos + 4 ≤ capacity := hpos
    unfold Room listed
    dsimp only [Option.getD_some, attrsEnd]
    rw [List.getElem?_eq_getElem hj', List.drop_eq_getElem_cons hj', fitting]
    constructor
    · intro h
      have hroom := h _ rfl
      rw [if_pos (by omega)]
      exact .inr (by omega)
    · rintro (h | h) a ha
      · cases h
      · cases ha
        split at h
        · omega
        · exact absurd h (Nat.lt_irrefl j)

theorem listAllowedips_spec (d : Setting) (draw : Draw)
    (prefixes : Option (Prefix U32 × Prefix Bytes))
    (hj : ctx.nextAllowedip.getD 0 < peer.allowedips.length)
    (hpos : attrsEnd d.arch peer ctx.nextAllowedip pos + 4 ≤ capacity) :
    PeerOutcome d capacity peer ctx pos (listAllowedips capacity peer
      (fixedAttrs d.arch draw prefixes peer ctx.nextAllowedip.isSome)
      { ctx with allowedipsSeq := d.wg.allowedipsSeq } (ctx.nextAllowedip.getD 0)
      (attrsEnd d.arch peer ctx.nextAllowedip pos + 4)) := by
  have hroom := room_iff hj hpos
  have hwritten := putAllowedips_eq hpos (peer.allowedips.drop (ctx.nextAllowedip.getD 0))
  have hle := fitting_le (capacity - (attrsEnd d.arch peer ctx.nextAllowedip pos + 4))
    (peer.allowedips.drop (ctx.nextAllowedip.getD 0))
  have hlisted := Eq.refl (listed d.arch capacity pos peer ctx.nextAllowedip)
  nth_rewrite 2 [listed] at hlisted
  generalize fitting _ (peer.allowedips.drop (ctx.nextAllowedip.getD 0)) = n
    at hwritten hle hlisted
  unfold listAllowedips
  dsimp only
  rw [hwritten]
  rw [List.length_drop] at hle
  have hlength : ((peer.allowedips.drop (ctx.nextAllowedip.getD 0)).take n).length = n := by
    rw [List.length_take, List.length_drop]
    omega
  rw [hlength, List.length_drop, ← hlisted]
  by_cases hcut : n < peer.allowedips.length - ctx.nextAllowedip.getD 0
  · -- the next message goes on with the first one that is missing
    rw [if_pos hcut]
    refine .cut (by omega) ?_ ?_
    · rw [items_fixed, remaining_eq peer ctx.nextAllowedip, List.append_assoc, hlisted]
      show _ ++ (((peer.allowedips.drop _).take n).map _ ++
        (peer.allowedips.drop (ctx.nextAllowedip.getD 0 + n)).map _) = _
      rw [← List.map_append, ← List.drop_drop, List.take_append_drop]
    · rw [items_fixed, hroom, hlisted]
      cases hnext : ctx.nextAllowedip with
      | none => exact iff_of_true (List.cons_ne_nil _ _) (.inl rfl)
      | some j =>
        rw [hnext] at hlength
        show List.map _ _ ≠ [] ↔ _
        rw [Ne, List.map_eq_nil_iff, ← List.length_eq_zero_iff, Option.getD_some]
        rw [Option.getD_some] at hlength
        show ¬ ((peer.allowedips.drop j).take n).length = 0 ↔ some j = none ∨ j < j + n
        rw [hlength]
        constructor
        · intro hne
          exact .inr (by omega)
        · rintro (h | h)
          · cases h
          · omega
  · rw [if_neg hcut]
    refine .complete ?_ ?_ (by omega)
    · rw [items_fixed, remaining_eq, List.take_of_length_le (by rw [List.length_drop]; omega)]
      rfl
    · exact hroom.mpr (.inr (by omega))

variable {d : Setting} {prefixes : Option (Prefix U32 × Prefix Bytes)}

theorem getPeer_spec (hparse : d.bogus.parse d.pton = .ok prefixes) (draw : Draw) (capacity : ℕ)
    (hctx : CtxFor d.wg ctx peer) (pos : ℕ) :
    PeerOutcome d capacity peer ctx pos (getPeer d capacity draw peer ctx pos) := by
  have hinner := le_attrsEnd d.arch peer ctx.nextAllowedip pos
  unfold getPeer
  rw [nlaNestStart_eq]
  by_cases hnest : pos + 4 ≤ capacity
  case neg =>
    -- no room for the header of the element
    rw [if_neg hnest]
    refine .refused (.inl rfl) fun hroom => hnest ?_
    have hattrs := hroom.attrs hctx.next
    omega
  rw [if_pos hnest, hparse]
  dsimp only
  rw [nlaPutAll_eq _ hnest, extent_fixedAttrs]
  by_cases hattrs : attrsEnd d.arch peer ctx.nextAllowedip pos ≤ capacity
  case neg =>
    -- the element is taken back
    rw [if_neg hattrs]
    refine .refused (.inl rfl) fun hroom => hattrs ?_
    have hattrs' := hroom.attrs hctx.next
    omega
  rw [if_pos hattrs]
  dsimp only
  rcases hctx.node with ⟨hnode, hips, hnext⟩ | ⟨hnode, hj⟩
  · -- there is no list
    rw [hnode]
    refine .complete ?_ ?_ ?_
    · rw [items_fixed, remaining_eq, hips, hnext]
      rfl
    · rw [hnext] at hattrs ⊢
      unfold Room
      rw [if_pos hips]
      exact hattrs
    · rw [listed, hips, hnext]
      rfl
  rw [hnode]
  dsimp only
  have hseq : ¬ (ctx.allowedipsSeq ≠ 0 ∧ ctx.allowedipsSeq ≠ d.wg.allowedipsSeq) := by
    rintro ⟨hzero, hother⟩
    exact hctx.seq.elim hzero hother
  rw [if_neg hseq, nlaNestStart_eq]
  by_cases hnest' : attrsEnd d.arch peer ctx.nextAllowedip pos + 4 ≤ capacity
  · rw [if_pos hnest']
    exact listAllowedips_spec d draw prefixes hj hnest'
  · -- no room for the header of the list, but the sequence number is noted
    rw [if_neg hnest']
    refine .refused (.inr rfl) fun hroom => hnest' ?_
    have hattrs' := hroom.attrs hctx.next
    rw [if_neg (List.ne_nil_of_length_pos (Nat.zero_lt_of_lt hj))] at hattrs'
    exact hattrs'

/-! ## One message -/

/-- The cursor belongs to the first of these peers. -/
structure CtxOn (wg : Device) (ctx : DumpCtx) (peers : List WgPeer) : Prop where
  seq : ctx.allowedipsSeq = 0 ∨ ctx.allowedipsSeq = wg.allowedipsSeq
  next : ∀ j, ctx.nextAllowedip = some j → ∃ peer rest, peers = peer :: rest ∧
    j < peer.allowedips.length

variable {rest : List WgPeer}

theorem CtxOn.head (h : CtxOn wg ctx (peer :: rest)) : CtxFor wg ctx peer := by
  refine ⟨h.seq, ?_⟩
  intro j hj
  rcases h.next j hj with ⟨peer', rest', heq, hlt⟩
  cases heq
  exact hlt

/-- A cursor between two peers belongs to any list. -/
theorem CtxOn.fresh (wg : Device) (nextPeer : Option ℕ) (peers : List WgPeer) :
    CtxOn wg ⟨nextPeer, 0, none⟩ peers := by
  refine ⟨.inl rfl, ?_⟩
  intro j hj
  cases hj

/-- What the loop over the peers can do: list all that is left, or some, in which case it
leaves a cursor for the rest; and something, if there is room for the first peer. -/
def PeersOutcome (d : Setting) (capacity : ℕ) (peers : List WgPeer) (ctx : DumpCtx) (pos : ℕ)
    (r : PeersReply) : Prop :=
  (r.done = true ∧ r.nests.flatMap PeerNest.items = leftOf ctx.nextAllowedip peers) ∨
  (r.done = false ∧ CtxOn d.wg r.ctx (d.wg.peerList.drop (firstAfter r.cursor)) ∧
    leftOf ctx.nextAllowedip peers = r.nests.flatMap PeerNest.items ++
      leftOf r.ctx.nextAllowedip (d.wg.peerList.drop (firstAfter r.cursor)) ∧
    ((∀ peer ∈ peers.head?, Room d.arch capacity pos peer ctx.nextAllowedip) →
      r.nests.flatMap PeerNest.items ≠ []))

theorem items_ne_nil (peer : WgPeer) (hctx : CtxFor wg ctx peer) :
    remaining peer ctx.nextAllowedip ≠ [] := by
  cases hnext : ctx.nextAllowedip with
  | none => exact List.cons_ne_nil _ _
  | some j =>
    have hj := hctx.next j hnext
    refine List.map_eq_nil_iff.not.mpr (List.drop_eq_nil_iff.not.mpr ?_)
    omega

theorem leftOf_none (peers : List WgPeer) : leftOf none peers = peers.flatMap WgPeer.items := by
  cases peers with
  | nil => rfl
  | cons peer rest => rfl

theorem getPeers_spec (hparse : d.bogus.parse d.pton = .ok prefixes) (env : CallEnv)
    {peers : List WgPeer} {i : ℕ} (hpeers : d.wg.peerList.drop i = peers)
    (hctx : CtxOn d.wg ctx peers) {cursor : Option ℕ} (hcursor : firstAfter cursor = i) (pos : ℕ) :
    PeersOutcome d env.capacity peers ctx pos (getPeers d env peers i ctx cursor pos) := by
  induction peers generalizing i ctx cursor pos with
  | nil => exact .inl ⟨rfl, rfl⟩
  | cons peer rest ih =>
    have hspec := getPeer_spec hparse (env.draws i) env.capacity hctx.head pos
    rw [getPeers]
    dsimp only
    generalize getPeer d env.capacity (env.draws i) peer ctx pos = r at hspec ⊢
    cases hspec with
    | @complete nest pos' hitems _ _ =>
      have hrest : d.wg.peerList.drop (i + 1) = rest := by
        rw [← List.drop_drop, hpeers]
        rfl
      have htail : PeersOutcome d env.capacity rest ⟨ctx.nextPeer, 0, none⟩ pos'
          (getPeers d env rest (i + 1) ⟨ctx.nextPeer, 0, none⟩ (some i) pos') :=
        ih hrest (CtxOn.fresh d.wg ctx.nextPeer rest) rfl pos'
      have hleft : leftOf ctx.nextAllowedip (peer :: rest) = nest.items ++ leftOf none rest := by
        rw [leftOf_none, hitems]
        rfl
      rcases htail with ⟨hdone, hall⟩ | ⟨hdone, hctx', hall, -⟩
      · refine .inl ⟨hdone, ?_⟩
        rw [hleft, ← hall]
        rfl
      · refine .inr ⟨hdone, hctx', ?_, ?_⟩
        · rw [hleft, hall, ← List.append_assoc]
          rfl
        · -- the peer is listed, whatever follows
          intro _
          refine List.append_ne_nil_of_left_ne_nil ?_ _
          exact hitems ▸ items_ne_nil peer hctx.head
    | @cut nest pos' hj hitems hsome =>
      refine .inr ⟨rfl, ⟨.inr rfl, ?_⟩, ?_, ?_⟩
      · intro j' hj'
        cases hj'
        exact ⟨peer, rest, by rw [hcursor, hpeers], hj⟩
      · show _ = [nest].flatMap _ ++ leftOf (some _) (d.wg.peerList.drop (firstAfter cursor))
        rw [hcursor, hpeers, leftOf, leftOf, ← hitems, List.flatMap_singleton, List.append_assoc]
      · intro hroom
        show [nest].flatMap _ ≠ []
        rw [List.flatMap_singleton]
        exact hsome.mpr (hroom peer rfl)
    | @refused seq hseq hfull =>
      refine .inr ⟨rfl, ⟨?_, ?_⟩, ?_, ?_⟩
      · rcases hseq with rfl | rfl
        · exact hctx.seq
        · exact .inr rfl
      · show ∀ j, ctx.nextAllowedip = some j → ∃ peer rest,
          d.wg.peerList.drop (firstAfter cursor) = peer :: rest ∧ _
        rw [hcursor, hpeers]
        exact hctx.next
      · show _ = leftOf ctx.nextAllowedip (d.wg.peerList.drop (firstAfter cursor))
        rw [hcursor, hpeers]
      · intro hroom
        exact absurd (hroom peer rfl) hfull

/-- The cursor does not fall back. -/
theorem getPeers_cursor (d : Setting) (env : CallEnv) (peers : List WgPeer) (i : ℕ) (ctx : DumpCtx)
    (last pos : ℕ) : (getPeers d env peers i ctx (some last) pos).cursor ≠ none := by
  induction peers generalizing i ctx last pos with
  | nil => exact Option.some_ne_none last
  | cons peer rest ih =>
    rw [getPeers]
    dsimp only
    split
    · exact Option.some_ne_none last
    · exact ih _ _ _ _

/-! ## Whole dumps -/

/-- Where the peer list of a message with the attributes of the device starts. -/
def deviceEnd (wg : Device) : ℕ := extent DevAttr.size (deviceAttrs wg) genlmsgHdr + 4

/-- Where the peer list of any other message starts. -/
def plainEnd : ℕ := genlmsgHdr + 4

def messageEnd (wg : Device) (ctx : DumpCtx) : ℕ :=
  if ctx.nextPeer = none then deviceEnd wg else plainEnd

/-- The attributes of the device alone fit an empty message, and so does each peer with one
allowed IP. -/
structure Alone (d : Setting) (capacity : ℕ) : Prop where
  device : deviceEnd d.wg ≤ capacity
  peer : ∀ peer ∈ d.wg.peerList, Fits d.arch capacity plainEnd peer

section FirstPeer

variable (d : Setting) (capacity : ℕ → ℕ) (peer : WgPeer)

/-- The allowed IP of the first peer that the `k`-th message goes on with, if all messages
before it have room for more of the peer: the first message starts the peer. -/
def nextAt : ℕ → Option ℕ
  | 0 => none
  | k + 1 => some (listed d.arch (capacity k) (deviceEnd d.wg) peer (nextAt k))

/-- Until the first peer is complete, every message has room for more of it behind the
attributes of the device. -/
def FirstPeerFits : Prop :=
  ∀ k, Room d.arch (capacity k) (deviceEnd d.wg) peer (nextAt d capacity peer k)

end FirstPeer

/-- The cursor belongs to the device. -/
def CtxOk (wg : Device) (ctx : DumpCtx) : Prop := CtxOn wg ctx (wg.peerList.drop ctx.first)

theorem CtxOk.start (wg : Device) : CtxOk wg .start := CtxOn.fresh wg none _

/-- With room for the attributes, a message gets as far as its peer list. -/
theorem dump_peers {env : CallEnv} (ctx : DumpCtx) (hroom : deviceEnd d.wg ≤ env.capacity) :
    wgGetDeviceDump d env ctx =
      if d.wg.peerList = [] ∨ nextPeerDead d.wg ctx then .last ⟨messageAttrs d.wg ctx, none⟩
      else
        let r := getPeers d env (d.wg.peerList.drop ctx.first) ctx.first ctx ctx.nextPeer
          (messageEnd d.wg ctx)
        if r.done then .last ⟨messageAttrs d.wg ctx, some r.nests⟩
        else .more ⟨messageAttrs d.wg ctx, some r.nests⟩ { r.ctx with nextPeer := r.cursor } := by
  have hdevice : genlmsgHdr ≤ extent DevAttr.size (deviceAttrs d.wg) genlmsgHdr := le_extent _ _
  have hend : extent DevAttr.size (messageAttrs d.wg ctx) genlmsgHdr + 4 = messageEnd d.wg ctx := by
    unfold messageAttrs messageEnd
    split <;> rfl
  have hle : messageEnd d.wg ctx ≤ env.capacity := by
    unfold messageEnd plainEnd
    unfold deviceEnd at hroom ⊢
    split <;> omega
  have hput : nlaPutAll DevAttr.size env.capacity (messageAttrs d.wg ctx) genlmsgHdr =
      some (extent DevAttr.size (messageAttrs d.wg ctx) genlmsgHdr) := nlaPutAll_of_le (by omega)
  have hhdr : ¬ env.capacity < genlmsgHdr := by
    unfold deviceEnd at hroom
    omega
  rw [wgGetDeviceDump, if_neg hhdr]
  dsimp only
  rw [hput]
  dsimp only
  rw [nlaNestStart_eq, if_pos (by omega), hend]

theorem not_nextPeerDead (wg : Device) (ctx : DumpCtx) : ¬ nextPeerDead wg ctx := by
  rintro ⟨i, -, peer, hpeer, hdead⟩
  rw [wg.alive peer (List.mem_of_getElem? hpeer)] at hdead
  cases hdead

/-- The first peer of the message finds room for more of it. -/
def RoomAt (d : Setting) (capacity : ℕ) (ctx : DumpCtx) : Prop :=
  ∀ peer ∈ (d.wg.peerList.drop ctx.first).head?,
    Room d.arch capacity (messageEnd d.wg ctx) peer ctx.nextAllowedip

/-- A call gives the next part of what is left, and some of it if there is room. -/
theorem dump_call (hparse : d.bogus.parse d.pton = .ok prefixes) {env : CallEnv}
    (hdevice : deviceEnd d.wg ≤ env.capacity) (hctx : CtxOk d.wg ctx) :
    (∃ m, wgGetDeviceDump d env ctx = .last m ∧ m.items = left d.wg ctx) ∨
    ∃ m ctx', wgGetDeviceDump d env ctx = .more m ctx' ∧ CtxOk d.wg ctx' ∧
      left d.wg ctx = m.items ++ left d.wg ctx' ∧ (RoomAt d env.capacity ctx → m.items ≠ []) := by
  rw [dump_peers ctx hdevice]
  by_cases hempty : d.wg.peerList = []
  · refine .inl ⟨_, if_pos (.inl hempty), ?_⟩
    show [] = leftOf ctx.nextAllowedip (d.wg.peerList.drop ctx.first)
    rw [hempty, List.drop_nil]
    rfl
  have hlist : ¬ (d.wg.peerList = [] ∨ nextPeerDead d.wg ctx) := by
    rintro (h | h)
    · exact hempty h
    · exact not_nextPeerDead d.wg ctx h
  have hspec := getPeers_spec hparse env rfl hctx rfl (messageEnd d.wg ctx)
  rw [if_neg hlist]
  dsimp only
  generalize getPeers d env (d.wg.peerList.drop ctx.first) ctx.first ctx ctx.nextPeer
    (messageEnd d.wg ctx) = r at hspec ⊢
  rcases hspec with ⟨hdone, hall⟩ | ⟨hdone, hctx', hall, hsome⟩
  · exact .inl ⟨_, if_pos hdone, hall⟩
  · have hnot : ¬ r.done = true := by
      rw [hdone]
      exact Bool.false_ne_true
    exact .inr ⟨_, _, if_neg hnot, ⟨hctx'.seq, hctx'.next⟩, hall, hsome⟩

/-! ## Progress -/

/-- The next allowed IP of the peer, by position; the peer itself comes before all of them. -/
def DumpCtx.nextIp (ctx : DumpCtx) : ℕ :=
  match ctx.nextAllowedip with
  | none => 0
  | some j => j + 1

/-- A cursor lies before another one: at an earlier peer, or at an earlier allowed IP. -/
def DumpCtx.Before (a b : DumpCtx) : Prop :=
  a.first < b.first ∨ a.first = b.first ∧ a.nextIp < b.nextIp

theorem length_remaining (peer : WgPeer) (ctx : DumpCtx) :
    (remaining peer ctx.nextAllowedip).length = peer.allowedips.length + 1 - ctx.nextIp := by
  unfold DumpCtx.nextIp
  cases ctx.nextAllowedip with
  | none =>
    show (_ :: peer.allowedips.map _).length = _
    rw [List.length_cons, List.length_map]
    rfl
  | some j =>
    show ((peer.allowedips.drop j).map _).length = _
    rw [List.length_map, List.length_drop]
    exact (Nat.add_sub_add_right _ 1 j).symm

/-- Of a list of peers, at most everything is left. -/
theorem length_leftOf_le (ctx : DumpCtx) (peers : List WgPeer) :
    (leftOf ctx.nextAllowedip peers).length ≤ (peers.flatMap WgPeer.items).length := by
  cases peers with
  | nil => exact le_rfl
  | cons peer rest =>
    rw [leftOf, List.flatMap_cons, List.length_append, List.length_append, length_remaining,
      WgPeer.items, List.length_cons, List.length_map]
    omega

/-- And at least what lies behind the first one. -/
theorem le_length_leftOf (next : Option ℕ) (peers : List WgPeer) (n : ℕ) :
    ((peers.drop (n + 1)).flatMap WgPeer.items).length ≤ (leftOf next peers).length := by
  cases peers with
  | nil => exact Nat.zero_le _
  | cons peer rest =>
    have hsplit : (rest.flatMap WgPeer.items).length = ((rest.take n).flatMap WgPeer.items).length +
          ((rest.drop n).flatMap WgPeer.items).length := by
      rw [← List.length_append, ← List.flatMap_append, List.take_append_drop]
    rw [List.drop_succ_cons, leftOf, List.length_append]
    omega

/-- The later the cursor, the less is left. -/
theorem DumpCtx.Before.of_left {a b : DumpCtx} (h : (left wg b).length < (left wg a).length) :
    a.Before b := by
  by_contra hnot
  have horder : b.first < a.first ∨ b.first = a.first ∧ b.nextIp ≤ a.nextIp := by
    unfold DumpCtx.Before at hnot
    omega
  refine absurd h (not_lt.mpr ?_)
  unfold left
  rcases horder with hlt | ⟨heq, hle⟩
  · -- the peers from `a` on all lie behind the first one of `b`
    have hdrop : wg.peerList.drop a.first =
        (wg.peerList.drop b.first).drop (a.first - b.first - 1 + 1) := by
      rw [List.drop_drop]
      congr 1
      omega
    refine le_trans (length_leftOf_le a _) ?_
    rw [hdrop]
    exact le_length_leftOf _ _ _
  · rw [heq]
    cases wg.peerList.drop a.first with
    | nil => exact le_rfl
    | cons peer rest =>
      rw [leftOf, leftOf, List.length_append, List.length_append, length_remaining,
        length_remaining]
      omega

/-! ## The first peer -/

section First

variable {env : CallEnv} (hpeers : d.wg.peerList = peer :: rest)
  (hdevice : deviceEnd d.wg ≤ env.capacity)

include hpeers hdevice

/-- A call before the first peer is complete, by what `get_peer` does with the peer. -/
theorem dump_first (hnone : ctx.nextPeer = none) :
    wgGetDeviceDump d env ctx =
      let r := getPeer d env.capacity (env.draws 0) peer ctx (deviceEnd d.wg)
      let rs : PeersReply := match r.err with
        | some _ => ⟨r.nest.toList, r.ctx, none, false⟩
        | none =>
          let next := getPeers d env rest 1 r.ctx (some 0) r.pos
          { next with nests := r.nest.toList ++ next.nests }
      if rs.done then .last ⟨messageAttrs d.wg ctx, some rs.nests⟩
      else .more ⟨messageAttrs d.wg ctx, some rs.nests⟩ { rs.ctx with nextPeer := rs.cursor } := by
  have hlist : ¬ (d.wg.peerList = [] ∨ nextPeerDead d.wg ctx) := by
    rintro (h | h)
    · rw [hpeers] at h
      cases h
    · exact not_nextPeerDead d.wg ctx h
  have hfirst : ctx.first = 0 := by rw [DumpCtx.first, hnone, firstAfter]
  have hend : messageEnd d.wg ctx = deviceEnd d.wg := if_pos hnone
  rw [dump_peers ctx hdevice, if_neg hlist, hend, hfirst, hnone, List.drop_zero, hpeers, getPeers]

/-- Such a call with room for more of the peer completes it, or goes on as `listed` says;
without room the cursor stays. -/
theorem first_call (hparse : d.bogus.parse d.pton = .ok prefixes) (hnone : ctx.nextPeer = none)
    (hctx : CtxFor d.wg ctx peer) :
    (Room d.arch env.capacity (deviceEnd d.wg) peer ctx.nextAllowedip ∧
      ((listed d.arch env.capacity (deviceEnd d.wg) peer ctx.nextAllowedip =
          peer.allowedips.length ∧
        ∀ m ctx', wgGetDeviceDump d env ctx = .more m ctx' → ctx'.nextPeer ≠ none) ∨
      ∃ m ctx', wgGetDeviceDump d env ctx = .more m ctx' ∧ ctx'.nextPeer = none ∧
        ctx'.nextAllowedip =
          some (listed d.arch env.capacity (deviceEnd d.wg) peer ctx.nextAllowedip))) ∨
    (¬ Room d.arch env.capacity (deviceEnd d.wg) peer ctx.nextAllowedip ∧
      ∃ m ctx', wgGetDeviceDump d env ctx = .more m ctx' ∧ ¬ ctx.Before ctx') := by
  have hspec := getPeer_spec hparse (env.draws 0) env.capacity hctx (deviceEnd d.wg)
  rw [dump_first hpeers hdevice hnone]
  dsimp only
  generalize getPeer d env.capacity (env.draws 0) peer ctx (deviceEnd d.wg) = r at hspec ⊢
  cases hspec with
  | @complete nest pos' hitems hroom hlisted =>
    -- the message may end at a later peer, but not in front of this one
    refine .inl ⟨hroom, .inl ⟨hlisted, ?_⟩⟩
    intro m ctx' hmore
    dsimp only at hmore
    split at hmore
    · cases hmore
    · cases hmore
      exact getPeers_cursor d env rest 1 _ 0 pos'
  | @cut nest pos' hlt hitems hsome =>
    by_cases hroom : Room d.arch env.capacity (deviceEnd d.wg) peer ctx.nextAllowedip
    · exact .inl ⟨hroom, .inr ⟨_, _, rfl, rfl, rfl⟩⟩
    · refine .inr ⟨hroom, _, _, rfl, ?_⟩
      -- nothing was written, so the cursor names the same allowed IP
      have hnil : nest.items = [] := not_not.mp fun hne => hroom (hsome.mp hne)
      have hlength := congrArg List.length hitems
      rw [hnil, List.nil_append, length_remaining peer ctx] at hlength
      have hleft := length_remaining peer ⟨none, 0,
        some (listed d.arch env.capacity (deviceEnd d.wg) peer ctx.nextAllowedip)⟩
      rw [hlength] at hleft
      unfold DumpCtx.Before DumpCtx.first DumpCtx.nextIp at *
      rw [hnone]
      dsimp only at hleft ⊢
      omega
  | @refused seq hseq hroom =>
    refine .inr ⟨hroom, _, _, rfl, ?_⟩
    unfold DumpCtx.Before DumpCtx.first DumpCtx.nextIp
    rw [hnone]
    dsimp only
    omega

/-- If the prefixes cannot be parsed, or a message does not hold the fixed attributes of the
first peer, the first cursor stays where it is. -/
theorem stuck_call (h : (∃ e, d.bogus.parse d.pton = .error e) ∨
      env.capacity < fixedEnd d.arch peer (deviceEnd d.wg)) :
    ∃ m, wgGetDeviceDump d env .start = .more m .start := by
  have hpeer : ∃ nest pos e, getPeer d env.capacity (env.draws 0) peer .start
      (deviceEnd d.wg) = ⟨nest, pos, .start, some e⟩ := by
    unfold getPeer
    rw [nlaNestStart_eq]
    by_cases hnest : deviceEnd d.wg + 4 ≤ env.capacity
    case neg =>
      rw [if_neg hnest]
      exact ⟨_, _, _, rfl⟩
    rw [if_pos hnest]
    cases hparse : d.bogus.parse d.pton with
    | error e => exact ⟨_, _, _, rfl⟩
    | ok prefixes =>
      have hnot : ¬ attrsEnd d.arch peer DumpCtx.start.nextAllowedip (deviceEnd d.wg) ≤
          env.capacity := by
        rcases h with ⟨e, he⟩ | hfull
        · cases he.symm.trans hparse
        · exact not_le.mpr hfull
      dsimp only
      rw [nlaPutAll_eq _ hnest, extent_fixedAttrs, if_neg hnot]
      exact ⟨_, _, _, rfl⟩
  rcases hpeer with ⟨nest, pos, e, heq⟩
  rw [dump_first hpeers hdevice rfl, heq]
  exact ⟨_, rfl⟩

end First

/-! ## Result -/

/-- Finitely many calls list every peer and every allowed IP once and in order, and every
unfinished one moves the cursor on. -/
def Complete (d : Setting) (calls : ℕ → CallEnv) : Prop :=
  (∃ n messages, serve (fun k => wgGetDeviceDump d (calls k)) n 0 .start = (messages, .finished) ∧
    messages.flatMap Message.items = d.wg.peerList.flatMap WgPeer.items) ∧
  ∀ k ctx m ctx', Reached (fun k => wgGetDeviceDump d (calls k)) .start k ctx →
    wgGetDeviceDump d (calls k) ctx = .more m ctx' → ctx.Before ctx'

section Result

variable {calls : ℕ → CallEnv}

/-- The cursor of the `k`-th call: up to the end of the first peer, it is where the peer was
cut. -/
structure CtxAt (d : Setting) (calls : ℕ → CallEnv) (k : ℕ) (ctx : DumpCtx) : Prop where
  ok : CtxOk d.wg ctx
  first : ∀ peer rest, d.wg.peerList = peer :: rest → ctx.nextPeer = none →
    ctx.nextAllowedip = nextAt d (fun k => (calls k).capacity) peer k

theorem CtxOk.first_ctx (h : CtxOk wg ctx) (hpeers : wg.peerList = peer :: rest)
    (hnone : ctx.nextPeer = none) : CtxFor wg ctx peer := by
  rw [CtxOk, DumpCtx.first, hnone, firstAfter, List.drop_zero, hpeers] at h
  exact h.head

/-- If the first peer fits, every call gives some of what is left. -/
theorem dump_advances (hparse : d.bogus.parse d.pton = .ok prefixes)
    (halone : ∀ k, Alone d (calls k).capacity) (hfits : ∀ peer rest, d.wg.peerList = peer :: rest →
      FirstPeerFits d (fun k => (calls k).capacity) peer) :
    Advances (fun k => wgGetDeviceDump d (calls k)) (CtxAt d calls) Message.items (left d.wg) := by
  intro k ctx hctx
  have hroom : RoomAt d (calls k).capacity ctx := by
    intro peer hpeer
    unfold messageEnd
    split
    · next hnone =>
      rw [DumpCtx.first, hnone, firstAfter, List.drop_zero] at hpeer
      rcases List.head?_eq_some_iff.mp hpeer with ⟨rest, hpeers⟩
      rw [hctx.first peer rest hpeers hnone]
      exact hfits peer rest hpeers k
    · exact ((halone k).peer peer (List.mem_of_mem_drop (List.mem_of_head? hpeer))).room _
  rcases dump_call hparse (halone k).device hctx.ok with hlast | ⟨m, ctx', hmore, hok, hleft, hne⟩
  · exact .inl hlast
  refine .inr ⟨m, ctx', hmore, ⟨hok, ?_⟩, hleft, hne hroom⟩
  intro peer rest hpeers hnone'
  by_cases hnone : ctx.nextPeer = none
  · rcases first_call hpeers (halone k).device hparse hnone
      (hctx.ok.first_ctx hpeers hnone) with ⟨-, hdone | hcut⟩ | ⟨hfull, -⟩
    · exact absurd hnone' (hdone.2 m ctx' hmore)
    · rcases hcut with ⟨m', c', hmore', -, hnext⟩
      cases hmore'.symm.trans hmore
      rw [hnext, hctx.first peer rest hpeers hnone]
      rfl
    · rw [hctx.first peer rest hpeers hnone] at hfull
      exact absurd (hfits peer rest hpeers k) hfull
  · -- a complete peer stays complete
    rw [dump_peers ctx (halone k).device] at hmore
    split at hmore
    · cases hmore
    · dsimp only at hmore
      split at hmore
      · cases hmore
      · cases hmore
        rcases Option.ne_none_iff_exists'.mp hnone with ⟨last, hlast⟩
        rw [hlast] at hnone'
        exact (getPeers_cursor d (calls k) _ _ _ last _ hnone').elim

/-- If every unfinished call moves the cursor on, there is room for the first peer: up to its
end, the calls are made with the cursors of `nextAt`. -/
theorem firstPeerFits_of_complete (hparse : d.bogus.parse d.pton = .ok prefixes)
    (halone : ∀ k, Alone d (calls k).capacity) (h : Complete d calls)
    (hpeers : d.wg.peerList = peer :: rest) :
    FirstPeerFits d (fun k => (calls k).capacity) peer := by
  have hcall : ∀ k, (∃ ctx, Reached (fun k => wgGetDeviceDump d (calls k)) .start k ctx ∧
        CtxOk d.wg ctx ∧ ctx.nextPeer = none ∧
        ctx.nextAllowedip = nextAt d (fun k => (calls k).capacity) peer k) ∨
      ∃ j, nextAt d (fun k => (calls k).capacity) peer k = some j ∧ peer.allowedips.length ≤ j := by
    intro k
    induction k with
    | zero => exact .inl ⟨.start, .start, CtxOk.start d.wg, rfl, rfl⟩
    | succ k ih =>
      rcases ih with ⟨ctx, hreached, hok, hnone, hnext⟩ | ⟨j, hj, hle⟩
      · rcases first_call hpeers (halone k).device hparse hnone
          (hok.first_ctx hpeers hnone) with ⟨-, hdone | hcut⟩ | ⟨-, m, ctx', hmore, hnot⟩
        · refine .inr ⟨_, rfl, ?_⟩
          rw [← hnext]
          exact hdone.1.ge
        · rcases hcut with ⟨m, ctx', hmore, hnone', hnext'⟩
          refine .inl ⟨ctx', hreached.more hmore, ?_, hnone', ?_⟩
          · rcases dump_call hparse (halone k).device hok with
              ⟨m', hlast, -⟩ | ⟨m', c', hmore', hok', -⟩
            · cases hlast.symm.trans hmore
            · cases hmore'.symm.trans hmore
              exact hok'
          · rw [hnext', hnext]
            rfl
        · exact absurd (h.2 k ctx m ctx' hreached hmore) hnot
      · refine .inr ⟨_, rfl, ?_⟩
        rw [hj]
        exact le_trans hle (Nat.le_add_right ..)
  intro k
  rcases hcall k with ⟨ctx, hreached, hok, hnone, hnext⟩ | ⟨j, hj, hle⟩
  · rcases first_call hpeers (halone k).device hparse hnone
      (hok.first_ctx hpeers hnone) with ⟨hroom, -⟩ | ⟨-, m, ctx', hmore, hnot⟩
    · rw [← hnext]
      exact hroom
    · exact absurd (h.2 k ctx m ctx' hreached hmore) hnot
  · -- the peer is complete already
    rw [hj]
    intro a ha
    rw [List.getElem?_eq_none hle] at ha
    cases ha

end Result

/-- A dump whose messages hold the attributes of the device alone, and each peer alone with one
allowed IP, is complete if and only if there are no peers, or the prefixes for made-up
addresses can be parsed and the first peer fits behind the attributes of the device. -/
theorem dump_complete (d : Setting) (calls : ℕ → CallEnv)
    (halone : ∀ k, Alone d (calls k).capacity) :
    Complete d calls ↔ ∀ peer rest, d.wg.peerList = peer :: rest →
      (∃ prefixes, d.bogus.parse d.pton = .ok prefixes) ∧
        FirstPeerFits d (fun k => (calls k).capacity) peer := by
  constructor
  · intro h peer rest hpeers
    cases hparse : d.bogus.parse d.pton with
    | error e =>
      -- the first call leaves the cursor where it is
      rcases stuck_call hpeers (halone 0).device (.inl ⟨e, hparse⟩) with ⟨m, hmore⟩
      rcases h.2 0 .start m .start .start hmore with hlt | ⟨-, hlt⟩
      · exact absurd hlt (Nat.lt_irrefl _)
      · exact absurd hlt (Nat.lt_irrefl _)
    | ok prefixes =>
      exact ⟨⟨prefixes, rfl⟩, firstPeerFits_of_complete hparse halone h hpeers⟩
  · intro h
    have hadvances : Advances (fun k => wgGetDeviceDump d (calls k)) (CtxAt d calls) Message.items
        (left d.wg) := by
      cases hpeers : d.wg.peerList with
      | nil =>
        -- nothing to list: the first call is the last
        intro k ctx hctx
        refine .inl ⟨_, (dump_peers ctx (halone k).device).trans (if_pos (.inl hpeers)), ?_⟩
        show [] = leftOf ctx.nextAllowedip (d.wg.peerList.drop ctx.first)
        rw [hpeers, List.drop_nil]
        rfl
      | cons peer rest =>
        rcases (h peer rest hpeers).1 with ⟨prefixes, hparse⟩
        exact dump_advances hparse halone fun peer rest hpeers => (h peer rest hpeers).2
    have hstart : CtxAt d calls 0 .start := ⟨CtxOk.start d.wg, fun _ _ _ _ => rfl⟩
    constructor
    · rcases serve_finishes hadvances 0 hstart with ⟨n, -, messages, hserve, hall⟩
      refine ⟨n, messages, hserve, ?_⟩
      rw [hall]
      exact leftOf_none _
    · intro k ctx m ctx' hreached hmore
      rcases hadvances.more (hadvances.reached hstart hreached) hmore with ⟨-, hleft, hne⟩
      have hlt : (left d.wg ctx').length < (left d.wg ctx).length := by
        rw [hleft, List.length_append]
        exact Nat.lt_add_of_pos_left (List.length_pos_of_ne_nil hne)
      exact .of_left hlt

/-! ## Samples -/

def sampleArch : Arch := ⟨true, fun x n => x <<< n, fun _ _ _ => rfl⟩

/-- A conversion that knows no address. -/
def samplePton : Pton := ⟨fun _ => none, fun _ => none⟩

def samplePeer : WgPeer where
  advancedSecurity := true
  remoteStatic := List.replicate 32 1
  presharedKey := List.replicate 32 0
  walltimeLastHandshake := ⟨0, 0⟩
  persistentKeepaliveInterval := 0
  txBytes := 0
  rxBytes := 0
  endpoint := .inet 51820 0x0a000001
  allowedips := [⟨.inet, [10, 0, 0, 2], 32⟩]
  isDead := false

/-- A device with one peer and five I-packets of so many zero bytes. -/
def sampleDevice (zeros : ℕ) : Device where
  incomingPort := 51820
  fwmark := 0
  ifindex := 3
  name := ascii "awg0"
  config :=
    let desc := ascii "<b 0x" ++ List.replicate (2 * zeros) (chr '0') ++ ascii ">"
    { wgSetup with ispecs := fun _ => ⟨some desc, none, [], 0⟩ }
  staticIdentity := ⟨[], [], false⟩
  peerList := [samplePeer]
  allowedipsSeq := 1
  alive := fun peer hpeer => by rw [List.mem_singleton.mp hpeer]; rfl

/-- A page less what the socket buffer needs. -/
def sampleCalls (_ : ℕ) : CallEnv := ⟨3776, fun _ => default⟩

def sampleSetting (zeros : ℕ) (bogus : BogusEndpoints) : Setting :=
  ⟨sampleArch, samplePton, bogus, sampleDevice zeros⟩

theorem sample_fits (h : fixedEnd sampleArch samplePeer pos + 32 ≤ 3776) :
    Fits sampleArch 3776 pos samplePeer := by
  refine ⟨by omega, ?_⟩
  intro a ha
  have hsize : ipSize a = 28 := by
    rw [List.mem_singleton.mp ha]
    rfl
  omega

theorem sample_alone {zeros : ℕ} (bogus : BogusEndpoints)
    (h : deviceEnd (sampleDevice zeros) ≤ 3776) : Alone (sampleSetting zeros bogus) 3776 := by
  refine ⟨h, ?_⟩
  intro peer hpeer
  rw [List.mem_singleton.mp hpeer]
  exact sample_fits (by decide +kernel)

theorem sample_firstPeerFits (bogus : BogusEndpoints)
    (hpeers : (sampleSetting 1 bogus).wg.peerList = peer :: rest) :
    FirstPeerFits (sampleSetting 1 bogus) (fun k => (sampleCalls k).capacity) peer := by
  have hend : fixedEnd sampleArch samplePeer (deviceEnd (sampleDevice 1)) + 32 ≤ 3776 := by
    decide +kernel
  cases hpeers
  exact fun _ => (sample_fits hend).room _

theorem dump_complete_sample : Complete (sampleSetting 1 .default) sampleCalls :=
  (dump_complete (sampleSetting 1 .default) sampleCalls
    (fun _ => sample_alone .default (by decide +kernel))).mpr
    fun _ _ hpeers => ⟨⟨none, rfl⟩, sample_firstPeerFits .default hpeers⟩

/-- Large I-packets leave no room for the first peer; and a prefix without a length fails
every peer. Both dumps repeat their first message forever. -/
theorem dump_endless :
    (∃ (d : Setting) (calls : ℕ → CallEnv), (∀ k, Alone d (calls k).capacity) ∧
      (∃ prefixes, d.bogus.parse d.pton = .ok prefixes) ∧ ∀ n,
      (serve (fun k => wgGetDeviceDump d (calls k)) n 0 .start).2 = .unfinished .start) ∧
    ∃ (d : Setting) (calls : ℕ → CallEnv), (∀ k, Alone d (calls k).capacity) ∧
      (∀ peer rest, d.wg.peerList = peer :: rest →
        FirstPeerFits d (fun k => (calls k).capacity) peer) ∧ ∀ n,
      (serve (fun k => wgGetDeviceDump d (calls k)) n 0 .start).2 = .unfinished .start := by
  constructor
  · have hdevice : deviceEnd (sampleDevice 345) ≤ 3776 := by decide +kernel
    have hfull : 3776 < fixedEnd sampleArch samplePeer (deviceEnd (sampleDevice 345)) := by
      decide +kernel
    refine ⟨sampleSetting 345 .default, sampleCalls, ?_, ⟨none, rfl⟩, fun n => serve_stuck ?_ n 0⟩
    · intro k
      exact sample_alone .default hdevice
    · intro k
      exact stuck_call rfl hdevice (.inr hfull)
  · have hdevice : deviceEnd (sampleDevice 1) ≤ 3776 := by decide +kernel
    have hparse : BogusEndpoints.parse ⟨1, some (ascii "127.0.0.0"), some (ascii "ff80::/16")⟩
        samplePton = .error .EINVAL := by
      rw [BogusEndpoints.parse, if_pos one_ne_zero, parseIpv4Prefix, parsePrefix]
      rfl
    refine ⟨sampleSetting 1 ⟨1, some (ascii "127.0.0.0"), some (ascii "ff80::/16")⟩, sampleCalls,
      ?_, ?_, fun n => serve_stuck ?_ n 0⟩
    · intro k
      exact sample_alone _ hdevice
    · intro peer rest hpeers
      exact sample_firstPeerFits _ hpeers
    · intro k
      exact stuck_call rfl hdevice (.inl ⟨_, hparse⟩)

end AmneziaWg.Dump
