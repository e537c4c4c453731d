import AmneziaWg.Lib.Sections
import AmneziaWg.Noise.Agreement

/-!
# Rejected handshake messages

`wg_noise_handshake_consume_initiation` and `wg_noise_handshake_consume_response`
with the references they take on the peer, cut into their locked sections. Other
calls may change anything between two sections; the question is what the sections
of a call that returns no peer change themselves.

* **Model**: `Node`, `initiationStep`, `responseStep`.
* **Connection**: `alone_initiation`, `alone_response`: run alone, the sections are the
  functions of the handshake model.
* **Step**: `initiationStep_kept`, `initiationStep_refs` and their siblings for responses.
* **Result**: `rejected_untouched`. An initiation notes whether its peer obfuscates
  before it is authenticated; everything else is left alone.
-/

namespace AmneziaWg.Noise.Reject

open Linux Sections

/-! ## Model layer -/

/-- A device with what surrounds the handshakes of its peers. -/
structure Node where
  host : Host
  /-- `peer->refcount`. -/
  refcount : ℕ → ℤ
  /-- `handshake.entry.peer` is not `NULL`. -/
  entryPeer : ℕ → Bool
  /-- `peer->latest_cookie`. -/
  cookie : ℕ → Bytes
  /-- `peer->endpoint`. -/
  endpoint : ℕ → Bytes

/-- `kref_get_unless_zero`. -/
def kref (p : ℕ) (node : Node) : Option Node :=
  if node.refcount p = 0 then none
  else some { node with refcount := Function.update node.refcount p (node.refcount p + 1) }

/-- `wg_peer_put`; the last reference unlinks the handshake. -/
def wgPeerPut (p : ℕ) (node : Node) : Node :=
  let refcount := node.refcount p - 1
  { node with
    refcount := Function.update node.refcount p refcount
    host := if refcount = 0 then
        { node.host with
          indexHashtable := wgIndexHashtableRemove node.host.indexHashtable (.handshake p) }
      else node.host }

/-- `wg_pubkey_hashtable_lookup`, with a reference on the peer. -/
def wgPubkeyHashtableLookup (pubkey : Bytes) (node : Node) : Option (Node × ℕ) :=
  match node.host.peerHashtable pubkey with
  | none => none
  | some p => (kref p node).map fun node => (node, p)

/-- `wg_index_hashtable_lookup` for handshakes, with a reference on the peer. An entry whose
peer is gone loses it. -/
def lookupHandshakeRef (index : U32) (node : Node) : Node × Option ℕ :=
  match lookupHandshake node.host.indexHashtable index with
  | none => (node, none)
  | some p =>
    if ¬ node.entryPeer p then (node, none)
    else
      match kref p node with
      | none => ({ node with entryPeer := Function.update node.entryPeer p false }, none)
      | some node => (node, some p)

/-- What consuming an initiation asks the kernel for: memory for the endpoint, and the clock
at the check and at the commit. -/
structure ConsumeEnv where
  endpointAllocated : Bool
  checked : U64
  committed : U64

variable (P : Primitives)

/-- The program points of `wg_noise_handshake_consume_initiation`, with its local variables. -/
inductive InitiationPc where
  | start
  /-- The peer is known and referenced: note the header, read the timestamp. -/
  | found (p : ℕ) (advancedSecurity : Bool) (sym : Symmetric)
  | check (r : ReadInitiation)
  | commit (r : ReadInitiation)
  /-- The label `out` without a peer to return. -/
  | out (p : Option ℕ)
  | done (retPeer : Option ℕ)
  /-- The endpoint of an unknown peer is filled in without memory for it. -/
  | fault

/-- The header is an obfuscated one of this device. -/
def obfuscated (src : MessageHandshakeInitiation) (wg : WgDevice) : Bool :=
  wg.advancedSecurity && decide (mhValidate src.type (wg.headers .init))

/-- Up to the lookup of the peer. -/
def openInitiation (src : MessageHandshakeInitiation) (env : ConsumeEnv) (node : Node) :
    Node × InitiationPc :=
  let id := node.host.staticIdentity
  if ¬ id.hasIdentity then (node, .out none)
  else
    let e := src.unencryptedEphemeral
    let sym := messageEphemeral P e (handshakeInit P id.staticPublic)
    match mixDh P sym.chainingKey id.staticPrivate e with
    | none => (node, .out none)
    | some (ck, key) =>
      match messageDecrypt P src.encryptedStatic key sym.hash with
      | none => (node, .out none)
      | some (s, hash) =>
        match wgPubkeyHashtableLookup s node with
        | none => (node, if env.endpointAllocated then .out none else .fault)
        | some (node, p) => (node, .found p (obfuscated src node.host.wg) ⟨ck, hash⟩)

/-- `peer->advanced_security = advanced_security`. -/
def noteHeader (p : ℕ) (advancedSecurity : Bool) (node : Node) : Node :=
  let peer := { node.host.peers p with advancedSecurity := advancedSecurity }
  { node with host := node.host.setPeer p peer }

/-- From the noted header to the timestamp. -/
def readTimestamp (src : MessageHandshakeInitiation) (p : ℕ) (sym : Symmetric) (node : Node) :
    InitiationPc :=
  match mixPrecomputedDh P sym.chainingKey (node.host.handshake p).precomputedStaticStatic with
  | none => .out (some p)
  | some (ck, key) =>
    match messageDecrypt P src.encryptedTimestamp key sym.hash with
    | none => .out (some p)
    | some (t, hash) => .check ⟨p, src.unencryptedEphemeral, t, ⟨ck, hash⟩⟩

/-- The sections of `wg_noise_handshake_consume_initiation`. -/
def initiationStep (src : MessageHandshakeInitiation) (env : ConsumeEnv) :
    InitiationPc → Node → Option (Node × InitiationPc)
  | .start, node => some (openInitiation P src env node)
  | .found p advancedSecurity sym, node =>
    let node := noteHeader p advancedSecurity node
    some (node, readTimestamp P src p sym node)
  | .check r, node =>
    if Rejected (node.host.handshake r.peer) r.timestamp env.checked then
      some (node, .out (some r.peer))
    else some (node, .commit r)
  | .commit r, node =>
    let handshake := commitInitiation src r env.committed (node.host.handshake r.peer)
    some ({ node with host := node.host.setHandshake r.peer handshake }, .done (some r.peer))
  | .out none, node => some (node, .done none)
  | .out (some p), node => some (wgPeerPut p node, .done none)
  | .done _, _ => none
  | .fault, _ => none

/-- The program points of `wg_noise_handshake_consume_response`. -/
inductive ResponsePc where
  | start
  /-- The handshake is found and its peer referenced: copy it and read the response. -/
  | copy (p : ℕ)
  | commit (r : PendingResponse)
  | fail (p : ℕ)
  | done (retPeer : Option ℕ)

/-- The sections of `wg_noise_handshake_consume_response`. -/
def responseStep (src : MessageHandshakeResponse) :
    ResponsePc → Node → Option (Node × ResponsePc)
  | .start, node =>
    if ¬ node.host.staticIdentity.hasIdentity then some (node, .done none)
    else
      match lookupHandshakeRef src.receiverIndex node with
      | (node, none) => some (node, .done none)
      | (node, some p) => some (node, .copy p)
  | .copy p, node =>
    let copy := node.host.handshake p
    if copy.state ≠ .createdInitiation then some (node, .fail p)
    else
      match readResponse P node.host.staticIdentity.staticPrivate src copy with
      | none => some (node, .fail p)
      | some sym => some (node, .commit ⟨p, copy.state, sym⟩)
  | .commit r, node =>
    match commitResponse src r node.host with
    | (_, none) => some (node, .fail r.peer)
    | (host, some p) => some ({ node with host := host }, .done (some p))
  | .fail p, node => some (wgPeerPut p node, .done none)
  | .done _, _ => none

/-! ## Run alone

Without others in between, the sections are the functions of the handshake model. -/

variable {node : Node}

section Alone

variable {P} {env : ConsumeEnv}

/-- The node with one more reference on a peer. -/
def Node.got (p : ℕ) (node : Node) : Node :=
  { node with refcount := Function.update node.refcount p (node.refcount p + 1) }

/-- A reference that is given back by the call that took it is not the last one. -/
theorem put_host {p : ℕ} (h : node.refcount p - 1 ≠ 0) : (wgPeerPut p node).host = node.host :=
  if_neg h

theorem refcount_got (p : ℕ) (node : Node) : (node.got p).refcount p - 1 = node.refcount p := by
  show Function.update node.refcount p (node.refcount p + 1) p - 1 = _
  rw [Function.update_self]
  omega

/-- The call returns this, and leaves this host. -/
def Returns {π : Type} (r : Node × π) (host : Host) (pc : π) : Prop := r.1.host = host ∧ r.2 = pc

theorem out_alone (src : MessageHandshakeInitiation) (n p : ℕ) (h : node.refcount p - 1 ≠ 0) :
    Returns (alone (initiationStep P src env) (n + 1) (.out (some p)) node).2 node.host
      (.done none) := by
  have hstep : initiationStep P src env (.out (some p)) node = some (wgPeerPut p node, .done none) :=
    rfl
  rw [alone_succ hstep, alone_returned rfl]
  exact ⟨put_host h, rfl⟩

/-- A call reads the initiation in its first two sections. -/
theorem open_read (src : MessageHandshakeInitiation) (halloc : env.endpointAllocated = true)
    (hrefs : ∀ p, node.refcount p ≠ 0) :
    (openInitiation P src env node = (node, .out none) ∧
      readInitiation P src node.host = (node.host, none)) ∨
    ∃ p adv sym, openInitiation P src env node = (node.got p, .found p adv sym) ∧
      (noteHeader p adv (node.got p)).host = (readInitiation P src node.host).1 ∧
      ((readTimestamp P src p sym (noteHeader p adv (node.got p)) = .out (some p) ∧
          (readInitiation P src node.host).2 = none) ∨
        ∃ r, r.peer = p ∧
          readTimestamp P src p sym (noteHeader p adv (node.got p)) = .check r ∧
          (readInitiation P src node.host).2 = some r) := by
  unfold openInitiation readInitiation wgPubkeyHashtableLookup
  by_cases hid : node.host.staticIdentity.hasIdentity = true
  case neg =>
    rw [if_pos hid, if_pos hid]
    exact .inl ⟨rfl, rfl⟩
  rw [if_neg (not_not.mpr hid), if_neg (not_not.mpr hid)]
  dsimp only
  cases mixDh P (messageEphemeral P src.unencryptedEphemeral
      (handshakeInit P node.host.staticIdentity.staticPublic)).chainingKey
      node.host.staticIdentity.staticPrivate src.unencryptedEphemeral with
  | none => exact .inl ⟨rfl, rfl⟩
  | some ckKey =>
  rcases ckKey with ⟨ck, key⟩
  dsimp only
  cases messageDecrypt P src.encryptedStatic key (messageEphemeral P src.unencryptedEphemeral
      (handshakeInit P node.host.staticIdentity.staticPublic)).hash with
  | none => exact .inl ⟨rfl, rfl⟩
  | some sHash =>
  rcases sHash with ⟨s, hash⟩
  dsimp only
  cases node.host.peerHashtable s with
  | none =>
    refine .inl ⟨?_, rfl⟩
    dsimp only
    rw [if_pos halloc]
  | some p =>
  have hkref : kref p node = some (node.got p) := if_neg (hrefs p)
  refine .inr ⟨p, obfuscated src node.host.wg, ⟨ck, hash⟩, ?_⟩
  unfold readTimestamp
  dsimp only [Node.got, noteHeader, obfuscated]
  rw [hkref]
  refine ⟨rfl, ?_⟩
  cases mixPrecomputedDh P ck ((node.host.setPeer p { node.host.peers p with
      advancedSecurity := node.host.wg.advancedSecurity &&
        decide (mhValidate src.type (node.host.wg.headers .init)) }).handshake
      p).precomputedStaticStatic with
  | none => exact ⟨rfl, .inl ⟨rfl, rfl⟩⟩
  | some ckKey =>
  rcases ckKey with ⟨ck', key'⟩
  dsimp only
  cases messageDecrypt P src.encryptedTimestamp key' hash with
  | none => exact ⟨rfl, .inl ⟨rfl, rfl⟩⟩
  | some tHash => exact ⟨rfl, .inr ⟨_, rfl, rfl, rfl⟩⟩

theorem alone_initiation (src : MessageHandshakeInitiation) (halloc : env.endpointAllocated = true)
    (hrefs : ∀ p, node.refcount p ≠ 0) :
    Returns (alone (initiationStep P src env) 5 .start node).2
      (wgNoiseHandshakeConsumeInitiation P src env.checked env.committed node.host).1
      (.done (wgNoiseHandshakeConsumeInitiation P src env.checked env.committed node.host).2) := by
  have hstart : initiationStep P src env .start node = some (openInitiation P src env node) := rfl
  unfold wgNoiseHandshakeConsumeInitiation
  rcases open_read src halloc hrefs with ⟨hopen, hread⟩ | ⟨p, adv, sym, hopen, hhost, hrest⟩
  · rw [hopen] at hstart
    rw [hread, alone_succ hstart, alone_succ rfl, alone_returned rfl]
    exact ⟨rfl, rfl⟩
  rw [hopen] at hstart
  have hfound : initiationStep P src env (.found p adv sym) (node.got p) =
      some (noteHeader p adv (node.got p),
        readTimestamp P src p sym (noteHeader p adv (node.got p))) := rfl
  have hgot : (noteHeader p adv (node.got p)).refcount p - 1 ≠ 0 := by
    rw [show (noteHeader p adv (node.got p)).refcount p - 1 = node.refcount p from refcount_got p node]
    exact hrefs p
  rcases hread : readInitiation P src node.host with ⟨host, r⟩
  rw [hread] at hhost hrest
  rcases hrest with ⟨hout, hr⟩ | ⟨r', hpeer, hcheck, hr⟩
  · -- the timestamp cannot be read: the reference is given back
    rw [hout] at hfound
    rw [show r = none from hr, alone_succ hstart, alone_succ hfound]
    rw [show host = _ from hhost.symm]
    exact out_alone src 2 p hgot
  · subst hpeer
    rw [hcheck] at hfound
    rw [show r = some r' from hr, alone_succ hstart, alone_succ hfound]
    rw [show host = _ from hhost.symm]
    dsimp only
    by_cases hrejected : Rejected ((noteHeader r'.peer adv (node.got r'.peer)).host.handshake r'.peer)
        r'.timestamp env.checked
    · have hstep : initiationStep P src env (.check r') (noteHeader r'.peer adv (node.got r'.peer)) =
          some (noteHeader r'.peer adv (node.got r'.peer), .out (some r'.peer)) := if_pos hrejected
      rw [if_pos hrejected, alone_succ hstep]
      exact out_alone src 1 r'.peer hgot
    · have hstep : initiationStep P src env (.check r') (noteHeader r'.peer adv (node.got r'.peer)) =
          some (noteHeader r'.peer adv (node.got r'.peer), .commit r') := if_neg hrejected
      rw [if_neg hrejected, alone_succ hstep, alone_succ rfl, alone_returned rfl]
      exact ⟨rfl, rfl⟩

/-- An initiation that is rejected alone is a rejected call. -/
theorem alone_rejected (src : MessageHandshakeInitiation) (halloc : env.endpointAllocated = true)
    (hrefs : ∀ p, node.refcount p ≠ 0)
    (h : (wgNoiseHandshakeConsumeInitiation P src env.checked env.committed node.host).2 = none) :
    Runs (initiationStep P src env) .start (alone (initiationStep P src env) 5 .start node).1
        (.done none) ∧
      Chained node (alone (initiationStep P src env) 5 .start node).1
        (alone (initiationStep P src env) 5 .start node).2.1 := by
  have hdone := (alone_initiation (P := P) src halloc hrefs).2
  rw [h] at hdone
  rw [← hdone]
  exact alone_runs 5 InitiationPc.start node

theorem alone_response (src : MessageHandshakeResponse) (hrefs : ∀ p, node.refcount p ≠ 0)
    (hentry : ∀ p, node.entryPeer p = true) :
    Returns (alone (responseStep P src) 4 .start node).2
      (wgNoiseHandshakeConsumeResponse P src node.host).1
      (.done (wgNoiseHandshakeConsumeResponse P src node.host).2) := by
  unfold wgNoiseHandshakeConsumeResponse copyAndReadResponse
  by_cases hid : node.host.staticIdentity.hasIdentity = true
  case neg =>
    have hstart : responseStep P src .start node = some (node, .done none) := if_pos hid
    rw [if_pos hid, alone_succ hstart, alone_returned rfl]
    exact ⟨rfl, rfl⟩
  have hstart : responseStep P src .start node =
      match lookupHandshakeRef src.receiverIndex node with
      | (node, none) => some (node, .done none)
      | (node, some p) => some (node, .copy p) := if_neg (not_not.mpr hid)
  rw [if_neg (not_not.mpr hid)]
  unfold lookupHandshakeRef at hstart
  cases hlookup : lookupHandshake node.host.indexHashtable src.receiverIndex with
  | none =>
    rw [hlookup] at hstart
    rw [alone_succ hstart, alone_returned rfl]
    exact ⟨rfl, rfl⟩
  | some p =>
  have hkref : kref p node = some (node.got p) := if_neg (hrefs p)
  rw [hlookup] at hstart
  dsimp only at hstart
  rw [if_neg (not_not.mpr (hentry p)), hkref] at hstart
  rw [alone_succ hstart]
  dsimp only
  -- every failure from here on gives the reference back
  have hfail : ∀ n, Returns (alone (responseStep P src) (n + 1) (.fail p) (node.got p)).2
      node.host (.done none) := by
    intro n
    rw [alone_succ rfl, alone_returned rfl]
    refine ⟨put_host ?_, rfl⟩
    rw [refcount_got]
    exact hrefs p
  by_cases hstate : (node.host.handshake p).state = .createdInitiation
  case neg =>
    have hcopy : responseStep P src (.copy p) (node.got p) = some (node.got p, .fail p) :=
      if_pos hstate
    rw [if_pos hstate, alone_succ hcopy]
    exact hfail 1
  have hcopy : responseStep P src (.copy p) (node.got p) =
      match readResponse P node.host.staticIdentity.staticPrivate src (node.host.handshake p) with
      | none => some (node.got p, .fail p)
      | some sym => some (node.got p, .commit ⟨p, (node.host.handshake p).state, sym⟩) :=
    if_neg (not_not.mpr hstate)
  rw [if_neg (not_not.mpr hstate)]
  cases hread : readResponse P node.host.staticIdentity.staticPrivate src
      (node.host.handshake p) with
  | none =>
    rw [hread] at hcopy
    rw [alone_succ hcopy]
    exact hfail 1
  | some sym =>
    rw [hread] at hcopy
    rw [alone_succ hcopy]
    -- nobody has touched the handshake since it was copied
    have hcommit : ∃ host, commitResponse src ⟨p, (node.host.handshake p).state, sym⟩ node.host =
        (host, some p) := ⟨_, if_neg (not_not.mpr rfl)⟩
    rcases hcommit with ⟨host, hcommit⟩
    have hstep : responseStep P src (.commit ⟨p, (node.host.handshake p).state, sym⟩)
        (node.got p) = some ({ node.got p with host := host }, .done (some p)) := by
      have hcommit' : commitResponse src ⟨p, (node.host.handshake p).state, sym⟩
          (node.got p).host = (host, some p) := hcommit
      rw [responseStep, hcommit']
    rw [alone_succ hstep, alone_returned rfl]
    dsimp only [Option.map_some]
    rw [hcommit]
    exact ⟨rfl, rfl⟩

end Alone

/-! ## What a section leaves alone -/

/-- Everything of a peer but the noted header and the reference count. -/
structure Kept (a b : Node) (p : ℕ) : Prop where
  handshake : (b.host.peers p).handshake = (a.host.peers p).handshake
  keypairs : (b.host.peers p).keypairs = (a.host.peers p).keypairs
  isDead : (b.host.peers p).isDead = (a.host.peers p).isDead
  cookie : b.cookie p = a.cookie p
  endpoint : b.endpoint p = a.endpoint p

/-- The noted header of a peer. -/
def Node.header (node : Node) (p : ℕ) : Bool := (node.host.peers p).advancedSecurity

theorem Kept.of_peers {a b : Node} (hpeers : b.host.peers = a.host.peers)
    (hcookie : b.cookie = a.cookie) (hendpoint : b.endpoint = a.endpoint) (p : ℕ) : Kept a b p := by
  constructor
  · rw [hpeers]
  · rw [hpeers]
  · rw [hpeers]
  · rw [hcookie]
  · rw [hendpoint]

variable {node' : Node}

theorem kref_some {p : ℕ} (h : kref p node = some node') :
    node'.host = node.host ∧ node'.cookie = node.cookie ∧ node'.endpoint = node.endpoint ∧
      ∀ q, node'.refcount q - node.refcount q = if q = p then 1 else 0 := by
  unfold kref at h
  split at h
  · cases h
  · cases h
    refine ⟨rfl, rfl, rfl, ?_⟩
    intro q
    show Function.update node.refcount p (node.refcount p + 1) q - node.refcount q = _
    by_cases hq : q = p
    · subst hq
      rw [Function.update_self, if_pos rfl]
      omega
    · rw [Function.update_of_ne hq, if_neg hq]
      omega

theorem wgPeerPut_peers (p : ℕ) (node : Node) : (wgPeerPut p node).host.peers = node.host.peers := by
  unfold wgPeerPut
  dsimp only
  split <;> rfl

theorem wgPeerPut_refs (p : ℕ) (node : Node) (q : ℕ) :
    (wgPeerPut p node).refcount q - node.refcount q = if q = p then -1 else 0 := by
  show Function.update node.refcount p (node.refcount p - 1) q - node.refcount q = _
  by_cases hq : q = p
  · subst hq
    rw [Function.update_self, if_pos rfl]
    omega
  · rw [Function.update_of_ne hq, if_neg hq]
    omega

/-! ## Sections of an initiation -/

section Initiation

variable {P} {src : MessageHandshakeInitiation} {env : ConsumeEnv}

/-- The references that the call holds at a program point. -/
def InitiationPc.held : InitiationPc → ℕ → ℤ
  | .found p _ _, q => if q = p then 1 else 0
  | .check r, q => if q = r.peer then 1 else 0
  | .commit r, q => if q = r.peer then 1 else 0
  | .out (some p), q => if q = p then 1 else 0
  | .done (some p), q => if q = p then 1 else 0
  | _, _ => 0

/-- Up to the lookup nothing is changed, or one reference is taken. -/
theorem openInitiation_cases (P : Primitives) (src : MessageHandshakeInitiation) (env : ConsumeEnv)
    (node : Node) :
    (openInitiation P src env node = (node, .out none) ∨
      openInitiation P src env node = (node, .fault)) ∨
    ∃ node' p sym, kref p node = some node' ∧
      openInitiation P src env node = (node', .found p (obfuscated src node'.host.wg) sym) := by
  unfold openInitiation
  dsimp only
  split
  · exact .inl (.inl rfl)
  split
  · exact .inl (.inl rfl)
  split
  · exact .inl (.inl rfl)
  split
  · -- unknown, or on its way out
    left
    split
    · exact .inl rfl
    · exact .inr rfl
  · next node' p hlookup =>
    right
    unfold wgPubkeyHashtableLookup at hlookup
    split at hlookup
    · cases hlookup
    · rcases Option.map_eq_some_iff.mp hlookup with ⟨node'', hkref, heq⟩
      cases heq
      exact ⟨node', p, _, hkref, rfl⟩

theorem held_readTimestamp (p : ℕ) (sym : Symmetric) (node : Node) (q : ℕ) :
    (readTimestamp P src p sym node).held q = if q = p then 1 else 0 := by
  unfold readTimestamp
  split
  · rfl
  split <;> rfl

/-- Every section changes the reference counts by what it takes or gives back. -/
theorem initiationStep_refs {pc pc' : InitiationPc}
    (h : initiationStep P src env pc node = some (node', pc')) (q : ℕ) :
    node'.refcount q - node.refcount q = pc'.held q - pc.held q := by
  cases pc with
  | start =>
    have h' := Option.some.inj h
    rcases openInitiation_cases P src env node with
      (heq | heq) | ⟨node'', p, sym, hkref, heq⟩
    · cases heq.symm.trans h'
      exact sub_self _
    · cases heq.symm.trans h'
      exact sub_self _
    · cases heq.symm.trans h'
      rw [(kref_some hkref).2.2.2 q]
      exact (sub_zero _).symm
  | found p adv sym =>
    cases h
    rw [held_readTimestamp]
    exact (sub_self _).trans (sub_self _).symm
  | check r =>
    rw [initiationStep] at h
    split at h <;> cases h <;> exact (sub_self _).trans (sub_self _).symm
  | commit r =>
    cases h
    exact (sub_self _).trans (sub_self _).symm
  | out p =>
    cases p with
    | none =>
      cases h
      exact sub_self _
    | some p =>
      cases h
      rw [wgPeerPut_refs]
      show _ = 0 - (if q = p then 1 else 0)
      split <;> rfl
  | done r => cases h
  | fault => cases h

theorem noteHeader_peers (p : ℕ) (adv : Bool) (node : Node) (q : ℕ) :
    (noteHeader p adv node).host.peers q =
      if q = p then { node.host.peers p with advancedSecurity := adv } else node.host.peers q :=
  Function.update_apply ..

theorem noteHeader_kept (p : ℕ) (adv : Bool) (node : Node) (q : ℕ) :
    Kept node (noteHeader p adv node) q := by
  have hpeers := noteHeader_peers p adv node q
  by_cases hq : q = p
  · subst hq
    rw [if_pos rfl] at hpeers
    constructor
    · rw [hpeers]
    · rw [hpeers]
    · rw [hpeers]
    · rfl
    · rfl
  · rw [if_neg hq] at hpeers
    constructor
    · rw [hpeers]
    · rw [hpeers]
    · rw [hpeers]
    · rfl
    · rfl

theorem noteHeader_header (p : ℕ) (adv : Bool) (node : Node) (q : ℕ) :
    (noteHeader p adv node).header q = if q = p then adv else node.header q := by
  rw [Node.header, noteHeader_peers]
  split
  · rfl
  · rfl

/-- A section that does not end in the commit leaves every peer alone, but for the noted
header; and it leaves that alone unless it notes another one. -/
theorem initiationStep_kept {pc pc' : InitiationPc}
    (h : initiationStep P src env pc node = some (node', pc')) (hpc' : ∀ q, pc' ≠ .done (some q)) :
    (∀ q, Kept node node' q) ∧
      ((∀ q, node'.header q = node.header q) ↔
        ∀ p adv sym, pc = .found p adv sym → node.header p = adv) := by
  -- all sections but one leave the peers as they are
  have hsame : node'.host.peers = node.host.peers → node'.cookie = node.cookie →
      node'.endpoint = node.endpoint → (∀ p adv sym, pc ≠ .found p adv sym) →
      (∀ q, Kept node node' q) ∧ ((∀ q, node'.header q = node.header q) ↔
        ∀ p adv sym, pc = .found p adv sym → node.header p = adv) := by
    intro hpeers hcookie hendpoint hne
    refine ⟨Kept.of_peers hpeers hcookie hendpoint, iff_of_true ?_ ?_⟩
    · intro q
      rw [Node.header, Node.header, hpeers]
    · intro p adv sym heq
      exact absurd heq (hne p adv sym)
  cases pc with
  | start =>
    have h' := Option.some.inj h
    rcases openInitiation_cases P src env node with
      (heq | heq) | ⟨node'', p, sym, hkref, heq⟩
    · cases heq.symm.trans h'
      exact hsame rfl rfl rfl (fun p adv sym heq => nomatch heq)
    · cases heq.symm.trans h'
      exact hsame rfl rfl rfl (fun p adv sym heq => nomatch heq)
    · cases heq.symm.trans h'
      rcases kref_some hkref with ⟨hhost, hcookie, hendpoint, -⟩
      exact hsame (by rw [hhost]) hcookie hendpoint (fun p adv sym heq => nomatch heq)
  | found p adv sym =>
    cases h
    refine ⟨noteHeader_kept p adv node, ?_⟩
    constructor
    · intro hheader p' adv' sym' heq
      cases heq
      have hp := noteHeader_header p adv node p
      rw [if_pos rfl] at hp
      exact (hheader p).symm.trans hp
    · intro hagree q
      refine (noteHeader_header p adv node q).trans ?_
      split
      · next hq =>
        subst hq
        exact (hagree q adv sym rfl).symm
      · rfl
  | check r =>
    rw [initiationStep] at h
    split at h <;> cases h <;> exact hsame rfl rfl rfl (fun p adv sym heq => nomatch heq)
  | commit r =>
    cases h
    exact absurd rfl (hpc' r.peer)
  | out p =>
    cases p with
    | none =>
      cases h
      exact hsame rfl rfl rfl (fun p adv sym heq => nomatch heq)
    | some p =>
      cases h
      exact hsame (wgPeerPut_peers p node) rfl rfl (fun p adv sym heq => nomatch heq)
  | done r => cases h
  | fault => cases h

end Initiation

/-! ## Sections of a response -/

section Response

variable {P} {src : MessageHandshakeResponse}

def ResponsePc.held : ResponsePc → ℕ → ℤ
  | .copy p, q => if q = p then 1 else 0
  | .commit r, q => if q = r.peer then 1 else 0
  | .fail p, q => if q = p then 1 else 0
  | .done (some p), q => if q = p then 1 else 0
  | _, _ => 0

theorem lookupHandshakeRef_spec (index : U32) (node : Node) :
    (lookupHandshakeRef index node).1.host = node.host ∧
      (lookupHandshakeRef index node).1.cookie = node.cookie ∧
      (lookupHandshakeRef index node).1.endpoint = node.endpoint ∧
      ∀ q, (lookupHandshakeRef index node).1.refcount q - node.refcount q =
        match (lookupHandshakeRef index node).2 with
        | none => 0
        | some p => if q = p then 1 else 0 := by
  unfold lookupHandshakeRef
  split
  · exact ⟨rfl, rfl, rfl, fun q => sub_self _⟩
  split
  · exact ⟨rfl, rfl, rfl, fun q => sub_self _⟩
  split
  · exact ⟨rfl, rfl, rfl, fun q => sub_self _⟩
  · next node' hkref => exact kref_some hkref

/-- Every section changes the reference counts by what it takes or gives back. -/
theorem responseStep_refs {pc pc' : ResponsePc} (h : responseStep P src pc node = some (node', pc'))
    (q : ℕ) : node'.refcount q - node.refcount q = pc'.held q - pc.held q := by
  cases pc with
  | start =>
    rw [responseStep] at h
    split at h
    · cases h
      exact sub_self _
    · have hrefs := (lookupHandshakeRef_spec src.receiverIndex node).2.2.2 q
      rcases hlookup : lookupHandshakeRef src.receiverIndex node with ⟨node'', found⟩
      rw [hlookup] at h hrefs
      cases found with
      | none =>
        cases h
        exact hrefs
      | some p =>
        cases h
        exact hrefs.trans (sub_zero _).symm
  | copy p =>
    rw [responseStep] at h
    split at h
    · cases h
      exact (sub_self _).trans (sub_self _).symm
    split at h <;> cases h <;> exact (sub_self _).trans (sub_self _).symm
  | commit r =>
    rw [responseStep] at h
    rcases commitResponse_cases src r node.host with ⟨-, heq⟩ | ⟨-, host, heq, -⟩
    · rw [heq] at h
      cases h
      exact (sub_self _).trans (sub_self _).symm
    · rw [heq] at h
      cases h
      exact (sub_self _).trans (sub_self _).symm
  | fail p =>
    cases h
    rw [wgPeerPut_refs]
    show _ = 0 - (if q = p then 1 else 0)
    split <;> rfl
  | done r => cases h

/-- A section that does not end in the commit leaves every peer alone. -/
theorem responseStep_kept {pc pc' : ResponsePc} (h : responseStep P src pc node = some (node', pc'))
    (hpc' : ∀ q, pc' ≠ .done (some q)) :
    (∀ q, Kept node node' q) ∧ ∀ q, node'.header q = node.header q := by
  have hsame : node'.host.peers = node.host.peers → node'.cookie = node.cookie →
      node'.endpoint = node.endpoint →
      (∀ q, Kept node node' q) ∧ ∀ q, node'.header q = node.header q := by
    intro hpeers hcookie hendpoint
    refine ⟨Kept.of_peers hpeers hcookie hendpoint, ?_⟩
    intro q
    rw [Node.header, Node.header, hpeers]
  cases pc with
  | start =>
    rw [responseStep] at h
    split at h
    · cases h
      exact hsame rfl rfl rfl
    · have hspec := lookupHandshakeRef_spec src.receiverIndex node
      rcases hlookup : lookupHandshakeRef src.receiverIndex node with ⟨node'', found⟩
      rw [hlookup] at h hspec
      rcases hspec with ⟨hhost, hcookie, hendpoint, -⟩
      cases found with
      | none =>
        cases h
        exact hsame (congrArg Host.peers hhost) hcookie hendpoint
      | some p =>
        cases h
        exact hsame (congrArg Host.peers hhost) hcookie hendpoint
  | copy p =>
    rw [responseStep] at h
    split at h
    · cases h
      exact hsame rfl rfl rfl
    split at h <;> cases h <;> exact hsame rfl rfl rfl
  | commit r =>
    rw [responseStep] at h
    rcases commitResponse_cases src r node.host with ⟨-, heq⟩ | ⟨-, host, heq, -⟩
    · -- the state has changed in the meantime
      rw [heq] at h
      cases h
      exact hsame rfl rfl rfl
    · rw [heq] at h
      cases h
      exact absurd rfl (hpc' r.peer)
  | fail p =>
    cases h
    exact hsame (wgPeerPut_peers p node) rfl rfl
  | done r => cases h

end Response

/-! ## Result -/

/-- The sections change nothing of any peer, and give back all references. Without others
in between, every peer is at the end as it was at the start. -/
structure Untouched {π : Type} (run : List (Section π Node)) : Prop where
  kept : ∀ e ∈ run, ∀ p, Kept e.before e.after p
  header : ∀ e ∈ run, ∀ p, e.after.header p = e.before.header p
  refs : ∀ p, net (fun node => node.refcount p) run = 0
  alone : ∀ node node', Chained node run node' → ∀ p,
    Kept node node' p ∧ node'.header p = node.header p ∧ node'.refcount p = node.refcount p

/-- Everything that is kept, as one value. -/
def Node.kept (p : ℕ) (node : Node) : NoiseHandshake × NoiseKeypairs × Bool × Bytes × Bytes :=
  ((node.host.peers p).handshake, (node.host.peers p).keypairs, (node.host.peers p).isDead,
    node.cookie p, node.endpoint p)

theorem kept_iff {a b : Node} {p : ℕ} : Kept a b p ↔ b.kept p = a.kept p := by
  simp only [Node.kept, Prod.mk.injEq]
  constructor
  · intro h
    exact ⟨h.handshake, h.keypairs, h.isDead, h.cookie, h.endpoint⟩
  · rintro ⟨h₁, h₂, h₃, h₄, h₅⟩
    exact ⟨h₁, h₂, h₃, h₄, h₅⟩

theorem Untouched.of_sections {π : Type} {run : List (Section π Node)}
    (hkept : ∀ e ∈ run, ∀ p, Kept e.before e.after p)
    (hheader : ∀ e ∈ run, ∀ p, e.after.header p = e.before.header p)
    (hrefs : ∀ p, net (fun node => node.refcount p) run = 0) : Untouched run := by
  refine ⟨hkept, hheader, hrefs, ?_⟩
  intro node node' hchained p
  refine ⟨kept_iff.mpr (hchained.preserved fun e he => kept_iff.mp (hkept e he p)), ?_, ?_⟩
  · exact hchained.preserved (f := fun node : Node => node.header p) fun e he => hheader e he p
  · have htotal := (hchained.net_eq fun node : Node => node.refcount p).symm.trans (hrefs p)
    exact sub_eq_zero.mp htotal

/-- The header that a rejected initiation notes is the one that its peer has anyway. -/
def NotesSame (run : List (Section InitiationPc Node)) : Prop :=
  ∀ e ∈ run, ∀ p adv sym, e.pc = .found p adv sym → e.before.header p = adv

/-- A message that is rejected leaves every peer untouched, whatever others do between its
sections: a response always, an initiation exactly if it notes no other header. -/
theorem rejected_untouched (P : Primitives) :
    (∀ src env run, Runs (initiationStep P src env) .start run (.done none) →
      ((Untouched run ↔ NotesSame run) ∧ (∀ e ∈ run, ∀ p, Kept e.before e.after p) ∧
        ∀ p, net (fun node => node.refcount p) run = 0)) ∧
    ∀ src run, Runs (responseStep P src) .start run (.done none) → Untouched run := by
  constructor
  · intro src env run hrun
    have hsections : ∀ e ∈ run, (∀ q, Kept e.before e.after q) ∧
        ((∀ q, e.after.header q = e.before.header q) ↔
          ∀ p adv sym, e.pc = .found p adv sym → e.before.header p = adv) := by
      refine hrun.sections ?_
      intro pc node node' pc' rest hstep hrest
      refine initiationStep_kept hstep ?_
      rintro q rfl
      -- the commit would have returned a peer
      cases hrest.of_returned fun _ => rfl
    have hkept : ∀ e ∈ run, ∀ p, Kept e.before e.after p := fun e he => (hsections e he).1
    have hrefs : ∀ p, net (fun node => node.refcount p) run = 0 := fun p =>
      hrun.net_eq (fun pc => pc.held p) fun pc node node' pc' hstep =>
        initiationStep_refs hstep p
    refine ⟨⟨?_, ?_⟩, hkept, hrefs⟩
    · intro huntouched e he
      exact (hsections e he).2.mp (huntouched.header e he)
    · intro hnotes
      exact Untouched.of_sections hkept (fun e he => (hsections e he).2.mpr (hnotes e he)) hrefs
  · intro src run hrun
    have hsections : ∀ e ∈ run, (∀ q, Kept e.before e.after q) ∧
        ∀ q, e.after.header q = e.before.header q := by
      refine hrun.sections ?_
      intro pc node node' pc' rest hstep hrest
      refine responseStep_kept hstep ?_
      rintro q rfl
      cases hrest.of_returned fun _ => rfl
    refine Untouched.of_sections (fun e he => (hsections e he).1) (fun e he => (hsections e he).2) ?_
    intro p
    exact hrun.net_eq (fun pc => pc.held p) fun pc node node' pc' hstep =>
      responseStep_refs hstep p

/-- A device with obfuscated headers that has not heard of its peer yet. -/
def sampleNode : Node where
  host := { sampleB with wg := { wgSetup with advancedSecurity := true } }
  refcount := fun _ => 1
  entryPeer := fun _ => true
  cookie := fun _ => []
  endpoint := fun _ => []

/-- An initiation that names the peer, as anyone can write it, with no timestamp. -/
def forgedInitiation (type : U32) : MessageHandshakeInitiation :=
  match (writeInitiation samplePrimitives sampleA.staticIdentity (sampleEnv 3)
      (sampleA.handshake 0)).2 with
  | none => ⟨type, 1, [], [], []⟩
  | some body => ⟨type, 1, body.ephemeral, body.encryptedStatic, []⟩

/-- The forged initiation on the device, alone. -/
@[irreducible] def forgedRun (type : U32) : List (Section InitiationPc Node) × Node × InitiationPc :=
  alone (initiationStep samplePrimitives (forgedInitiation type) ⟨true, 0, 0⟩) 5 .start sampleNode

theorem forgedRun_rejected {type : U32}
    (h : (wgNoiseHandshakeConsumeInitiation samplePrimitives (forgedInitiation type) 0 0
      sampleNode.host).2 = none) :
    Runs (initiationStep samplePrimitives (forgedInitiation type) ⟨true, 0, 0⟩) .start
        (forgedRun type).1 (.done none) ∧
      Chained sampleNode (forgedRun type).1 (forgedRun type).2.1 := by
  unfold forgedRun
  exact alone_rejected (forgedInitiation type) rfl (fun _ => one_ne_zero) h

/-- The header is noted before the timestamp shows who wrote the message. -/
theorem forged_header_noted :
    ∃ run node, Runs (initiationStep samplePrimitives (forgedInitiation 1) ⟨true, 0, 0⟩) .start run
        (.done none) ∧
      Chained sampleNode run node ∧ sampleNode.header 0 = false ∧ node.header 0 = true :=
  ⟨(forgedRun 1).1, (forgedRun 1).2.1, (forgedRun_rejected (by decide +kernel)).1,
    (forgedRun_rejected (by decide +kernel)).2, by decide +kernel, by decide +kernel⟩

/-- With a header that is not obfuscated, nothing is noted. -/
theorem rejected_untouched_plain : Untouched (forgedRun 2).1 ∧ (forgedRun 2).1.length = 3 := by
  refine ⟨?_, by decide +kernel⟩
  refine ((rejected_untouched samplePrimitives).1 _ _ _ (forgedRun_rejected ?_).1).1.mpr ?_
  · decide +kernel
  · have hall : (forgedRun 2).1.all (fun e => match e.pc with
        | .found p adv _ => e.before.header p == adv
        | _ => true) = true := by decide +kernel
    intro e he p adv sym hpc
    have hsame := List.all_eq_true.mp hall e he
    rw [hpc] at hsame
    exact beq_iff_eq.mp hsame

end AmneziaWg.Noise.Reject
