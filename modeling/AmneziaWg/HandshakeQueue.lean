import AmneziaWg.Receive
import AmneziaWg.Lib.Machine
import Mathlib.Data.List.Pairwise

/-!
# The handshake queue and reconfiguration

A datagram is classified when it arrives, by its length and its type word. The
handshake worker takes it from the queue later and decides its type again, from the
type word alone, with the ranges of that moment. In between the device may be
reconfigured.

* **Model**: `prepareSkbHeader`, `wgPacketReceive`, `wgReceiveHandshakePacket`, and the
  machine of arrivals, worker steps and accepted requests.
* **Safety**: `processed_as_admitted`, over all runs in which no accepted request moves
  a range of another kind over the type word of a queued packet.
-/

namespace AmneziaWg.HandshakeQueue

open Linux Stepwise

/-! ## Model layer -/

/-- `MAX_QUEUED_INCOMING_HANDSHAKES`. -/
def maxQueuedIncomingHandshakes : ℕ := 4096

/-- A packet in the queue, with the kind that it was admitted as. The kind is not
stored by the source. -/
structure Queued where
  kind : MsgIdx
  skb : Skb
deriving DecidableEq, Repr

/-- A packet that the worker is done with, and the messages that it was read as. -/
structure Processed where
  packet : Queued
  casts : List MsgIdx
deriving DecidableEq, Repr

structure State where
  host : DevState
  queue : List Queued
  /-- The static `last_under_load`. -/
  lastUnderLoad : U64
  done : List Processed

/-- What an arrival depends on beside the datagram and the device. -/
structure ArrivalEnv where
  /-- IP and UDP headers and the UDP length are sound, and the pull succeeds. -/
  headersOk : Bool := true
  linear : Bool := true
  rngInitialized : Bool := true
  producerFree : Bool := true
deriving DecidableEq, Repr

/-- `prepare_skb_header`, on the payload of the datagram. -/
def prepareSkbHeader (wg : WgDevice) (env : ArrivalEnv) (payload : Bytes) : Option Queued :=
  if env.headersOk then
    match prepareAwgMessage wg env.linear ⟨payload, 0⟩ with
    | (none, _) => none
    | (some k, skb) => if returnedSize k ≤ skb.len then some ⟨k, skb⟩ else none
  else none

/-- The dispatch of `wg_packet_receive`: the type word is one of a handshake message. -/
def IsHandshake (wg : WgDevice) (type : U32) : Prop :=
  mhValidate type (wg.headers .init) ∨ mhValidate type (wg.headers .response) ∨
    mhValidate type (wg.headers .cookie)

instance (wg : WgDevice) (type : U32) : Decidable (IsHandshake wg type) :=
  inferInstanceAs (Decidable (_ ∨ _))

/-- The producer side of the queue. Beyond half of its size it only tries the lock. -/
def Accepts (env : ArrivalEnv) (len : ℕ) : Prop :=
  env.rngInitialized ∧ (len > maxQueuedIncomingHandshakes / 2 → env.producerFree) ∧
    len < maxQueuedIncomingHandshakes

instance (env : ArrivalEnv) (len : ℕ) : Decidable (Accepts env len) :=
  inferInstanceAs (Decidable (_ ∧ _ ∧ _))

/-- `wg_packet_receive`, as far as the queue goes. -/
def wgPacketReceive (env : ArrivalEnv) (payload : Bytes) (s : State) : State :=
  match prepareSkbHeader s.host.dev env payload with
  | none => s
  | some p =>
    if IsHandshake s.host.dev p.skb.type then
      if Accepts env s.queue.length then { s with queue := s.queue ++ [p] } else s
    else s

/-- `enum cookie_mac_state`. -/
inductive CookieMacState where
  | invalidMac
  | validMacButNoCookie
  | validMacWithCookieButRatelimited
  | validMacWithCookie
deriving DecidableEq, Repr

/-- What a worker step depends on beside the packet and the device. -/
structure WorkerEnv where
  now : U64 := 0
  mac1Valid : Bool := true
  mac2Valid : Bool := true
  ratelimiterAllows : Bool := true
  initiationConsumed : Bool := true
  responseConsumed : Bool := true
deriving DecidableEq, Repr

/-- `wg_birthdate_has_expired`, in signed 64 bits. -/
def wgBirthdateHasExpired (now birthday seconds : U64) : Bool :=
  (birthday + seconds * 1000000000).sle now

/-- `wg_cookie_validate_packet`. -/
def wgCookieValidatePacket (env : WorkerEnv) (checkCookie : Bool) : CookieMacState :=
  if ¬ env.mac1Valid then .invalidMac
  else if ¬ checkCookie then .validMacButNoCookie
  else if ¬ env.mac2Valid then .validMacButNoCookie
  else if ¬ env.ratelimiterAllows then .validMacWithCookieButRatelimited
  else .validMacWithCookie

/-- The load at a queue length, and the new `last_under_load`. -/
def underLoad (now : U64) (len : ℕ) (last : U64) : Bool × U64 :=
  if len ≥ maxQueuedIncomingHandshakes / 8 then (true, now)
  else if last = 0 then (false, last)
  else if wgBirthdateHasExpired now last 1 then (false, 0)
  else (true, last)

/-- `packet_needs_cookie`, or `none` if the packet is dropped. -/
def packetNeedsCookie (load : Bool) (mac : CookieMacState) : Option Bool :=
  match load, mac with
  | true, .validMacWithCookie => some false
  | false, .validMacButNoCookie => some false
  | true, .validMacButNoCookie => some true
  | _, _ => none

/-- The part of `wg_receive_handshake_packet` behind the MAC: a consumed initiation goes
on to the test for a response. -/
def consumeHandshake (wg : WgDevice) (env : WorkerEnv) (needsCookie : Bool) (type : U32) :
    List MsgIdx :=
  let response := if mhValidate type (wg.headers .response) then [MsgIdx.response] else []
  if mhValidate type (wg.headers .init) then
    if needsCookie ∨ ¬ env.initiationConsumed then [.init] else .init :: response
  else response

/-- `wg_receive_handshake_packet`: the structs that the packet is cast to, in order. -/
def wgReceiveHandshakePacket (wg : WgDevice) (env : WorkerEnv) (load : Bool) (skb : Skb) :
    List MsgIdx :=
  if mhValidate skb.type (wg.headers .cookie) then [.cookie]
  else
    match packetNeedsCookie load (wgCookieValidatePacket env load) with
    | none => []
    | some needsCookie => consumeHandshake wg env needsCookie skb.type

inductive Label where
  | arrive (env : ArrivalEnv) (payload : Bytes)
  | work (env : WorkerEnv)
  | setDevice (mem : Kmalloc) (req : Request)

/-- One step of the handshake worker. A received cookie reply does not look at the load. -/
def workStep (env : WorkerEnv) (s : State) : Option State :=
  match s.queue with
  | [] => none
  | p :: rest =>
    let load := underLoad env.now s.queue.length s.lastUnderLoad
    some { s with
      queue := rest
      lastUnderLoad :=
        if mhValidate p.skb.type (s.host.dev.headers .cookie) then s.lastUnderLoad else load.2
      done := s.done ++ [⟨p, wgReceiveHandshakePacket s.host.dev env load.1 p.skb⟩] }

/-- The machine: a request is a step if it is accepted. -/
def machine : Machine State Label where
  step s
    | .arrive env payload => some (wgPacketReceive env payload s)
    | .work env => workStep env s
    | .setDevice mem req =>
      if (wgSetDevice mem req s.host).err = none then
        some { s with host := (wgSetDevice mem req s.host).state }
      else none

/-- A new device, with an empty queue. -/
def start : State := ⟨⟨wgSetup, 0⟩, [], 0, []⟩

/-! ## Ranges -/

/-- The ranges of the device do not overlap. -/
def RangesApart (wg : WgDevice) : Prop := (msgIdxs.map wg.headers).Pairwise MagicHeader.Apart

/-- A type word belongs to one kind only. -/
theorem RangesApart.unique {wg : WgDevice} (h : RangesApart wg) {w : U32} {j k : MsgIdx}
    (hj : mhValidate w (wg.headers j)) (hk : mhValidate w (wg.headers k)) : j = k := by
  by_contra hne
  exact (headers_apart h hne).disjoint hj hk

/-- An accepted request sets the ranges it names, and leaves no overlap. -/
theorem wgSetDevice_headers {mem : Kmalloc} {req : Request} {s : DevState}
    (hapart : RangesApart s.dev) (h : (wgSetDevice mem req s).err = none) :
    RangesApart (wgSetDevice mem req s).state.dev ∧
      ∀ k, (wgSetDevice mem req s).state.dev.headers k = req.header s.dev k := by
  rcases Outcome.andThen_success h with ⟨hok, heq⟩
  have hstate : (wgSetDevice mem req s).state = (configure mem req s).state := by
    rw [wgSetDevice, heq]
  rw [hstate]
  rcases configure_accepted hok with ⟨-, hnil, hdev⟩ | ⟨idx, hvalid, hrun, hdev⟩
  · rw [hdev]
    refine ⟨hapart, ?_⟩
    intro k
    -- no attributes at all, so none for this range
    have hrun : (run (setAttr mem) req.attrs s).err = none := by
      rw [hnil]
      rfl
    rw [← writeAll_header hrun k, hnil]
    rfl
  · rw [hdev]
    refine ⟨hvalid.headers, ?_⟩
    intro k
    rw [← writeAll_header hrun k]
    show (adjustJmax _).headers k = _
    unfold adjustJmax
    split <;> rfl

/-! ## Admission -/

/-- No handshake range but its own contains the type word of the packet. -/
def Own (headers : MsgIdx → MagicHeader) (p : Queued) : Prop :=
  ∀ j, j ≠ .transport → j ≠ p.kind → ¬ mhValidate p.skb.type (headers j)

theorem len_pull {skb : Skb} {n : ℕ} (h : n ≤ skb.len) : (skb.pull n).len = skb.len - n := by
  rw [Skb.pull, if_pos h]
  exact Nat.sub_add_eq ..

/-- What is put into the queue has the size of its kind, and a type word of that kind. -/
theorem prepareSkbHeader_handshake {wg : WgDevice} (hapart : RangesApart wg) {env : ArrivalEnv}
    {payload : Bytes} {p : Queued} (h : prepareSkbHeader wg env payload = some p)
    (hdispatch : IsHandshake wg p.skb.type) :
    p.skb.len = p.kind.messageSize ∧ mhValidate p.skb.type (wg.headers p.kind) := by
  unfold prepareSkbHeader at h
  split at h
  swap
  · cases h
  split at h
  · cases h
  next k skb hprepare =>
  split at h
  swap
  · cases h
  cases h
  rcases prepareAwgMessage_some hprepare with ⟨hlen, hskb, htype⟩
  refine ⟨?_, htype⟩
  show skb.len = k.messageSize
  -- the dispatch excludes transport data, whose length is not fixed
  have hk : k ≠ .transport := by
    rintro rfl
    rcases hdispatch with hw | hw | hw <;> exact absurd (hapart.unique hw htype) (by decide)
  have hexact : Skb.len ⟨payload, 0⟩ = (wg.junkSize k).toNat + k.messageSize := by
    cases k with
    | transport => exact absurd rfl hk
    | _ => exact hlen
  rw [hskb, len_pull (by omega)]
  omega

/-! ## Processing -/

/-- A packet is only read as the kind that it was admitted as, and has its size. -/
def AsAdmitted (p : Processed) : Prop :=
  ∀ k ∈ p.casts, k = p.packet.kind ∧ p.packet.skb.len = k.messageSize

/-- The worker casts to a kind only after it tested its range. -/
theorem casts_validate {wg : WgDevice} {env : WorkerEnv} {load : Bool} {skb : Skb} {k : MsgIdx}
    (h : k ∈ wgReceiveHandshakePacket wg env load skb) :
    k ≠ .transport ∧ mhValidate skb.type (wg.headers k) := by
  have hresponse : ∀ {w : U32}, k ∈ (if mhValidate w (wg.headers .response) then
      [MsgIdx.response] else []) → k = .response ∧ mhValidate w (wg.headers .response) := by
    intro w hk
    split at hk
    · next hw => exact ⟨List.mem_singleton.mp hk, hw⟩
    · cases hk
  unfold wgReceiveHandshakePacket at h
  split at h
  · next hw =>
    rw [List.mem_singleton] at h
    subst h
    exact ⟨by decide, hw⟩
  split at h
  · cases h
  unfold consumeHandshake at h
  dsimp only at h
  split at h
  · next hw =>
    split at h
    · rw [List.mem_singleton] at h
      subst h
      exact ⟨by decide, hw⟩
    · -- a consumed initiation falls through
      rcases List.mem_cons.mp h with rfl | h
      · exact ⟨by decide, hw⟩
      · rcases hresponse h with ⟨rfl, hw'⟩
        exact ⟨by decide, hw'⟩
  · rcases hresponse h with ⟨rfl, hw⟩
    exact ⟨by decide, hw⟩

/-! ## Safety -/

structure Inv (s : State) : Prop where
  apart : RangesApart s.host.dev
  sized : ∀ p ∈ s.queue, p.skb.len = p.kind.messageSize
  own : ∀ p ∈ s.queue, Own s.host.dev.headers p
  done : ∀ p ∈ s.done, AsAdmitted p

/-- The condition on a step: a request leaves the type word of every queued packet
outside of the handshake ranges of the other kinds. -/
def Keeps (s : State) : Label → Prop
  | .setDevice _ req => ∀ p ∈ s.queue, Own (req.header s.host.dev) p
  | _ => True

theorem start_inv : Inv start := by
  refine ⟨?_, ?_, ?_, ?_⟩
  · show (msgIdxs.map wgSetup.headers).Pairwise MagicHeader.Apart
    decide
  all_goals
    intro p hp
    cases hp

theorem receive_inv {s : State} (hinv : Inv s) (env : ArrivalEnv) (payload : Bytes) :
    Inv (wgPacketReceive env payload s) := by
  unfold wgPacketReceive
  split
  · exact hinv
  next p hp =>
  split
  swap
  · exact hinv
  next hdispatch =>
  split
  swap
  · exact hinv
  rcases prepareSkbHeader_handshake hinv.apart hp hdispatch with ⟨hsize, htype⟩
  have hqueue : ∀ q ∈ s.queue ++ [p], q ∈ s.queue ∨ q = p := by
    intro q hq
    rwa [List.mem_append, List.mem_singleton] at hq
  refine ⟨hinv.apart, ?_, ?_, hinv.done⟩
  · intro q hq
    rcases hqueue q hq with hq | rfl
    · exact hinv.sized q hq
    · exact hsize
  · intro q hq
    rcases hqueue q hq with hq | rfl
    · exact hinv.own q hq
    · -- its type word is in its own range, so in no other
      intro j _ hne hj
      exact hne (hinv.apart.unique hj htype)

theorem work_inv {s s' : State} (hinv : Inv s) {env : WorkerEnv} (h : workStep env s = some s') :
    Inv s' := by
  unfold workStep at h
  split at h
  · cases h
  next p rest hqueue =>
  cases h
  have hp : p ∈ s.queue := by
    rw [hqueue]
    exact List.mem_cons_self ..
  have hrest : ∀ q ∈ rest, q ∈ s.queue := by
    intro q hq
    rw [hqueue]
    exact List.mem_cons_of_mem p hq
  refine ⟨hinv.apart, fun q hq => hinv.sized q (hrest q hq),
    fun q hq => hinv.own q (hrest q hq), ?_⟩
  intro d hd
  rcases List.mem_append.mp hd with hd | hd
  · exact hinv.done d hd
  · rw [List.mem_singleton] at hd
    subst hd
    intro k hk
    rcases casts_validate hk with ⟨hkt, htype⟩
    have hkind : k = p.kind := by
      by_contra hne
      exact hinv.own p hp k hkt hne htype
    exact ⟨hkind, hkind ▸ hinv.sized p hp⟩

theorem step_inv : ∀ s l s', Inv s → Keeps s l → machine.step s l = some s' → Inv s' := by
  intro s l s' hinv hkeeps hstep
  cases l with
  | arrive env payload =>
    cases hstep
    exact receive_inv hinv env payload
  | work env => exact work_inv hinv hstep
  | setDevice mem req =>
    dsimp only [machine] at hstep
    split at hstep
    swap
    · cases hstep
    next hok =>
    cases hstep
    rcases wgSetDevice_headers hinv.apart hok with ⟨hapart, hheaders⟩
    refine ⟨hapart, hinv.sized, ?_, hinv.done⟩
    intro p hp j hjt hne
    show ¬ mhValidate _ ((wgSetDevice mem req s.host).state.dev.headers j)
    rw [hheaders j]
    exact hkeeps p hp j hjt hne

/-- In every run whose requests keep the ranges of other kinds away from the queued
packets, every packet is processed as it was admitted. -/
theorem processed_as_admitted (ls : List Label) (s : State)
    (hkeeps : machine.AllSteps Keeps start ls) (hrun : machine.run start ls = some s) :
    ∀ p ∈ s.done, AsAdmitted p :=
  (machine.runs_invariant step_inv start_inv hkeeps hrun).done

/-! ## Runs -/

instance (headers : MsgIdx → MagicHeader) (p : Queued) : Decidable (Own headers p) :=
  decidable_of_iff (∀ j ∈ msgIdxs, j ≠ .transport → j ≠ p.kind → ¬ mhValidate p.skb.type (headers j))
    ⟨fun h j => h j (mem_msgIdxs j), fun h j _ => h j⟩

instance decidableKeeps (s : State) : (l : Label) → Decidable (Keeps s l)
  | .setDevice _ req => inferInstanceAs (Decidable (∀ p ∈ s.queue, Own (req.header s.host.dev) p))
  | .arrive _ _ => .isTrue trivial
  | .work _ => .isTrue trivial

instance (s : State) (ls : List Label) : Decidable (machine.AllSteps Keeps s ls) :=
  machine.decidableAllSteps decidableKeeps s ls

/-- `H1` and `H2` exchanged. -/
def exchange : Request where
  h := fun k => match k with
    | .init => some (ascii "2")
    | .response => some (ascii "1")
    | _ => none

/-- `H1` moved to words that were not in use. -/
def moveAway : Request where
  h := fun k => if k = .init then some (ascii "100-199") else none

/-- A response arrives, the device is reconfigured, the worker runs. -/
def reconfigured (req : Request) : List Label :=
  [.arrive {} plainResponse, .setDevice .generous req, .work {}]

/-- A queued response is read as an initiation once the ranges are exchanged: 92 bytes
are taken for a struct of 148. -/
theorem response_read_as_initiation :
    (machine.run start (reconfigured exchange)).map State.done =
        some [⟨⟨.response, ⟨plainResponse, 0⟩⟩, [.init]⟩] ∧
      ¬ AsAdmitted ⟨⟨.response, ⟨plainResponse, 0⟩⟩, [.init]⟩ := by
  refine ⟨by decide +kernel, ?_⟩
  intro h
  rcases h .init (List.mem_singleton_self _) with ⟨hkind, -⟩
  cases hkind

theorem processed_as_admitted_moveAway :
    ∃ s, machine.run start (reconfigured moveAway) = some s ∧
      s.done = [⟨⟨.response, ⟨plainResponse, 0⟩⟩, [.response]⟩] ∧ ∀ p ∈ s.done, AsAdmitted p := by
  have hdone : (machine.run start (reconfigured moveAway)).map State.done =
      some [⟨⟨.response, ⟨plainResponse, 0⟩⟩, [.response]⟩] := by
    decide +kernel
  rcases Option.map_eq_some_iff.mp hdone with ⟨s, hs, hdone⟩
  exact ⟨s, hs, hdone, processed_as_admitted _ s (by decide +kernel) hs⟩

end AmneziaWg.HandshakeQueue
