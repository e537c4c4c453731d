import AmneziaWg.Counter
import AmneziaWg.Transport
import AmneziaWg.Lib.Threads
import AmneziaWg.Lib.Machine
import Mathlib.Data.List.Nodup

/-!
# The staged queue

Packets for a peer wait in its staged queue. `wg_packet_send_staged_packets` steals the
queue, gives every packet a nonce from the counter of the current keypair and hands the
batch over; where it cannot, it puts the batch back. Calls of it overlap.

* **Model**: `callStep`, one access to shared state of one call; the machine of calls,
  arriving packets, keypair replacement and expiry.
* **Bound**: `Room`, how far calls in progress can drive a counter beyond its limit.
* **Safety**: `staged_packets_safe`, over all runs.
-/

namespace AmneziaWg.StagedQueue

open Linux HandshakeQueue Threads

/-! ## Model layer -/

/-- `MAX_STAGED_PACKETS`. -/
def maxStagedPackets : ℕ := 128

/-- A packet, with the nonce of its control block. -/
structure Packet where
  id : ℕ
  nonce : U64 := 0
deriving DecidableEq, Repr

/-- The identities of packets, in order. -/
def ids (packets : List Packet) : List ℕ := packets.map Packet.id

theorem ids_append (xs ys : List Packet) : ids (xs ++ ys) = ids xs ++ ids ys :=
  List.map_append

/-- What sending reads and writes of a `noise_keypair`. -/
structure Keypair where
  sendingCounter : U64
  isValid : Bool
  birthdate : U64
deriving DecidableEq, Repr

/-- A list of packets as `wg_packet_create_data` gets it, with its keypair. -/
structure Batch where
  keypair : ℕ
  packets : List Packet
deriving DecidableEq, Repr

/-- The shared state. -/
structure Peer where
  stagedPacketQueue : List Packet
  keypairs : ℕ → Keypair
  /-- The number of keypairs made so far. -/
  created : ℕ
  currentKeypair : Option ℕ
  /-- The coarse boot time, in nanoseconds. -/
  now : U64
  /-- The calls of `wg_packet_create_data`, oldest first. -/
  handed : List Batch
  /-- All packets that were ever staged, and those dropped from the queue again. -/
  arrived : List ℕ
  dropped : List ℕ

/-- Where a call of `wg_packet_send_staged_packets` stands, by what it does next. -/
inductive Pc where
  /-- Get the current keypair. -/
  | take
  /-- Read `sending.is_valid`. -/
  | check (k : ℕ)
  /-- Compare `sending.birthdate`. -/
  | expiry (k : ℕ)
  /-- Give packet `pos` its nonce, or hand the packets over after the last. -/
  | assign (k pos : ℕ)
  /-- `out_invalid`. -/
  | invalid (k : ℕ)
  /-- `out_nokey`. -/
  | nokey
deriving DecidableEq, Repr

structure Call where
  /-- What was stolen. The source does not keep it. -/
  stolen : List ℕ
  packets : List Packet
  pc : Pc
deriving DecidableEq, Repr

def Call.goto (c : Call) (pc : Pc) : Call := { c with pc := pc }

/-- Packet `pos` of the call gets a nonce. -/
def Call.number (c : Call) (pos : ℕ) (packet : Packet) (nonce : U64) : Call :=
  { c with packets := c.packets.set pos { packet with nonce := nonce } }

/-- The increment of the sending counter. -/
def Peer.count (p : Peer) (k : ℕ) : Peer :=
  { p with
    keypairs := Function.update p.keypairs k
      { p.keypairs k with sendingCounter := (p.keypairs k).sendingCounter + 1 } }

/-- `sending.is_valid` becomes false. -/
def Peer.invalidate (p : Peer) (k : ℕ) : Peer :=
  { p with keypairs := Function.update p.keypairs k { p.keypairs k with isValid := false } }

/-- The next step of a call: the shared state after it, and the call unless it is done.
`live` says that `wg_noise_keypair_get` still finds a reference. -/
def callStep (live : Bool) (p : Peer) (c : Call) : Peer × Option Call :=
  match c.pc with
  | .take =>
    match p.currentKeypair with
    | none => (p, some (c.goto .nokey))
    | some k => if live then (p, some (c.goto (.check k))) else (p, some (c.goto .nokey))
  | .check k =>
    if (p.keypairs k).isValid then (p, some (c.goto (.expiry k)))
    else (p, some (c.goto .nokey))
  | .expiry k =>
    if wgBirthdateHasExpired p.now (p.keypairs k).birthdate rejectAfterTime then
      (p, some (c.goto (.invalid k)))
    else (p, some (c.goto (.assign k 0)))
  | .assign k pos =>
    match c.packets[pos]? with
    | none => ({ p with handed := p.handed ++ [⟨k, c.packets⟩] }, none)
    | some packet =>
      let p' := p.count k
      let nonce := (p'.keypairs k).sendingCounter - 1
      let c' := c.number pos packet nonce
      if nonce ≥ BitVec.ofNat 64 rejectAfterMessages then (p', some (c'.goto (.invalid k)))
      else (p', some (c'.goto (.assign k (pos + 1))))
  | .invalid k => (p.invalidate k, some (c.goto .nokey))
  | .nokey => ({ p with stagedPacketQueue := c.packets ++ p.stagedPacketQueue }, none)

structure State where
  peer : Peer
  /-- The calls in progress, without those that found the queue empty. -/
  calls : List Call

inductive Action where
  /-- `wg_xmit` stages packets. -/
  | stage (packets : List ℕ)
  /-- `wg_packet_send_keepalive` stages an empty packet. -/
  | keepalive (packet : ℕ)
  /-- `wg_packet_purge_staged_packets`. -/
  | purge
  | tick (now : U64)
  /-- A handshake makes a keypair. -/
  | create (birthdate : U64)
  /-- `current_keypair` is replaced, or cleared. -/
  | publish (k : Option ℕ)
  /-- `wg_noise_expire_current_peer_keypairs`, for one keypair. -/
  | expire (k : ℕ)
  /-- A call begins and steals the queue. -/
  | call
  /-- A call in progress takes its next step. -/
  | advance (i : ℕ) (live : Bool)
deriving DecidableEq, Repr

/-- The staging of `wg_xmit`: the oldest packets go while there are too many, then the
new ones come. -/
def Peer.stage (p : Peer) (packets : List ℕ) : Peer :=
  let excess := p.stagedPacketQueue.length - maxStagedPackets
  { p with
    stagedPacketQueue := p.stagedPacketQueue.drop excess ++ packets.map (Packet.mk · 0)
    dropped := p.dropped ++ ids (p.stagedPacketQueue.take excess)
    arrived := p.arrived ++ packets }

def Peer.keepalive (p : Peer) (packet : ℕ) : Peer :=
  { p with
    stagedPacketQueue := p.stagedPacketQueue ++ [⟨packet, 0⟩]
    arrived := p.arrived ++ [packet] }

def Peer.purge (p : Peer) : Peer :=
  { p with stagedPacketQueue := [], dropped := p.dropped ++ ids p.stagedPacketQueue }

def Peer.create (p : Peer) (birthdate : U64) : Peer :=
  { p with
    keypairs := Function.update p.keypairs p.created ⟨0, true, birthdate⟩
    created := p.created + 1 }

/-- The first critical section of a call. -/
def steal (s : State) : State :=
  match s.peer.stagedPacketQueue with
  | [] => s
  | packets =>
    { peer := { s.peer with stagedPacketQueue := [] }
      calls := s.calls ++ [⟨ids packets, packets, .take⟩] }

/-- At most `COUNTER_WINDOW_SIZE` calls are in progress at once. -/
def machine : Machine State Action where
  step s
    | .stage packets => some { s with peer := s.peer.stage packets }
    | .keepalive packet => some { s with peer := s.peer.keepalive packet }
    | .purge => some { s with peer := s.peer.purge }
    | .tick now => some { s with peer := { s.peer with now := now } }
    | .create birthdate => some { s with peer := s.peer.create birthdate }
    | .publish none => some { s with peer := { s.peer with currentKeypair := none } }
    | .publish (some k) =>
      if k < s.peer.created then
        some { s with peer := { s.peer with currentKeypair := some k } }
      else none
    | .expire k => some { s with peer := s.peer.invalidate k }
    | .call => if s.calls.length < counterWindowSize then some (steal s) else none
    | .advance i live =>
      match s.calls[i]? with
      | none => none
      | some c =>
        let (peer, c') := callStep live s.peer c
        some { peer := peer, calls := resume s.calls i c' }

/-- A peer that has neither keypairs nor packets. -/
def init : State where
  peer :=
    { stagedPacketQueue := []
      keypairs := fun _ => ⟨0, false, 0⟩
      created := 0
      currentKeypair := none
      now := 0
      handed := []
      arrived := []
      dropped := [] }
  calls := []

/-! ## Bound -/

/-- The call is about to mark keypair `k` invalid. -/
def Call.failed (k : ℕ) (c : Call) : Bool := c.pc = .invalid k

/-- The call has found keypair `k` valid and may still count with it. -/
def Call.counting (k : ℕ) (c : Call) : Bool :=
  match c.pc with
  | .expiry j => j = k
  | .assign j _ => j = k
  | _ => false

/-- How far the counter of keypair `k` can be. As long as the keypair is valid, every
count beyond the limit is that of a call that has not marked it yet. Afterwards no call
begins to count, and those that still do count beyond the limit once each. -/
def Room (calls : List Call) (k : ℕ) (key : Keypair) : Prop :=
  (key.isValid = true →
    key.sendingCounter.toNat ≤ rejectAfterMessages + calls.countP (Call.failed k)) ∧
  (key.isValid = false →
    max key.sendingCounter.toNat rejectAfterMessages + calls.countP (Call.counting k) ≤
      rejectAfterMessages + counterWindowSize)

/-- No call is both. -/
theorem failed_add_counting (calls : List Call) (k : ℕ) :
    calls.countP (Call.failed k) + calls.countP (Call.counting k) ≤ calls.length := by
  induction calls with
  | nil => simp
  | cons c calls ih =>
    rw [List.countP_cons, List.countP_cons, List.length_cons]
    have hone : (if c.failed k then 1 else 0) + (if c.counting k then 1 else 0) ≤ 1 := by
      rcases c with ⟨_, _, pc⟩
      cases pc <;> simp [Call.failed, Call.counting] <;> split <;> omega
    omega

variable {o : Option Call} {c' : Call} {pos : ℕ}

namespace Room

variable {calls : List Call} {k i : ℕ} {key : Keypair} {c : Call}

/-- A keypair that is marked invalid has the calls in progress as its room. -/
theorem invalidate (hwidth : calls.length ≤ counterWindowSize) (hroom : Room calls k key) :
    Room calls k { key with isValid := false } := by
  have hsplit := failed_add_counting calls k
  refine ⟨nofun, fun _ => ?_⟩
  show max key.sendingCounter.toNat _ + _ ≤ _
  cases hvalid : key.isValid with
  | true =>
    have hcounter := hroom.1 hvalid
    omega
  | false => exact hroom.2 hvalid

/-- A step that counts nothing, and neither hides a failed call of a valid keypair nor
lets one count with an invalid one. -/
theorem resume (hroom : Room calls k key) (hc : calls[i]? = some c)
    (hfailed : key.isValid = true → c.failed k = false)
    (hcounting : key.isValid = false → ∀ c', o = some c' → c'.counting k → c.counting k) :
    Room (resume calls i o) k key := by
  have hf := countP_resume (Call.failed k) hc o
  have hg := countP_resume (Call.counting k) hc o
  constructor
  · intro hvalid
    have hcounter := hroom.1 hvalid
    have hnone : [c].countP (Call.failed k) = 0 := by simp [hfailed hvalid]
    omega
  · intro hvalid
    have hcounter := hroom.2 hvalid
    have hle : o.toList.countP (Call.counting k) ≤ [c].countP (Call.counting k) := by
      cases o with
      | none => exact Nat.zero_le _
      | some c' =>
        simp only [Option.toList_some, List.countP_singleton]
        split
        · next hcount => rw [if_pos (hcounting hvalid c' rfl hcount)]
        · exact Nat.zero_le _
    omega

/-- A call that is counting finds room for one more. -/
theorem count_lt (hroom : Room calls k key) (hwidth : calls.length ≤ counterWindowSize)
    (hc : c ∈ calls) (hcounting : c.counting k) : key.sendingCounter.toNat + 1 < 2 ^ 64 := by
  have hpos : 0 < calls.countP (Call.counting k) := List.countP_pos_iff.mpr ⟨c, hc, hcounting⟩
  have hsplit := failed_add_counting calls k
  have hroomy := Counter.rejectAfterMessages_room
  cases hvalid : key.isValid with
  | true =>
    have := hroom.1 hvalid
    omega
  | false =>
    have := hroom.2 hvalid
    omega

/-- Counting below the limit. -/
theorem count_below (hroom : Room calls k key) (hc : calls[i]? = some c)
    (hpc : c.pc = .assign k pos) (hpc' : c'.pc = .assign k (pos + 1)) {counter : U64}
    (hcounter : counter.toNat = key.sendingCounter.toNat + 1)
    (hlimit : key.sendingCounter.toNat < rejectAfterMessages) :
    Room (Threads.resume calls i (some c')) k { key with sendingCounter := counter } := by
  have hg := countP_resume (Call.counting k) hc (some c')
  have hgc : c.counting k = true := by simp [Call.counting, hpc]
  have hgc' : c'.counting k = true := by simp [Call.counting, hpc']
  simp only [Option.toList_some, List.countP_singleton, hgc, hgc', if_true] at hg
  constructor
  · intro _
    show counter.toNat ≤ _
    omega
  · intro hvalid
    have := hroom.2 hvalid
    show max counter.toNat _ + _ ≤ _
    omega

/-- Counting at the limit or beyond: the call fails. -/
theorem count_beyond (hroom : Room calls k key) (hc : calls[i]? = some c)
    (hpc : c.pc = .assign k pos) (hpc' : c'.pc = .invalid k) {counter : U64}
    (hcounter : counter.toNat = key.sendingCounter.toNat + 1)
    (hlimit : rejectAfterMessages ≤ key.sendingCounter.toNat) :
    Room (Threads.resume calls i (some c')) k { key with sendingCounter := counter } := by
  have hf := countP_resume (Call.failed k) hc (some c')
  have hg := countP_resume (Call.counting k) hc (some c')
  have hfc : c.failed k = false := by simp [Call.failed, hpc]
  have hgc : c.counting k = true := by simp [Call.counting, hpc]
  have hfc' : c'.failed k = true := by simp [Call.failed, hpc']
  have hgc' : c'.counting k = false := by simp [Call.counting, hpc']
  simp only [Option.toList_some, List.countP_singleton, hfc, hgc, hfc', hgc', if_true,
    Bool.false_eq_true, if_false] at hf hg
  constructor
  · intro hvalid
    have := hroom.1 hvalid
    show counter.toNat ≤ _
    omega
  · intro hvalid
    have := hroom.2 hvalid
    show max counter.toNat _ + _ ≤ _
    omega

end Room

/-! ## Invariant -/

/-- The nonces that a call has given so far, with their keypair. -/
def Call.nonces (c : Call) : List (ℕ × U64) :=
  match c.pc with
  | .assign k pos => (c.packets.take pos).map fun packet => (k, packet.nonce)
  | _ => []

def Batch.nonces (b : Batch) : List (ℕ × U64) :=
  b.packets.map fun packet => (b.keypair, packet.nonce)

/-- Nonces that are in use: no two alike, and the counters are beyond them. -/
def Issued (keypairs : ℕ → Keypair) (nonces : List (ℕ × U64)) : Prop :=
  nonces.Nodup ∧ ∀ x ∈ nonces, x.2.toNat < (keypairs x.1).sendingCounter.toNat

/-- The packets whose calls are over, and those that wait. -/
def Peer.accounted (p : Peer) : List ℕ :=
  ids p.stagedPacketQueue ++ p.handed.flatMap (fun b => ids b.packets) ++ p.dropped

/-- The keypair that a call holds. -/
def Pc.keypair : Pc → Option ℕ
  | .check k => some k
  | .expiry k => some k
  | .assign k _ => some k
  | .invalid k => some k
  | _ => none

/-- A call in progress has all that it stole, in order. The nonces that it has given
are below the limit, and they grow. -/
structure Call.Ok (c : Call) : Prop where
  whole : ids c.packets = c.stolen
  below : ∀ x ∈ c.nonces, x.2.toNat < rejectAfterMessages
  growing : c.nonces.Pairwise fun x y => x.2.toNat < y.2.toNat

structure Inv (s : State) : Prop where
  width : s.calls.length ≤ counterWindowSize
  current : ∀ k, s.peer.currentKeypair = some k → k < s.peer.created
  born : ∀ c ∈ s.calls, ∀ k, c.pc.keypair = some k → k < s.peer.created
  unborn : ∀ k, s.peer.created ≤ k → (s.peer.keypairs k).sendingCounter = 0
  room : ∀ k, Room s.calls k (s.peer.keypairs k)
  calls : ∀ c ∈ s.calls, c.Ok
  issued : Issued s.peer.keypairs
    (s.peer.handed.flatMap Batch.nonces ++ s.calls.flatMap Call.nonces)
  below : ∀ b ∈ s.peer.handed, ∀ x ∈ b.nonces, x.2.toNat < rejectAfterMessages
  conserved : s.peer.arrived.Perm (s.peer.accounted ++ s.calls.flatMap Call.stolen)

variable {k : ℕ}

namespace Issued

variable {keypairs keypairs' : ℕ → Keypair} {xs ys : List (ℕ × U64)}

theorem perm (h : Issued keypairs xs) (hperm : xs.Perm ys) : Issued keypairs ys :=
  ⟨hperm.nodup_iff.mp h.1, fun x hx => h.2 x (hperm.mem_iff.mpr hx)⟩

theorem sublist (h : Issued keypairs xs) (hsub : ys.Sublist xs) : Issued keypairs ys :=
  ⟨h.1.sublist hsub, fun x hx => h.2 x (hsub.subset hx)⟩

theorem mono (h : Issued keypairs xs)
    (hle : ∀ k, (keypairs k).sendingCounter.toNat ≤ (keypairs' k).sendingCounter.toNat) :
    Issued keypairs' xs :=
  ⟨h.1, fun x hx => Nat.lt_of_lt_of_le (h.2 x hx) (hle x.1)⟩

/-- Counting issues the old counter. -/
theorem count (h : Issued keypairs xs)
    (hle : ∀ j, (keypairs j).sendingCounter.toNat ≤ (keypairs' j).sendingCounter.toNat)
    (hlt : (keypairs k).sendingCounter.toNat < (keypairs' k).sendingCounter.toNat) :
    Issued keypairs' ((k, (keypairs k).sendingCounter) :: xs) := by
  constructor
  · refine List.nodup_cons.mpr ⟨?_, h.1⟩
    intro hmem
    exact absurd (h.2 _ hmem) (Nat.lt_irrefl _)
  · intro x hx
    rcases List.mem_cons.mp hx with rfl | hx
    · exact hlt
    · exact (h.mono hle).2 x hx

end Issued

/-! ## Steps of a call -/

/-- The steps that only decide where a call goes on. -/
inductive Turn (p : Peer) : Pc → Pc → Prop where
  | none : Turn p .take .nokey
  | take {k : ℕ} (h : p.currentKeypair = some k) : Turn p .take (.check k)
  | stale {k : ℕ} : Turn p (.check k) .nokey
  | valid {k : ℕ} (h : (p.keypairs k).isValid = true) : Turn p (.check k) (.expiry k)
  | expired {k : ℕ} : Turn p (.expiry k) (.invalid k)
  | begin {k : ℕ} : Turn p (.expiry k) (.assign k 0)

/-- All that one step of a call can do. -/
inductive Effect (p : Peer) (c : Call) : Peer → Option Call → Prop where
  | turn {pc : Pc} (h : Turn p c.pc pc) : Effect p c p (some (c.goto pc))
  | below {k pos : ℕ} {packet : Packet} (hpc : c.pc = .assign k pos)
      (hpacket : c.packets[pos]? = some packet)
      (hlimit : (p.keypairs k).sendingCounter.toNat < rejectAfterMessages) :
      Effect p c (p.count k)
        (some ((c.number pos packet (p.keypairs k).sendingCounter).goto (.assign k (pos + 1))))
  | beyond {k pos : ℕ} {packet : Packet} (hpc : c.pc = .assign k pos)
      (hpacket : c.packets[pos]? = some packet)
      (hlimit : rejectAfterMessages ≤ (p.keypairs k).sendingCounter.toNat) :
      Effect p c (p.count k)
        (some ((c.number pos packet (p.keypairs k).sendingCounter).goto (.invalid k)))
  | handOver {k pos : ℕ} (hpc : c.pc = .assign k pos) (hpos : c.packets.length ≤ pos) :
      Effect p c { p with handed := p.handed ++ [⟨k, c.packets⟩] } none
  | invalidate {k : ℕ} (hpc : c.pc = .invalid k) :
      Effect p c (p.invalidate k) (some (c.goto .nokey))
  | putBack (hpc : c.pc = .nokey) :
      Effect p c { p with stagedPacketQueue := c.packets ++ p.stagedPacketQueue } none

theorem count_nonce (p : Peer) (k : ℕ) :
    ((p.count k).keypairs k).sendingCounter - 1 = (p.keypairs k).sendingCounter := by
  have hcount : (p.count k).keypairs k =
      { p.keypairs k with sendingCounter := (p.keypairs k).sendingCounter + 1 } :=
    Function.update_self ..
  rw [hcount]
  exact BitVec.add_sub_cancel _ 1

theorem callStep_effect (live : Bool) (p : Peer) (c : Call) :
    Effect p c (callStep live p c).1 (callStep live p c).2 := by
  unfold callStep
  cases hpc : c.pc with
  | take =>
    dsimp only
    cases hcurrent : p.currentKeypair with
    | none => exact .turn (hpc ▸ .none)
    | some k =>
      cases live with
      | false => exact .turn (hpc ▸ .none)
      | true => exact .turn (hpc ▸ .take hcurrent)
  | check k =>
    dsimp only
    split
    · next hvalid => exact .turn (hpc ▸ .valid hvalid)
    · exact .turn (hpc ▸ .stale)
  | expiry k =>
    dsimp only
    split
    · exact .turn (hpc ▸ .expired)
    · exact .turn (hpc ▸ .begin)
  | assign k pos =>
    dsimp only
    cases hpacket : c.packets[pos]? with
    | none => exact .handOver hpc (List.getElem?_eq_none_iff.mp hpacket)
    | some packet =>
      dsimp only
      rw [count_nonce]
      have hlimit : (p.keypairs k).sendingCounter ≥ BitVec.ofNat 64 rejectAfterMessages ↔
          rejectAfterMessages ≤ (p.keypairs k).sendingCounter.toNat := by
        rw [ge_iff_le, BitVec.le_def, Counter.rejectAfterMessages_toNat]
      split
      · next h => exact .beyond hpc hpacket (hlimit.mp h)
      · next h => exact .below hpc hpacket (Nat.lt_of_not_le fun hle => h (hlimit.mpr hle))
  | invalid k => exact .invalidate hpc
  | nokey => exact .putBack hpc

namespace Effect

variable {p p' : Peer} {c : Call} {o : Option Call} {calls : List Call} {i k : ℕ}

/-- What calls never touch. -/
theorem frame (h : Effect p c p' o) :
    p'.currentKeypair = p.currentKeypair ∧ p'.created = p.created ∧ p'.arrived = p.arrived := by
  cases h <;> exact ⟨rfl, rfl, rfl⟩

/-- A keypair that a call goes on with is the current one, or it was held before. -/
theorem held (h : Effect p c p' o) (hc' : o = some c') (hk : c'.pc.keypair = some k) :
    p.currentKeypair = some k ∨ c.pc.keypair = some k := by
  cases h with
  | turn h =>
    obtain rfl := Option.some.inj hc'
    dsimp only [Call.goto] at hk
    generalize c.pc = pc at h
    cases h with
    | take h => exact .inl (h.trans hk)
    | valid _ => exact .inr hk
    | expired => exact .inr hk
    | begin => exact .inr hk
    | none => cases hk
    | stale => cases hk
  | below hpc _ _ =>
    obtain rfl := Option.some.inj hc'
    exact .inr (hpc ▸ hk)
  | beyond hpc _ _ =>
    obtain rfl := Option.some.inj hc'
    exact .inr (hpc ▸ hk)
  | invalidate hpc =>
    obtain rfl := Option.some.inj hc'
    cases hk
  | handOver _ _ => cases hc'
  | putBack _ => cases hc'

/-- Only the keypair that the call holds is written. -/
theorem keypairs_eq (h : Effect p c p' o) (hk : c.pc.keypair ≠ some k) :
    p'.keypairs k = p.keypairs k := by
  cases h with
  | turn _ => rfl
  | handOver _ _ => rfl
  | putBack _ => rfl
  | below hpc _ _ =>
    rw [hpc] at hk
    exact Function.update_of_ne (fun h => hk (congrArg some h.symm)) _ _
  | beyond hpc _ _ =>
    rw [hpc] at hk
    exact Function.update_of_ne (fun h => hk (congrArg some h.symm)) _ _
  | invalidate hpc =>
    rw [hpc] at hk
    exact Function.update_of_ne (fun h => hk (congrArg some h.symm)) _ _

end Effect

variable {p : Peer}

/-- A counter that has room for one more. -/
theorem count_toNat (h : (p.keypairs k).sendingCounter.toNat + 1 < 2 ^ 64) :
    ((p.count k).keypairs k).sendingCounter.toNat =
      (p.keypairs k).sendingCounter.toNat + 1 := by
  have hone : (1 : U64).toNat = 1 := rfl
  simp only [Peer.count, Function.update_self]
  rw [BitVec.toNat_add, hone]
  exact Nat.mod_eq_of_lt (by omega)

variable {c : Call}

/-- A call that turns has not failed. -/
theorem Turn.not_failed {pc : Pc} (h : Turn p c.pc pc) (k : ℕ) : c.failed k = false := by
  unfold Call.failed
  generalize hpc : c.pc = start at h
  cases h <;> simp

/-- A call begins to count with valid keypairs only. -/
theorem Turn.counting {pc : Pc} (h : Turn p c.pc pc) (hvalid : (p.keypairs k).isValid = false)
    (hcount : (c.goto pc).counting k) : c.counting k := by
  unfold Call.counting at hcount ⊢
  dsimp only [Call.goto] at hcount
  revert h
  generalize c.pc = start
  intro h
  cases h with
  | valid h =>
    have heq := of_decide_eq_true hcount
    rw [heq, hvalid] at h
    cases h
  | begin => exact hcount
  | take _ => cases hcount
  | none => cases hcount
  | stale => cases hcount
  | expired => cases hcount

variable {p' : Peer}

/-- No step takes a keypair beyond its room. -/
theorem Effect.room {calls : List Call} {i : ℕ} (h : Effect p c p' o) (hc : calls[i]? = some c)
    (hwidth : calls.length ≤ counterWindowSize) (hroom : ∀ k, Room calls k (p.keypairs k)) (k : ℕ) :
    Room (resume calls i o) k (p'.keypairs k) := by
  have hmem : c ∈ calls := List.mem_of_getElem? hc
  by_cases hk : c.pc.keypair = some k
  · -- the keypair of the call
    cases h with
    | turn h =>
      refine (hroom k).resume hc (fun _ => h.not_failed k) ?_
      rintro hvalid _ ⟨⟩ hcount
      exact h.counting hvalid hcount
    | @below j pos packet hpc hpacket hlimit =>
      obtain rfl : j = k := by simpa [hpc, Pc.keypair] using hk
      have hlt := (hroom j).count_lt hwidth hmem (by simp [Call.counting, hpc])
      have hcount := count_toNat hlt
      simp only [Peer.count, Function.update_self] at hcount ⊢
      exact (hroom j).count_below hc hpc rfl hcount hlimit
    | @beyond j pos packet hpc hpacket hlimit =>
      obtain rfl : j = k := by simpa [hpc, Pc.keypair] using hk
      have hlt := (hroom j).count_lt hwidth hmem (by simp [Call.counting, hpc])
      have hcount := count_toNat hlt
      simp only [Peer.count, Function.update_self] at hcount ⊢
      exact (hroom j).count_beyond hc hpc rfl hcount hlimit
    | handOver hpc hpos =>
      refine (hroom k).resume hc (fun _ => ?_) (fun _ _ h => nomatch h)
      simp [Call.failed, hpc]
    | putBack hpc => simp [hpc, Pc.keypair] at hk
    | @invalidate j hpc =>
      obtain rfl : j = k := by simpa [hpc, Pc.keypair] using hk
      simp only [Peer.invalidate, Function.update_self]
      refine ((hroom j).invalidate hwidth).resume hc nofun ?_
      rintro - _ ⟨⟩ hcount
      cases hcount
  · -- another one, which is not written
    rw [h.keypairs_eq hk]
    refine (hroom k).resume hc (fun _ => ?_) ?_
    · refine Bool.eq_false_iff.mpr fun hfailed => hk ?_
      rw [of_decide_eq_true hfailed]
      rfl
    · rintro hvalid c' rfl hcount
      cases h with
      | turn h => exact h.counting hvalid hcount
      | below hpc _ _ => simpa [Call.counting, hpc, Call.goto] using hcount
      | beyond hpc _ _ => cases hcount
      | invalidate _ => cases hcount

/-! ## Nonces -/

theorem ids_number {packet : Packet} (h : c.packets[pos]? = some packet) (nonce : U64) :
    ids (c.number pos packet nonce).packets = ids c.packets := by
  obtain ⟨hpos, hget⟩ := List.getElem?_eq_some_iff.mp h
  show (c.packets.set pos _).map Packet.id = _
  rw [List.map_set]
  apply List.ext_getElem?
  intro j
  by_cases hj : pos = j
  · subst hj
    simp [ids, hpos, hget]
  · rw [List.getElem?_set_ne hj]
    rfl

/-- The call that goes on has one nonce more. -/
theorem nonces_number {packet : Packet} (hpc : c.pc = .assign k pos)
    (h : c.packets[pos]? = some packet) (nonce : U64) :
    ((c.number pos packet nonce).goto (.assign k (pos + 1))).nonces =
      c.nonces ++ [(k, nonce)] := by
  obtain ⟨hpos, -⟩ := List.getElem?_eq_some_iff.mp h
  have htake : (c.packets.set pos { packet with nonce := nonce }).take (pos + 1) =
      c.packets.take pos ++ [{ packet with nonce := nonce }] := by
    rw [List.take_add_one, List.take_set_of_le (Nat.le_refl pos), List.getElem?_set_self hpos]
    rfl
  simp only [Call.nonces, Call.number, Call.goto, hpc, htake, List.map_append, List.map_cons,
    List.map_nil]

/-- At the end of the walk all packets have their nonces. -/
theorem nonces_handOver (hpc : c.pc = .assign k pos) (hpos : c.packets.length ≤ pos) :
    c.nonces = Batch.nonces ⟨k, c.packets⟩ := by
  simp only [Call.nonces, hpc, List.take_of_length_le hpos]
  rfl

/-- Turning gives no nonce. -/
theorem Turn.nonces_eq {pc : Pc} (h : Turn p c.pc pc) : (c.goto pc).nonces = [] := by
  unfold Call.nonces
  dsimp only [Call.goto]
  revert h
  generalize c.pc = start
  intro h
  cases h <;> rfl

/-- Counting lets no counter go back. -/
theorem count_le (h : (p.keypairs k).sendingCounter.toNat + 1 < 2 ^ 64) (j : ℕ) :
    (p.keypairs j).sendingCounter.toNat ≤
      ((p.count k).keypairs j).sendingCounter.toNat := by
  by_cases hjk : j = k
  · subst hjk
    rw [count_toNat h]
    omega
  · simp [Peer.count, Function.update_of_ne hjk]

theorem invalidate_sendingCounter (p : Peer) (k j : ℕ) :
    ((p.invalidate k).keypairs j).sendingCounter = (p.keypairs j).sendingCounter := by
  by_cases hjk : j = k
  · subst hjk
    simp [Peer.invalidate]
  · simp [Peer.invalidate, Function.update_of_ne hjk]

/-- A call that counts has room to. -/
def Roomy (p : Peer) (c : Call) : Prop :=
  ∀ k pos, c.pc = .assign k pos → (p.keypairs k).sendingCounter.toNat + 1 < 2 ^ 64

theorem Effect.issued (h : Effect p c p' o) (hroomy : Roomy p c) {others : List (ℕ × U64)}
    (hissued : Issued p.keypairs (p.handed.flatMap Batch.nonces ++ (c.nonces ++ others))) :
    Issued p'.keypairs
      (p'.handed.flatMap Batch.nonces ++ (o.toList.flatMap Call.nonces ++ others)) := by
  -- what is left when the call gives its nonces up
  have hdrop : Issued p.keypairs (p.handed.flatMap Batch.nonces ++ others) :=
    hissued.sublist ((List.sublist_append_right _ _).append_left _)
  cases h with
  | turn h => simpa [h.nonces_eq] using hdrop
  | below hpc hpacket _ =>
    have hlt := hroomy _ _ hpc
    have hcount := hissued.count (count_le hlt) (by rw [count_toNat hlt]; omega)
    refine hcount.perm ?_
    rw [Option.toList_some, List.flatMap_singleton, nonces_number hpc hpacket]
    show List.Perm _ (p.handed.flatMap Batch.nonces ++ _)
    rw [List.append_assoc, ← List.append_assoc, ← List.append_assoc]
    exact List.perm_middle.symm
  | beyond hpc _ _ => exact hdrop.mono (count_le (hroomy _ _ hpc))
  | handOver hpc hpos =>
    rw [nonces_handOver hpc hpos] at hissued
    simpa using hissued
  | invalidate _ =>
    exact hdrop.mono fun k => Nat.le_of_eq (congrArg _ (invalidate_sendingCounter ..).symm)
  | putBack _ => exact hdrop

/-- Handed over nonces are below the limit. -/
theorem Effect.below_limit (h : Effect p c p' o) (hok : c.Ok)
    (hbelow : ∀ b ∈ p.handed, ∀ x ∈ b.nonces, x.2.toNat < rejectAfterMessages) :
    ∀ b ∈ p'.handed, ∀ x ∈ b.nonces, x.2.toNat < rejectAfterMessages := by
  cases h with
  | handOver hpc hpos =>
    intro b hb
    rcases List.mem_append.mp hb with hb | hb
    · exact hbelow b hb
    · obtain rfl := List.mem_singleton.mp hb
      intro x hx
      exact hok.below x (nonces_handOver hpc hpos ▸ hx)
  | turn _ => exact hbelow
  | below _ _ _ => exact hbelow
  | beyond _ _ _ => exact hbelow
  | invalidate _ => exact hbelow
  | putBack _ => exact hbelow

theorem Effect.ok (h : Effect p c p' (some c')) (hok : c.Ok)
    (hissued : ∀ x ∈ c.nonces, x.2.toNat < (p.keypairs x.1).sendingCounter.toNat) : c'.Ok := by
  -- a call that has given no nonce
  have hnone : ∀ {d : Call}, ids d.packets = d.stolen → d.nonces = [] → d.Ok := by
    intro d hwhole hnonces
    refine ⟨hwhole, ?_, ?_⟩
    · rw [hnonces]
      exact (fun _ hx => nomatch hx)
    · rw [hnonces]
      exact List.Pairwise.nil
  cases h with
  | turn h => exact hnone hok.whole h.nonces_eq
  | @below k pos packet hpc hpacket hlimit =>
    have hnonces := nonces_number hpc hpacket (p.keypairs k).sendingCounter
    refine ⟨(ids_number hpacket _).trans hok.whole, ?_, ?_⟩
    · intro x hx
      rw [hnonces] at hx
      rcases List.mem_append.mp hx with hx | hx
      · exact hok.below x hx
      · obtain rfl := List.mem_singleton.mp hx
        exact hlimit
    · rw [hnonces, List.pairwise_append]
      refine ⟨hok.growing, List.pairwise_singleton _ _, ?_⟩
      intro x hx y hy
      obtain rfl := List.mem_singleton.mp hy
      have hkey : x.1 = k := by
        simp only [Call.nonces, hpc, List.mem_map] at hx
        obtain ⟨_, _, rfl⟩ := hx
        rfl
      exact hkey ▸ hissued x hx
  | beyond _ hpacket _ => exact hnone ((ids_number hpacket _).trans hok.whole) rfl
  | invalidate _ => exact hnone hok.whole rfl

/-- The packets of a call go where the call goes. -/
theorem Effect.conserved (h : Effect p c p' o) (hok : c.Ok) (others : List ℕ) :
    (p'.accounted ++ (o.toList.flatMap Call.stolen ++ others)).Perm
      (p.accounted ++ (c.stolen ++ others)) := by
  cases h with
  | turn _ => simp [Call.goto]
  | below _ _ _ => simp [Call.goto, Call.number, Peer.accounted, Peer.count]
  | beyond _ _ _ => simp [Call.goto, Call.number, Peer.accounted, Peer.count]
  | invalidate _ => simp [Call.goto, Peer.accounted, Peer.invalidate]
  | handOver _ _ =>
    simp only [Peer.accounted, List.flatMap_append, List.flatMap_singleton, hok.whole]
    simp only [Option.toList_none, List.flatMap_nil, List.nil_append, List.append_assoc]
    refine List.Perm.append_left _ (List.Perm.append_left _ ?_)
    rw [← List.append_assoc, ← List.append_assoc]
    exact List.perm_append_comm.append_right _
  | putBack _ =>
    simp only [Peer.accounted, ids_append, hok.whole]
    simp only [Option.toList_none, List.flatMap_nil, List.nil_append, List.append_assoc]
    have hmove := List.perm_append_comm_assoc c.stolen p.accounted others
    simpa only [Peer.accounted, List.append_assoc] using hmove

/-! ## Steps of the machine -/

theorem init_inv : Inv init where
  width := Nat.zero_le _
  current := nofun
  born := nofun
  unborn := fun _ _ => rfl
  room := fun _ => ⟨nofun, fun _ => Nat.le_add_right _ _⟩
  calls := nofun
  issued := ⟨List.nodup_nil, nofun⟩
  below := nofun
  conserved := List.Perm.refl _

variable {s : State}

theorem advance_inv {i : ℕ} (h : Inv s) (hc : s.calls[i]? = some c)
    (heffect : Effect s.peer c p' o) : Inv { peer := p', calls := resume s.calls i o } := by
  have hmem : c ∈ s.calls := List.mem_of_getElem? hc
  obtain ⟨hcurrent, hcreated, harrived⟩ := heffect.frame
  have hissued : Issued s.peer.keypairs (s.peer.handed.flatMap Batch.nonces ++
      (c.nonces ++ (s.calls.eraseIdx i).flatMap Call.nonces)) :=
    h.issued.perm ((flatMap_thread_perm Call.nonces hc).append_left _)
  have hroomy : Roomy s.peer c := by
    intro k pos hpc
    exact (h.room k).count_lt h.width hmem (by simp [Call.counting, hpc])
  constructor
  · have hlength := length_resume hc o
    have hone : o.toList.length ≤ 1 := by cases o <;> simp
    have hwidth := h.width
    show (resume s.calls i o).length ≤ _
    omega
  · intro k hk
    rw [hcreated]
    exact h.current k (hcurrent ▸ hk)
  · refine forall_resume hc (fun c _ hc => hcreated ▸ hc) h.born ?_
    intro c' hc' k hk
    rw [hcreated]
    rcases heffect.held hc' hk with hk | hk
    · exact h.current k hk
    · exact h.born c hmem k hk
  · intro k hk
    have hk' : s.peer.created ≤ k := hcreated ▸ hk
    have hother : c.pc.keypair ≠ some k := by
      intro hheld
      have := h.born c hmem k hheld
      omega
    show (p'.keypairs k).sendingCounter = 0
    rw [heffect.keypairs_eq hother]
    exact h.unborn k hk'
  · exact heffect.room hc h.width h.room
  · refine forall_resume hc (fun _ _ hok => hok) h.calls ?_
    rintro c' rfl
    refine heffect.ok (h.calls c hmem) fun x hx => hissued.2 x ?_
    exact List.mem_append_right _ (List.mem_append_left _ hx)
  · exact (heffect.issued hroomy hissued).perm
      ((flatMap_resume_perm Call.nonces hc o).append_left _).symm
  · exact heffect.below_limit (h.calls c hmem) h.below
  · have hbefore := h.conserved.trans ((flatMap_thread_perm Call.stolen hc).append_left _)
    have hafter := (flatMap_resume_perm Call.stolen hc o).append_left p'.accounted
    show p'.arrived.Perm _
    rw [harrived]
    exact hbefore.trans
      ((heffect.conserved (h.calls c hmem) _).symm.trans hafter.symm)

/-- Packets come to the queue, or leave it for good. -/
theorem Inv.requeue (h : Inv s) {queue : List Packet} {arrived dropped : List ℕ}
    (hcount : ∀ a, arrived.count a + (ids s.peer.stagedPacketQueue).count a +
        s.peer.dropped.count a =
      s.peer.arrived.count a + (ids queue).count a + dropped.count a) :
    Inv { s with peer := { s.peer with
      stagedPacketQueue := queue, arrived := arrived, dropped := dropped } } where
  width := h.width
  current := h.current
  born := h.born
  unborn := h.unborn
  room := h.room
  calls := h.calls
  issued := h.issued
  below := h.below
  conserved := by
    refine List.perm_iff_count.mpr fun a => ?_
    have hbefore := List.perm_iff_count.mp h.conserved a
    have := hcount a
    simp only [Peer.accounted, List.count_append] at hbefore ⊢
    omega

theorem stage_inv (h : Inv s) (packets : List ℕ) : Inv { s with peer := s.peer.stage packets } := by
  refine h.requeue fun a => ?_
  have hids : ids (packets.map (Packet.mk · 0)) = packets := by
    simp [ids, Function.comp_def]
  have hsplit : ∀ n, (ids s.peer.stagedPacketQueue).count a =
      (ids (s.peer.stagedPacketQueue.take n)).count a +
        (ids (s.peer.stagedPacketQueue.drop n)).count a := by
    intro n
    rw [← List.count_append, ← ids_append, List.take_append_drop]
  have := hsplit (s.peer.stagedPacketQueue.length - maxStagedPackets)
  simp only [ids_append, List.count_append, hids]
  omega

theorem keepalive_inv (h : Inv s) (packet : ℕ) :
    Inv { s with peer := s.peer.keepalive packet } := by
  refine h.requeue fun a => ?_
  simp only [ids_append, List.count_append]
  simp only [ids, List.map_cons, List.map_nil]
  omega

theorem purge_inv (h : Inv s) : Inv { s with peer := s.peer.purge } := by
  refine h.requeue fun a => ?_
  simp only [ids, List.count_append, List.map_nil, List.count_nil]
  omega

theorem create_inv (h : Inv s) (birthdate : U64) :
    Inv { s with peer := s.peer.create birthdate } := by
  have hold : ∀ k, k ≠ s.peer.created → (s.peer.create birthdate).keypairs k = s.peer.keypairs k :=
    fun k hk => Function.update_of_ne hk _ _
  have hnew : (s.peer.create birthdate).keypairs s.peer.created = ⟨0, true, birthdate⟩ :=
    Function.update_self _ _ _
  have hcounter : ∀ k, ((s.peer.create birthdate).keypairs k).sendingCounter =
      (s.peer.keypairs k).sendingCounter := by
    intro k
    by_cases hk : k = s.peer.created
    · rw [hk, hnew, h.unborn _ (Nat.le_refl _)]
    · rw [hold k hk]
  refine { h with
    current := fun k hk => Nat.lt_succ_of_lt (h.current k hk)
    born := fun c hc k hk => Nat.lt_succ_of_lt (h.born c hc k hk)
    unborn := fun k hk => (hcounter k).trans (h.unborn k (Nat.le_of_succ_le hk))
    room := ?_
    issued := h.issued.mono fun k => Nat.le_of_eq (congrArg _ (hcounter k).symm) }
  intro k
  show Room _ k ((s.peer.create birthdate).keypairs k)
  by_cases hk : k = s.peer.created
  · rw [hk, hnew]
    exact ⟨fun _ => Nat.zero_le _, nofun⟩
  · rw [hold k hk]
    exact h.room k

theorem expire_inv (h : Inv s) (k : ℕ) : Inv { s with peer := s.peer.invalidate k } := by
  refine { h with
    unborn := fun j hj => (invalidate_sendingCounter ..).trans (h.unborn j hj)
    room := ?_
    issued := h.issued.mono fun j =>
      Nat.le_of_eq (congrArg _ (invalidate_sendingCounter ..).symm) }
  intro j
  show Room _ j ((s.peer.invalidate k).keypairs j)
  by_cases hj : j = k
  · subst hj
    simp only [Peer.invalidate, Function.update_self]
    exact (h.room j).invalidate h.width
  · simp only [Peer.invalidate, Function.update_of_ne hj]
    exact h.room j

theorem steal_inv (h : Inv s) (hwidth : s.calls.length < counterWindowSize) : Inv (steal s) := by
  unfold steal
  split
  · exact h
  · have hnew : ∀ {P : Call → Prop}, (∀ c ∈ s.calls, P c) →
        P ⟨ids s.peer.stagedPacketQueue, s.peer.stagedPacketQueue, .take⟩ →
        ∀ c ∈ s.calls ++ [⟨ids s.peer.stagedPacketQueue, s.peer.stagedPacketQueue, .take⟩],
          P c := by
      intro P hall hP c hc
      rcases List.mem_append.mp hc with hc | hc
      · exact hall c hc
      · exact List.mem_singleton.mp hc ▸ hP
    constructor
    · show (s.calls ++ [_]).length ≤ _
      rw [List.length_append, List.length_singleton]
      omega
    · exact h.current
    · exact hnew h.born nofun
    · exact h.unborn
    · intro k
      have hroom := h.room k
      simpa [Room, List.countP_append, Call.failed, Call.counting] using hroom
    · exact hnew h.calls ⟨rfl, nofun, List.Pairwise.nil⟩
    · have hissued := h.issued
      simpa [Call.nonces] using hissued
    · exact h.below
    · refine List.perm_iff_count.mpr fun a => ?_
      have hbefore := List.perm_iff_count.mp h.conserved a
      simp only [Peer.accounted, List.count_append, List.flatMap_append, List.flatMap_singleton]
        at hbefore ⊢
      simp only [ids, List.map_nil, List.count_nil] at hbefore ⊢
      omega

theorem step_inv (s : State) (l : Action) (s' : State) (h : Inv s)
    (hstep : machine.step s l = some s') : Inv s' := by
  cases l with
  | stage packets =>
    obtain rfl := Option.some.inj hstep
    exact stage_inv h packets
  | keepalive packet =>
    obtain rfl := Option.some.inj hstep
    exact keepalive_inv h packet
  | purge =>
    obtain rfl := Option.some.inj hstep
    exact purge_inv h
  | tick now =>
    obtain rfl := Option.some.inj hstep
    exact { h with }
  | create birthdate =>
    obtain rfl := Option.some.inj hstep
    exact create_inv h birthdate
  | publish k =>
    cases k with
    | none =>
      obtain rfl := Option.some.inj hstep
      exact { h with current := nofun }
    | some k =>
      simp only [machine] at hstep
      split at hstep
      · next hk =>
        obtain rfl := Option.some.inj hstep
        exact { h with current := fun j hj => Option.some.inj hj ▸ hk }
      · cases hstep
  | expire k =>
    obtain rfl := Option.some.inj hstep
    exact expire_inv h k
  | call =>
    simp only [machine] at hstep
    split at hstep
    · next hwidth =>
      obtain rfl := Option.some.inj hstep
      exact steal_inv h hwidth
    · cases hstep
  | advance i live =>
    simp only [machine] at hstep
    split at hstep
    · cases hstep
    · next c hc =>
      obtain rfl := Option.some.inj hstep
      exact advance_inv h hc (callStep_effect live s.peer c)

/-! ## Safety -/

/-- A bound on the steps that a call has left. -/
def Call.left (c : Call) : ℕ :=
  match c.pc with
  | .take => c.packets.length + 6
  | .check _ => c.packets.length + 5
  | .expiry _ => c.packets.length + 4
  | .assign _ pos => c.packets.length - pos + 3
  | .invalid _ => 2
  | .nokey => 1

/-- Call `i`, which is `c`, goes on; nothing reaches the queue or `wg_packet_create_data`. -/
def GoesOn (i : ℕ) (c : Call) (s s' : State) : Prop :=
  ∃ c', s'.calls = s.calls.set i c' ∧ c'.stolen = c.stolen ∧ c'.left < c.left ∧
    s'.peer.stagedPacketQueue = s.peer.stagedPacketQueue ∧ s'.peer.handed = s.peer.handed

/-- Call `i`, which is `c`, ends and hands over what it stole, in order and with nonces
that grow. -/
def HandsOver (i : ℕ) (c : Call) (s s' : State) : Prop :=
  s'.calls = s.calls.eraseIdx i ∧ s'.peer.stagedPacketQueue = s.peer.stagedPacketQueue ∧
    ∃ b, s'.peer.handed = s.peer.handed ++ [b] ∧ ids b.packets = c.stolen ∧
      (b.packets.map fun packet => packet.nonce.toNat).Pairwise (· < ·)

/-- Call `i`, which is `c`, ends and puts what it stole back in front of the queue. -/
def PutsBack (i : ℕ) (c : Call) (s s' : State) : Prop :=
  s'.calls = s.calls.eraseIdx i ∧ s'.peer.handed = s.peer.handed ∧
    ids s'.peer.stagedPacketQueue = c.stolen ++ ids s.peer.stagedPacketQueue

/-- What holds in every state that a run reaches. -/
structure Safe (s : State) : Prop where
  /-- No keypair is used with one nonce twice. -/
  noncesDistinct : (s.peer.handed.flatMap Batch.nonces).Nodup
  noncesBelow : ∀ b ∈ s.peer.handed, ∀ packet ∈ b.packets,
    packet.nonce.toNat < rejectAfterMessages
  /-- A call steals the whole queue. -/
  steals : s.calls.length < counterWindowSize → ∃ s', machine.step s .call = some s' ∧
    s'.peer.stagedPacketQueue = [] ∧
    (s.peer.stagedPacketQueue = [] ∧ s'.calls = s.calls ∨
      ∃ c, s'.calls = s.calls ++ [c] ∧ c.stolen = ids s.peer.stagedPacketQueue)
  /-- A call in progress can always go on, for a bounded number of steps, and then hands
  over or puts back all that it stole. -/
  ends : ∀ i c live, s.calls[i]? = some c → ∃ s', machine.step s (.advance i live) = some s' ∧
    (GoesOn i c s s' ∨ HandsOver i c s s' ∨ PutsBack i c s s')
  /-- Every packet that was staged is in the queue, with one call in progress, handed over
  or dropped from the queue, and as often as it was staged. -/
  conserved : s.peer.arrived.Perm (ids s.peer.stagedPacketQueue ++
    s.peer.handed.flatMap (fun b => ids b.packets) ++ s.peer.dropped ++
    s.calls.flatMap Call.stolen)

theorem Effect.ends {i : ℕ} (h : Effect s.peer c p' o) (hok : c.Ok) :
    GoesOn i c s ⟨p', resume s.calls i o⟩ ∨ HandsOver i c s ⟨p', resume s.calls i o⟩ ∨
      PutsBack i c s ⟨p', resume s.calls i o⟩ := by
  cases h with
  | @turn pc h =>
    refine .inl ⟨c.goto pc, rfl, rfl, ?_, rfl, rfl⟩
    unfold Call.left
    dsimp only [Call.goto]
    revert h
    generalize c.pc = start
    intro h
    cases h <;> simp
  | below hpc hpacket _ =>
    obtain ⟨hpos, -⟩ := List.getElem?_eq_some_iff.mp hpacket
    refine .inl ⟨_, rfl, rfl, ?_, rfl, rfl⟩
    simp only [Call.left, Call.goto, Call.number, hpc, List.length_set]
    omega
  | beyond hpc _ _ =>
    refine .inl ⟨_, rfl, rfl, ?_, rfl, rfl⟩
    simp only [Call.left, Call.goto, hpc]
    omega
  | invalidate hpc =>
    refine .inl ⟨_, rfl, rfl, ?_, rfl, rfl⟩
    simp [Call.left, Call.goto, hpc]
  | handOver hpc hpos =>
    refine .inr (.inl ⟨rfl, rfl, _, rfl, hok.whole, ?_⟩)
    have hgrowing := hok.growing
    rw [nonces_handOver hpc hpos, Batch.nonces, List.pairwise_map] at hgrowing
    exact List.pairwise_map.mpr hgrowing
  | putBack _ =>
    refine .inr (.inr ⟨rfl, rfl, ?_⟩)
    show ids (c.packets ++ _) = _
    rw [ids_append, hok.whole]

theorem Inv.safe (h : Inv s) : Safe s where
  noncesDistinct := (List.nodup_append.mp h.issued.1).1
  noncesBelow := by
    intro b hb packet hpacket
    exact h.below b hb (b.keypair, packet.nonce) (List.mem_map_of_mem hpacket)
  steals := by
    intro hwidth
    refine ⟨steal s, by simp [machine, hwidth], ?_⟩
    unfold steal
    split
    · next hempty => exact ⟨hempty, .inl ⟨hempty, rfl⟩⟩
    · exact ⟨rfl, .inr ⟨_, rfl, rfl⟩⟩
  ends := by
    intro i c live hc
    have heffect := callStep_effect live s.peer c
    refine ⟨⟨(callStep live s.peer c).1, resume s.calls i (callStep live s.peer c).2⟩, ?_, ?_⟩
    · simp only [machine, hc]
    · exact heffect.ends (h.calls c (List.mem_of_getElem? hc))
  conserved := h.conserved

/-- Every run of calls that overlap, at most `COUNTER_WINDOW_SIZE` at once, with packets
being staged, keypairs replaced and expired in between. -/
theorem staged_packets_safe {ls : List Action} {s : State}
    (hrun : machine.run init ls = some s) : Safe s :=
  Inv.safe (machine.run_invariant step_inv init_inv hrun)

/-- Two calls overlap: the first steals one packet and counts, the second steals another
and is the first to hand over. -/
def overlappingCalls : List Action :=
  [.create 0, .publish (some 0), .stage [1], .call, .stage [2], .call, .advance 0 true,
    .advance 1 true, .advance 0 true, .advance 1 true, .advance 0 true, .advance 1 true,
    .advance 0 true, .advance 1 true, .advance 1 true]

theorem staged_packets_safe_overlapping :
    ∃ s, machine.run init overlappingCalls = some s ∧ s.peer.handed = [⟨0, [⟨2, 1⟩]⟩] ∧
      s.calls.length = 1 ∧ Safe s := by
  have hrun : ∃ s, machine.run init overlappingCalls = some s ∧
      s.peer.handed = [⟨0, [⟨2, 1⟩]⟩] ∧ s.calls.length = 1 :=
    ⟨_, rfl, by decide, by decide⟩
  obtain ⟨s, hs, hhanded, hcalls⟩ := hrun
  exact ⟨s, hs, hhanded, hcalls, staged_packets_safe hs⟩

end AmneziaWg.StagedQueue
