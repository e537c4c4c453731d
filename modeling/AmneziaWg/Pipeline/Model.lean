import AmneziaWg.PrevQueue

/-!
# Parallel ciphers behind serial queues

Packets are encrypted and decrypted by workers on all CPUs and leave in the order in which
they came. A packet is put into the queue of its peer first, as uncrypted, and then into the
ring of the device. A worker that takes it from the ring ciphers it, says in the packet how
that ended, and queues the serial work of the peer, which takes packets from the peer's queue
for as long as the first of them is done.

* **Model**: `wg_packet_create_data` and `wg_packet_consume_data`, the encryption and the
  decryption worker, `wg_packet_tx_worker` and `wg_packet_rx_poll`, each at its accesses to what
  the others see. The two directions differ in what a `Direction` says.
* **Steps**: `Advanced`, `Polled` and `Stepped`, what a step can do.
-/

namespace AmneziaWg.Pipeline

open Threads

/-! ## Model layer -/

/-- `enum packet_state`. -/
inductive PacketState where
  | uncrypted
  | crypted
  | dead
deriving DecidableEq, Repr

/-- What is counted by references. -/
inductive Ref where
  | peer (p : ℕ)
  | keypair (k : ℕ)
deriving DecidableEq, Repr

/-- Sending or receiving. Packets are numbered as they come; when sending, a packet is a list
of them that shares one keypair. -/
structure Direction (σ : Type) where
  /-- `PACKET_CB(skb)->keypair`. -/
  keypair : ℕ → ℕ
  /-- `keypair->entry.peer`. -/
  owner : ℕ → ℕ
  /-- The CPUs that are online. -/
  cpus : ℕ
  /-- The budget of `wg_packet_rx_poll`; `wg_packet_tx_worker` has none. -/
  budget : Option ℕ
  /-- What the serial work does with a packet that is done: its effect, and whether the packet
  is handed on. -/
  start : σ
  accept : σ → ℕ → σ × Bool

/-- `PACKET_PEER(skb)`. -/
def Direction.peer {σ : Type} (d : Direction σ) (id : ℕ) : ℕ := d.owner (d.keypair id)

/-- A call in progress, by what it does next. From `set` on it is in
`wg_queue_enqueue_per_peer_tx` or `wg_queue_enqueue_per_peer_rx`, called by the worker of a CPU,
or by the submitting call when the ring was full. -/
inductive Thread where
  /-- Read `peer->is_dead`. -/
  | alive (id : ℕ)
  /-- Test and increment the count of the peer's queue. -/
  | enqueue (id : ℕ)
  /-- In `wg_prev_queue_enqueue`, from there on. -/
  | entering (id : ℕ)
  /-- Put the packet into the ring. -/
  | produce (id : ℕ)
  /-- Queue the work of a CPU. -/
  | kick
  /-- Put the references and free the packet. -/
  | refuse (id : ℕ)
  /-- A worker takes a packet from the ring. -/
  | consume (cpu : ℕ)
  /-- Encrypt or decrypt. -/
  | crypt (cpu id : ℕ)
  /-- Take a reference to the peer and set the state of the packet. -/
  | set (cpu : Option ℕ) (id : ℕ) (ok : Bool)
  /-- Queue the serial work of the peer. -/
  | notify (cpu : Option ℕ) (peer : ℕ)
  /-- Put the reference. -/
  | put (cpu : Option ℕ) (peer : ℕ)
deriving DecidableEq, Repr

/-- Where the serial work of a peer stands, by what it does next, with the packets it has
processed so far in `n`. -/
inductive Poll where
  /-- Call `wg_prev_queue_peek`. -/
  | peek (n : ℕ)
  /-- In `wg_prev_queue_peek`, or back from it. -/
  | wait (n : ℕ)
  /-- Read the state of the packet. -/
  | read (n id : ℕ)
  /-- `wg_prev_queue_drop_peeked`. -/
  | drop (n id : ℕ) (ok : Bool)
  /-- Hand the packet on or free it, and put the references. -/
  | finish (n id : ℕ) (ok : Bool)
  /-- The loop has ended. -/
  | leave
deriving DecidableEq, Repr

/-- A work item: queued, or not; running, or not. -/
structure Serial where
  pending : Bool
  run : Option Poll
deriving DecidableEq, Repr

structure State (σ : Type) where
  /-- `tx_queue` or `rx_queue` of each peer. -/
  queues : ℕ → PrevQueue.State
  /-- The ring of `encrypt_queue` or `decrypt_queue`. -/
  ring : List ℕ
  /-- `PACKET_CB(skb)->state`. -/
  cb : ℕ → PacketState
  /-- The work of a CPU is queued. -/
  kicked : ℕ → Bool
  /-- `transmit_packet_work` or `napi` of each peer. -/
  serial : ℕ → Serial
  threads : List Thread
  isDead : ℕ → Bool
  /-- `peer->refcount` and `keypair->refcount`. -/
  refs : Ref → ℕ
  env : σ
  /-- The number of packets so far. -/
  next : ℕ
  /-- References that are held for other purposes. -/
  others : Ref → ℕ
  /-- What became of the packets. -/
  refused : List ℕ
  processed : ℕ → List ℕ
  offered : List ℕ
  delivered : List ℕ

/-- What a step depends on beside the state. -/
structure Choice where
  /-- The answer of `wg_cpumask_next_online`. -/
  cpu : ℕ
  /-- The next place of the ring is empty, or the cipher succeeds. -/
  ok : Bool

/-- The size of the ring. -/
def ringSize : ℕ := PrevQueue.maxQueuedPackets

section Steps

variable {σ : Type} (d : Direction σ)

/-- `wg_peer_get`, `wg_noise_keypair_get`. -/
def State.get (s : State σ) (r : Ref) : State σ :=
  { s with refs := Function.update s.refs r (s.refs r + 1) }

/-- `wg_peer_put`, `wg_noise_keypair_put`. -/
def State.put (s : State σ) (r : Ref) : State σ :=
  { s with refs := Function.update s.refs r (s.refs r - 1) }

/-- The two references that a packet holds. -/
def State.getBoth (s : State σ) (id : ℕ) : State σ :=
  (s.get (.keypair (d.keypair id))).get (.peer (d.peer id))

def State.putBoth (s : State σ) (id : ℕ) : State σ :=
  (s.put (.keypair (d.keypair id))).put (.peer (d.peer id))

/-- One step of the queue of peer `p`. -/
def State.access (s : State σ) (p : ℕ) (l : PrevQueue.Action) : Option (State σ) :=
  (PrevQueue.machine.step (s.queues p) l).map fun q =>
    { s with queues := Function.update s.queues p q }

/-- The packet's state after the cipher. -/
def done (ok : Bool) : PacketState := if ok then .crypted else .dead

/-- A producer of the queue has the packet in hand. -/
def Busy (q : PrevQueue.State) (id : ℕ) : Prop := ∃ pr ∈ q.producers, pr.packet = id

instance (q : PrevQueue.State) (id : ℕ) : Decidable (Busy q id) :=
  inferInstanceAs (Decidable (∃ pr ∈ q.producers, pr.packet = id))

/-- The next step of a call. -/
def advance (s : State σ) (c : Choice) : Thread → Option (State σ × Option Thread)
  | .alive id =>
    if s.isDead (d.peer id) then some (s, some (.refuse id))
    else some ({ s with cb := Function.update s.cb id .uncrypted }, some (.enqueue id))
  | .enqueue id =>
    if (s.queues (d.peer id)).count = PrevQueue.maxQueuedPackets then
      some (s, some (.refuse id))
    else (s.access (d.peer id) (.enqueue id)).map fun t => (t, some (.entering id))
  | .entering id =>
    if Busy (s.queues (d.peer id)) id then none else some (s, some (.produce id))
  | .produce id =>
    if c.ok ∧ s.ring.length < ringSize then
      some ({ s with ring := s.ring ++ [id] }, some .kick)
    else some (s, some (.set none id false))
  | .kick =>
    if c.cpu < d.cpus then some ({ s with kicked := Function.update s.kicked c.cpu true }, none)
    else none
  | .refuse id => some ({ s.putBoth d id with refused := s.refused ++ [id] }, none)
  | .consume cpu =>
    match s.ring with
    | [] => some (s, none)
    | id :: ring => some ({ s with ring := ring }, some (.crypt cpu id))
  | .crypt cpu id => some (s, some (.set (some cpu) id c.ok))
  | .set cpu id ok =>
    some ({ s.get (.peer (d.peer id)) with cb := Function.update s.cb id (done ok) },
      some (.notify cpu (d.peer id)))
  | .notify cpu p =>
    some ({ s with
        serial := Function.update s.serial p { s.serial p with pending := true } },
      some (.put cpu p))
  | .put cpu p => some (s.put (.peer p), cpu.map .consume)

/-- The serial work of peer `p` goes on with `pc`. -/
def State.goto (s : State σ) (p : ℕ) (pc : Option Poll) : State σ :=
  { s with serial := Function.update s.serial p { s.serial p with run := pc } }

/-- What happens to a packet whose cipher succeeded. -/
def State.offer (s : State σ) (id : ℕ) : State σ :=
  { s with
    env := (d.accept s.env id).1
    offered := s.offered ++ [id]
    delivered := if (d.accept s.env id).2 then s.delivered ++ [id] else s.delivered }

/-- The end of the loop's body: the packet is handed on or freed, and both references are
put. -/
def State.settle (s : State σ) (p id : ℕ) (ok : Bool) : State σ :=
  let s' := (if ok then s.offer d id else s).putBoth d id
  { s' with processed := Function.update s'.processed p (s'.processed p ++ [id]) }

/-- The next step of the serial work of peer `p`. When the budget is used up, the work stays
queued. -/
def poll (s : State σ) (p : ℕ) : Poll → Option (State σ)
  | .peek n => (s.access p .peek).map fun t => t.goto p (some (.wait n))
  | .wait n =>
    if (s.queues p).consumer = .idle then
      match (s.queues p).peeked with
      | none => some (s.goto p (some .leave))
      | some (.packet id) => some (s.goto p (some (.read n id)))
      | some .stub => none
    else none
  | .read n id =>
    match s.cb id with
    | .uncrypted => some (s.goto p (some .leave))
    | .crypted => some (s.goto p (some (.drop n id true)))
    | .dead => some (s.goto p (some (.drop n id false)))
  | .drop n id ok => (s.access p .dropPeeked).map fun t => t.goto p (some (.finish n id ok))
  | .finish n id ok =>
    let s' := s.settle d p id ok
    if d.budget.any (· ≤ n + 1) then
      some { s' with serial := Function.update s'.serial p ⟨true, none⟩ }
    else some (s'.goto p (some (.peek (n + 1))))
  | .leave => some (s.goto p none)

/-- The accesses to a queue that calls in progress make. -/
inductive Access where
  | produce (i : ℕ)
  | consume
deriving DecidableEq, Repr

def Access.action : Access → PrevQueue.Action
  | .produce i => .produce i
  | .consume => .consume

inductive Action where
  /-- A packet comes, with references to its keypair and its peer. -/
  | submit
  | thread (i : ℕ) (c : Choice)
  | access (p : ℕ) (l : Access)
  /-- The queued work of a CPU is run. -/
  | run (cpu : ℕ)
  /-- The queued serial work of a peer is run. -/
  | runSerial (p : ℕ)
  | poll (p : ℕ)
  /-- `WRITE_ONCE(peer->is_dead, true)`. -/
  | die (p : ℕ)
  /-- References for other purposes. -/
  | get (r : Ref)
  | put (r : Ref)

/-- The worker of a CPU is running. -/
def Thread.onCpu : Thread → Option ℕ
  | .consume cpu => some cpu
  | .crypt cpu _ => some cpu
  | .set cpu _ _ => cpu
  | .notify cpu _ => cpu
  | .put cpu _ => cpu
  | _ => none

def step (s : State σ) : Action → Option (State σ)
  | .submit =>
    some { s.getBoth d s.next with
      threads := s.threads ++ [.alive s.next]
      next := s.next + 1 }
  | .thread i c =>
    s.threads[i]?.bind fun t => (advance d s c t).map fun r =>
      { r.1 with threads := resume s.threads i r.2 }
  | .access p l => s.access p l.action
  | .run cpu =>
    if s.kicked cpu ∧ ∀ t ∈ s.threads, t.onCpu ≠ some cpu then
      some { s with
        kicked := Function.update s.kicked cpu false
        threads := s.threads ++ [.consume cpu] }
    else none
  | .runSerial p =>
    if (s.serial p).pending ∧ (s.serial p).run = none then
      some { s with serial := Function.update s.serial p ⟨false, some (.peek 0)⟩ }
    else none
  | .poll p => (s.serial p).run.bind (poll d s p)
  | .die p => some { s with isDead := Function.update s.isDead p true }
  | .get r => some { s.get r with others := Function.update s.others r (s.others r + 1) }
  | .put r =>
    if 0 < s.others r then
      some { s.put r with others := Function.update s.others r (s.others r - 1) }
    else none

def machine : Machine (State σ) Action := ⟨step d⟩

/-- Before the first packet, with whatever references there are. -/
def init (refs : Ref → ℕ) : State σ where
  queues := fun _ => PrevQueue.init
  ring := []
  cb := fun _ => .dead
  kicked := fun _ => false
  serial := fun _ => ⟨false, none⟩
  threads := []
  isDead := fun _ => false
  refs := refs
  env := d.start
  next := 0
  others := refs
  refused := []
  processed := fun _ => []
  offered := []
  delivered := []

end Steps

/-! ## Steps -/

section Inversion

variable {σ : Type} {d : Direction σ} {s s' : State σ}

/-- What the next step of a call can be, and what becomes of the call. -/
inductive Advanced (d : Direction σ) (s : State σ) : Thread → State σ → Option Thread → Prop
  /-- The peer is dead. -/
  | dead (id : ℕ) : Advanced d s (.alive id) s (some (.refuse id))
  | alive (id : ℕ) :
      Advanced d s (.alive id) { s with cb := Function.update s.cb id .uncrypted }
        (some (.enqueue id))
  /-- The queue of the peer is full. -/
  | full (id : ℕ) : Advanced d s (.enqueue id) s (some (.refuse id))
  | count (id : ℕ) (q : PrevQueue.State)
      (hroom : (s.queues (d.peer id)).count ≠ PrevQueue.maxQueuedPackets)
      (hstep : PrevQueue.machine.step (s.queues (d.peer id)) (.enqueue id) = some q) :
      Advanced d s (.enqueue id) { s with queues := Function.update s.queues (d.peer id) q }
        (some (.entering id))
  | entered (id : ℕ) (hfree : ¬ Busy (s.queues (d.peer id)) id) :
      Advanced d s (.entering id) s (some (.produce id))
  | produced (id : ℕ) :
      Advanced d s (.produce id) { s with ring := s.ring ++ [id] } (some .kick)
  /-- The ring is full. -/
  | overflow (id : ℕ) : Advanced d s (.produce id) s (some (.set none id false))
  | kick (cpu : ℕ) (hcpu : cpu < d.cpus) :
      Advanced d s .kick { s with kicked := Function.update s.kicked cpu true } none
  | refuse (id : ℕ) :
      Advanced d s (.refuse id) { s.putBoth d id with refused := s.refused ++ [id] } none
  | empty (cpu : ℕ) (hring : s.ring = []) : Advanced d s (.consume cpu) s none
  | take (cpu id : ℕ) (ring : List ℕ) (hring : s.ring = id :: ring) :
      Advanced d s (.consume cpu) { s with ring := ring } (some (.crypt cpu id))
  | crypt (cpu id : ℕ) (ok : Bool) :
      Advanced d s (.crypt cpu id) s (some (.set (some cpu) id ok))
  | set (cpu : Option ℕ) (id : ℕ) (ok : Bool) :
      Advanced d s (.set cpu id ok)
        { s.get (.peer (d.peer id)) with cb := Function.update s.cb id (done ok) }
        (some (.notify cpu (d.peer id)))
  | notify (cpu : Option ℕ) (p : ℕ) :
      Advanced d s (.notify cpu p)
        { s with serial := Function.update s.serial p { s.serial p with pending := true } }
        (some (.put cpu p))
  | put (cpu : Option ℕ) (p : ℕ) :
      Advanced d s (.put cpu p) (s.put (.peer p)) (cpu.map .consume)

theorem access_eq_some {p : ℕ} {l : PrevQueue.Action} (h : s.access p l = some s') :
    ∃ q, PrevQueue.machine.step (s.queues p) l = some q ∧
      s' = { s with queues := Function.update s.queues p q } := by
  obtain ⟨q, hstep, rfl⟩ := Option.map_eq_some_iff.mp h
  exact ⟨q, hstep, rfl⟩

theorem advanced_of_advance {c : Choice} {t : Thread} {o : Option Thread}
    (h : advance d s c t = some (s', o)) : Advanced d s t s' o := by
  cases t with
  | alive id =>
    simp only [advance] at h
    split at h
    · cases h
      exact .dead id
    · cases h
      exact .alive id
  | enqueue id =>
    simp only [advance] at h
    split at h
    · cases h
      exact .full id
    · next hroom =>
      obtain ⟨t, haccess, heq⟩ := Option.map_eq_some_iff.mp h
      obtain ⟨q, hstep, rfl⟩ := access_eq_some haccess
      cases heq
      exact .count id q hroom hstep
  | entering id =>
    simp only [advance] at h
    split at h
    · cases h
    · next hfree =>
      cases h
      exact .entered id hfree
  | produce id =>
    simp only [advance] at h
    split at h
    · cases h
      exact .produced id
    · cases h
      exact .overflow id
  | kick =>
    simp only [advance] at h
    split at h
    · next hcpu =>
      cases h
      exact .kick c.cpu hcpu
    · cases h
  | refuse id =>
    cases h
    exact .refuse id
  | consume cpu =>
    simp only [advance] at h
    split at h
    · next hring =>
      cases h
      exact .empty cpu hring
    · next id ring hring =>
      cases h
      exact .take cpu id ring hring
  | crypt cpu id =>
    cases h
    exact .crypt cpu id c.ok
  | set cpu id ok =>
    cases h
    exact .set cpu id ok
  | notify cpu p =>
    cases h
    exact .notify cpu p
  | put cpu p =>
    cases h
    exact .put cpu p

/-- What the next step of the serial work of peer `p` can be. -/
inductive Polled (d : Direction σ) (s : State σ) (p : ℕ) : Poll → State σ → Prop
  | peek (n : ℕ) (q : PrevQueue.State)
      (hstep : PrevQueue.machine.step (s.queues p) .peek = some q) :
      Polled d s p (.peek n)
        (State.goto { s with queues := Function.update s.queues p q } p (some (.wait n)))
  /-- `wg_prev_queue_peek` returned `NULL`. -/
  | none (n : ℕ) (hidle : (s.queues p).consumer = .idle) (hpeeked : (s.queues p).peeked = none) :
      Polled d s p (.wait n) (s.goto p (some .leave))
  | found (n id : ℕ) (hidle : (s.queues p).consumer = .idle)
      (hpeeked : (s.queues p).peeked = some (.packet id)) :
      Polled d s p (.wait n) (s.goto p (some (.read n id)))
  | uncrypted (n id : ℕ) (hcb : s.cb id = .uncrypted) :
      Polled d s p (.read n id) (s.goto p (some .leave))
  | ready (n id : ℕ) (ok : Bool) (hcb : s.cb id = done ok) :
      Polled d s p (.read n id) (s.goto p (some (.drop n id ok)))
  | drop (n id : ℕ) (ok : Bool) (q : PrevQueue.State)
      (hstep : PrevQueue.machine.step (s.queues p) .dropPeeked = some q) :
      Polled d s p (.drop n id ok)
        (State.goto { s with queues := Function.update s.queues p q } p (some (.finish n id ok)))
  /-- The loop goes on, or the work is queued again. -/
  | finish (n id : ℕ) (ok : Bool) (w : Serial)
      (hw : w = { s.serial p with run := some (.peek (n + 1)) } ∨ w = ⟨true, .none⟩) :
      Polled d s p (.finish n id ok)
        { s.settle d p id ok with serial := Function.update s.serial p w }
  | leave : Polled d s p .leave (s.goto p .none)

theorem settle_serial (p id : ℕ) (ok : Bool) : (s.settle d p id ok).serial = s.serial := by
  cases ok <;> rfl

theorem polled_of_poll {p : ℕ} {pc : Poll} (h : poll d s p pc = some s') : Polled d s p pc s' := by
  cases pc with
  | peek n =>
    obtain ⟨t, haccess, rfl⟩ := Option.map_eq_some_iff.mp h
    obtain ⟨q, hstep, rfl⟩ := access_eq_some haccess
    exact .peek n q hstep
  | wait n =>
    simp only [poll] at h
    split at h
    · next hidle =>
      split at h
      · next hpeeked =>
        cases h
        exact .none n hidle hpeeked
      · next id hpeeked =>
        cases h
        exact .found n id hidle hpeeked
      · cases h
    · cases h
  | read n id =>
    simp only [poll] at h
    split at h
    · next hcb =>
      cases h
      exact .uncrypted n id hcb
    · next hcb =>
      cases h
      exact .ready n id true hcb
    · next hcb =>
      cases h
      exact .ready n id false hcb
  | drop n id ok =>
    obtain ⟨t, haccess, rfl⟩ := Option.map_eq_some_iff.mp h
    obtain ⟨q, hstep, rfl⟩ := access_eq_some haccess
    exact .drop n id ok q hstep
  | finish n id ok =>
    simp only [poll, State.goto, settle_serial] at h
    split at h
    · cases h
      exact .finish n id ok _ (.inr rfl)
    · cases h
      exact .finish n id ok _ (.inl rfl)
  | leave =>
    cases h
    exact .leave

/-- What a step can be. -/
inductive Stepped (d : Direction σ) (s : State σ) : Action → State σ → Prop
  | submit :
      Stepped d s .submit
        { s.getBoth d s.next with
          threads := s.threads ++ [.alive s.next]
          next := s.next + 1 }
  | thread (i : ℕ) (c : Choice) (t : Thread) (o : Option Thread) (u : State σ)
      (ht : s.threads[i]? = some t) (hadvanced : Advanced d s t u o) :
      Stepped d s (.thread i c) { u with threads := resume s.threads i o }
  | access (p : ℕ) (l : Access) (q : PrevQueue.State)
      (hstep : PrevQueue.machine.step (s.queues p) l.action = some q) :
      Stepped d s (.access p l) { s with queues := Function.update s.queues p q }
  | run (cpu : ℕ) (hkicked : s.kicked cpu = true) :
      Stepped d s (.run cpu)
        { s with
          kicked := Function.update s.kicked cpu false
          threads := s.threads ++ [.consume cpu] }
  | runSerial (p : ℕ) (hpending : (s.serial p).pending = true) (hrun : (s.serial p).run = none) :
      Stepped d s (.runSerial p)
        { s with serial := Function.update s.serial p ⟨false, some (.peek 0)⟩ }
  | poll (p : ℕ) (pc : Poll) (u : State σ) (hrun : (s.serial p).run = some pc)
      (hpolled : Polled d s p pc u) : Stepped d s (.poll p) u
  | die (p : ℕ) : Stepped d s (.die p) { s with isDead := Function.update s.isDead p true }
  | get (r : Ref) :
      Stepped d s (.get r)
        { s.get r with others := Function.update s.others r (s.others r + 1) }
  | put (r : Ref) (hheld : 0 < s.others r) :
      Stepped d s (.put r)
        { s.put r with others := Function.update s.others r (s.others r - 1) }

theorem stepped_of_step {a : Action} (h : step d s a = some s') : Stepped d s a s' := by
  cases a with
  | submit =>
    cases h
    exact .submit
  | thread i c =>
    obtain ⟨t, ht, h⟩ := Option.bind_eq_some_iff.mp h
    obtain ⟨⟨u, o⟩, hadvance, rfl⟩ := Option.map_eq_some_iff.mp h
    exact .thread i c t o u ht (advanced_of_advance hadvance)
  | access p l =>
    obtain ⟨q, hstep, rfl⟩ := access_eq_some h
    exact .access p l q hstep
  | run cpu =>
    simp only [step] at h
    split at h
    · next hrun =>
      cases h
      exact .run cpu hrun.1
    · cases h
  | runSerial p =>
    simp only [step] at h
    split at h
    · next hrun =>
      cases h
      exact .runSerial p hrun.1 hrun.2
    · cases h
  | poll p =>
    obtain ⟨pc, hrun, h⟩ := Option.bind_eq_some_iff.mp h
    exact .poll p pc s' hrun (polled_of_poll h)
  | die p =>
    cases h
    exact .die p
  | get r =>
    cases h
    exact .get r
  | put r =>
    simp only [step] at h
    split at h
    · next hheld =>
      cases h
      exact .put r hheld
    · cases h

end Inversion

end AmneziaWg.Pipeline
