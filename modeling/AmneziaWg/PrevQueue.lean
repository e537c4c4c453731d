import AmneziaWg.Lib.LinkedChain
import AmneziaWg.Lib.Machine
import AmneziaWg.Lib.Threads
import Mathlib.Data.List.Perm.Basic

/-!
# The queue of a peer

The packets of a peer, in the order in which they are to be delivered. Any number of
producers put packets at its head, without a lock: a producer first makes its packet the
head and then links the previous head to it. The single consumer takes packets from the
tail. A stub keeps the queue from being empty; the consumer puts it back behind the last
packet when it needs to take that one.

* **Model**: the accesses of `wg_prev_queue_enqueue`, `wg_prev_queue_dequeue`,
  `wg_prev_queue_peek` and `wg_prev_queue_drop_peeked`, one step each.
* **Invariant**: `Inv`, the nodes from tail to head are a chain whose missing links are
  those of producers on their way.
* **Safety**: `prevQueue_fifo`, over all runs.
-/

namespace AmneziaWg.PrevQueue

open LinkedChain Threads

/-! ## Model layer -/

/-- `MAX_QUEUED_PACKETS`. -/
def maxQueuedPackets : ℕ := 1024

/-- What links point to. -/
inductive Node where
  /-- `STUB(queue)`. -/
  | stub
  | packet (id : ℕ)
deriving DecidableEq, Repr

/-- `struct prev_queue`, and the links `NEXT(skb)` of the nodes. -/
structure Queue where
  next : Node → Option Node
  head : Node
  tail : Node
  peeked : Option Node
  count : ℕ

/-- `wg_prev_queue_init`. -/
def wgPrevQueueInit : Queue where
  next := fun _ => none
  head := .stub
  tail := .stub
  peeked := none
  count := 0

/-- Where a call of `wg_prev_queue_enqueue` stands, by what it does next. -/
inductive Producer where
  /-- Clear the link of the packet. -/
  | clear (id : ℕ)
  /-- Exchange the head. -/
  | swap (id : ℕ)
  /-- Link the previous head. -/
  | link (id : ℕ) (prev : Node)
deriving DecidableEq, Repr

/-- Where a call of `wg_prev_queue_dequeue` stands, by what it does next. -/
inductive Consumer where
  /-- No call is in progress. -/
  | idle
  /-- Load the link of the tail. -/
  | first
  /-- The stub was skipped: load the link of the new tail. -/
  | second (tail : Node)
  /-- There was no link: compare with the head. -/
  | compare (tail : Node)
  /-- Clear the link of the stub. -/
  | clear (tail : Node)
  /-- Exchange the head for the stub. -/
  | swap (tail : Node)
  /-- Link the previous head to the stub. -/
  | link (tail prev : Node)
  /-- Load the link again. -/
  | reload (tail : Node)
  /-- The tail was moved: decrement the count and return. -/
  | release (tail : Node)
deriving DecidableEq, Repr

/-- What a call of `wg_prev_queue_dequeue` returned, and whether the queue was quiet at
some moment during the call. -/
structure Answer where
  node : Option Node
  excused : Bool
deriving DecidableEq, Repr

/-- The queue, the calls in progress, and what happened so far. -/
structure State extends Queue where
  producers : List Producer
  consumer : Consumer
  /-- The call is made by `wg_prev_queue_peek`. -/
  peeking : Bool
  /-- The packets that were counted, and those whose head exchange took place, in order. -/
  admitted : List ℕ
  exchanged : List ℕ
  /-- The nodes from the tail to the head, by their head exchanges. -/
  chain : List Node
  answers : List Answer
  excused : Bool

def Producer.packet : Producer → ℕ
  | .clear id => id
  | .swap id => id
  | .link id _ => id

/-- The producer is between its head exchange and its link. -/
def Producer.linking : Producer → Bool
  | .link _ _ => true
  | _ => false

/-- What the consumer has got so far. -/
def returned (s : State) : List Node := s.answers.filterMap Answer.node

/-- All packets have been returned, or some producer is between its head exchange and its
link. -/
def quiet (s : State) : Bool :=
  s.exchanged.length = (returned s).length || s.producers.any Producer.linking

/-- One access of a producer. -/
def produce (s : State) : Producer → State × Option Producer
  | .clear id => ({ s with next := Function.update s.next (.packet id) none }, some (.swap id))
  | .swap id =>
    ({ s with
        head := .packet id
        exchanged := s.exchanged ++ [id]
        chain := s.chain ++ [.packet id] },
      some (.link id s.head))
  | .link id prev => ({ s with next := Function.update s.next prev (some (.packet id)) }, none)

/-- The call returns. -/
def finish (s : State) (node : Option Node) : State :=
  { s with
    consumer := .idle
    peeked := if s.peeking then node else s.peeked
    answers := s.answers ++ [⟨node, s.excused⟩] }

/-- `queue->tail = next`, and on to `consumer`. -/
def moveTail (s : State) (next : Node) (consumer : Consumer) : State :=
  { s with tail := next, chain := s.chain.tail, consumer := consumer }

/-- One access of the consumer. -/
def consume (s : State) : Option State :=
  match s.consumer with
  | .idle => none
  | .first =>
    if s.tail = .stub then
      match s.next s.tail with
      | none => some (finish s none)
      | some next => some (moveTail s next (.second next))
    else
      match s.next s.tail with
      | none => some { s with consumer := .compare s.tail }
      | some next => some (moveTail s next (.release s.tail))
  | .second tail =>
    match s.next tail with
    | none => some { s with consumer := .compare tail }
    | some next => some (moveTail s next (.release tail))
  | .compare tail =>
    if tail ≠ s.head then some (finish s none) else some { s with consumer := .clear tail }
  | .clear tail =>
    some { s with next := Function.update s.next .stub none, consumer := .swap tail }
  | .swap tail =>
    some { s with head := .stub, chain := s.chain ++ [.stub], consumer := .link tail s.head }
  | .link tail prev =>
    some { s with next := Function.update s.next prev (some .stub), consumer := .reload tail }
  | .reload tail =>
    match s.next tail with
    | none => some (finish s none)
    | some next => some (moveTail s next (.release tail))
  | .release tail => some (finish { s with count := s.count - 1 } (some tail))

/-- A dequeue begins. -/
def begin (s : State) (peeking : Bool) : State :=
  { s with consumer := .first, peeking := peeking, excused := false }

/-- While a call is in progress, quiet moments are noted. -/
def observe (s : State) : State :=
  if s.consumer = .idle then s else { s with excused := s.excused || quiet s }

inductive Action where
  /-- A producer begins: the test-and-increment of the count. -/
  | enqueue (id : ℕ)
  | produce (i : ℕ)
  | dequeue
  | peek
  | dropPeeked
  | consume
deriving DecidableEq, Repr

/-- The packet is neither in the queue nor in the hands of a producer. -/
def Free (s : State) (id : ℕ) : Prop :=
  .packet id ∉ s.chain ∧ ∀ p ∈ s.producers, p.packet ≠ id

instance (s : State) (id : ℕ) : Decidable (Free s id) := inferInstanceAs (Decidable (_ ∧ _))

/-- The test-and-increment of `wg_prev_queue_enqueue`. -/
def countIn (s : State) (id : ℕ) : State :=
  if s.count = maxQueuedPackets then s
  else
    { s with
      count := s.count + 1
      admitted := s.admitted ++ [id]
      producers := s.producers ++ [.clear id] }

/-- One step of a producer, of the consumer, or the beginning of a call. Nobody enqueues a
packet that is in the queue. -/
def act (s : State) : Action → Option State
  | .enqueue id => if Free s id then some (countIn s id) else none
  | .produce i =>
    match s.producers[i]? with
    | none => none
    | some p =>
      let (s', p') := PrevQueue.produce s p
      some { s' with producers := resume s.producers i p' }
  | .dequeue => if s.consumer = .idle then some (begin s false) else none
  | .peek =>
    if s.consumer = .idle then
      match s.peeked with
      | some _ => some s
      | none => some (begin s true)
    else none
  | .dropPeeked => if s.consumer = .idle then some { s with peeked := none } else none
  | .consume => PrevQueue.consume s

def machine : Machine State Action where
  step s l := (act s l).map observe

def init : State where
  toQueue := wgPrevQueueInit
  producers := []
  consumer := .idle
  peeking := false
  admitted := []
  exchanged := []
  chain := [.stub]
  answers := []
  excused := false

/-! ## Invariant -/

/-- A link that somebody is about to set. -/
def Missing (s : State) (x y : Node) : Prop :=
  (∃ id, .link id x ∈ s.producers ∧ y = .packet id) ∨
    ∃ tail, s.consumer = .link tail x ∧ y = .stub

/-- The packets that a producer has not made the head yet. -/
def Producer.waiting : Producer → List ℕ
  | .clear id => [id]
  | .swap id => [id]
  | .link _ _ => []

/-- The packet that the consumer is about to return. -/
def Consumer.taken : Consumer → List Node
  | .release tail => [tail]
  | _ => []

/-- What a producer relies on before its exchange. -/
def ProducerOk (s : State) : Producer → Prop
  | .clear id => .packet id ∉ s.chain
  | .swap id => .packet id ∉ s.chain ∧ s.next (.packet id) = none
  | .link _ _ => True

/-- What the consumer relies on in the middle of a call. -/
def ConsumerOk (s : State) : Prop :=
  match s.consumer with
  | .idle => True
  | .first => True
  | .second tail => tail = s.tail ∧ tail ≠ .stub
  | .compare tail => tail = s.tail ∧ tail ≠ .stub
  | .clear tail => tail = s.tail ∧ tail ≠ .stub ∧ .stub ∉ s.chain
  | .swap tail => tail = s.tail ∧ tail ≠ .stub ∧ .stub ∉ s.chain ∧ s.next .stub = none
  | .link tail _ => tail = s.tail ∧ tail ≠ .stub
  | .reload tail => tail = s.tail ∧ tail ≠ .stub ∧ .stub ∈ s.chain
  | .release tail => tail ≠ .stub

structure Inv (s : State) : Prop where
  front : s.chain.head? = some s.tail
  back : s.chain.getLast? = some s.head
  linked : Linked s.next (Missing s) s.chain
  owners : (s.producers.map Producer.packet).Nodup
  producers : ∀ p ∈ s.producers, ProducerOk s p
  consumer : ConsumerOk s
  order : s.exchanged.map Node.packet =
    returned s ++ s.consumer.taken ++ s.chain.filter (· ≠ .stub)
  admitted : s.admitted.Perm (s.producers.flatMap Producer.waiting ++ s.exchanged)
  count : s.count + (returned s).length = s.admitted.length
  bound : s.count ≤ maxQueuedPackets
  peeked : ∀ node, s.peeked = some node → node ∈ returned s

theorem init_inv : Inv init where
  front := rfl
  back := rfl
  linked := by
    refine ⟨List.nodup_singleton _, ?_, ?_, fun _ _ => rfl⟩
    · intro x y h
      rw [show init.chain = [.stub] from rfl, pair_infix_cons] at h
      simp at h
    · rintro x y (⟨_, h, _⟩ | ⟨_, h, _⟩)
      · cases h
      · cases h
  owners := List.nodup_nil
  producers := nofun
  consumer := trivial
  order := rfl
  admitted := List.Perm.nil
  count := rfl
  bound := Nat.zero_le _
  peeked := nofun

/-! ## Producers -/

variable {t : State} {id : ℕ}

section Producing

variable {s : State} {i : ℕ} {p : Producer}

/-- Other producers have other packets. -/
theorem Inv.other_packet (h : Inv s) (hp : s.producers[i]? = some p) {q : Producer}
    (hq : q ∈ s.producers.eraseIdx i) : q.packet ≠ p.packet := by
  have hnodup := ((perm_thread hp).map Producer.packet).nodup_iff.mp h.owners
  rw [List.map_cons, List.nodup_cons] at hnodup
  exact fun heq => hnodup.1 (heq ▸ List.mem_map_of_mem hq)

theorem mem_producers (hp : s.producers[i]? = some p) (q : Producer) :
    q ∈ s.producers ↔ q = p ∨ q ∈ s.producers.eraseIdx i := by
  rw [(perm_thread hp).mem_iff, List.mem_cons]

theorem mem_resumed (hp : s.producers[i]? = some p) (o : Option Producer) (q : Producer) :
    q ∈ resume s.producers i o ↔ o = some q ∨ q ∈ s.producers.eraseIdx i := by
  rw [(resume_perm hp o).mem_iff, List.mem_append, Option.mem_toList]

/-- A producer that goes on keeps its packet. -/
theorem owners_resumed (h : Inv s) (hp : s.producers[i]? = some p) {o : Option Producer}
    (ho : ∀ q, o = some q → q.packet = p.packet) :
    ((resume s.producers i o).map Producer.packet).Nodup := by
  have hbefore := ((perm_thread hp).map Producer.packet).nodup_iff.mp h.owners
  refine ((resume_perm hp o).map Producer.packet).nodup_iff.mpr ?_
  cases o with
  | none => exact (List.nodup_cons.mp hbefore).2
  | some q =>
    rw [List.map_append, Option.toList_some, List.map_singleton, ho q rfl]
    exact hbefore

theorem waiting_resumed (hp : s.producers[i]? = some p) {o : Option Producer} {xs ys : List ℕ}
    (hmove : (p.waiting ++ xs).Perm (o.toList.flatMap Producer.waiting ++ ys)) :
    (s.producers.flatMap Producer.waiting ++ xs).Perm
      ((resume s.producers i o).flatMap Producer.waiting ++ ys) := by
  have hbefore := (flatMap_thread_perm Producer.waiting hp).append_right xs
  have hafter := (flatMap_resume_perm Producer.waiting hp o).append_right ys
  refine hbefore.trans (List.Perm.trans ?_ hafter.symm)
  refine (List.perm_append_comm.append_right _).trans ?_
  refine List.Perm.trans ?_ (List.perm_append_comm.append_right _)
  rw [List.append_assoc, List.append_assoc]
  exact hmove.append_left _

/-- The consumer's side of a producer's step. -/
theorem ConsumerOk.produced (h : ConsumerOk s) (hconsumer : t.consumer = s.consumer)
    (htail : t.tail = s.tail) (hstub : .stub ∈ t.chain ↔ .stub ∈ s.chain)
    (hnext : .stub ∉ s.chain → t.next .stub = s.next .stub) : ConsumerOk t := by
  unfold ConsumerOk at h ⊢
  rw [hconsumer]
  cases hc : s.consumer with
  | idle => trivial
  | first => trivial
  | second tail => rw [hc] at h; simpa [htail] using h
  | compare tail => rw [hc] at h; simpa [htail] using h
  | clear tail => rw [hc] at h; simpa [htail, hstub] using h
  | swap tail =>
    rw [hc] at h
    obtain ⟨htail', hne, hout, hnone⟩ := h
    exact ⟨htail'.trans htail.symm, hne, fun hin => hout (hstub.mp hin),
      (hnext hout).trans hnone⟩
  | link tail prev => rw [hc] at h; simpa [htail] using h
  | reload tail => rw [hc] at h; simpa [htail, hstub] using h
  | release tail => rw [hc] at h; exact h

/-- Producers that have not exchanged yet, when another one takes a step. -/
theorem ProducerOk.other {q : Producer} (h : ProducerOk s q)
    (hchain : .packet q.packet ∉ s.chain → .packet q.packet ∉ t.chain)
    (hnext : .packet q.packet ∉ s.chain → t.next (.packet q.packet) = s.next (.packet q.packet)) :
    ProducerOk t q := by
  cases q with
  | clear id => exact hchain h
  | swap id => exact ⟨hchain h.1, (hnext h.1).trans h.2⟩
  | link id prev => trivial

/-- `WRITE_ONCE(NEXT(skb), NULL)`. -/
theorem clear_inv (h : Inv s) (hp : s.producers[i]? = some (.clear id)) :
    Inv { s with
      next := Function.update s.next (.packet id) none
      producers := resume s.producers i (some (.swap id)) } := by
  have hfree : Node.packet id ∉ s.chain := h.producers _ (List.mem_of_getElem? hp)
  constructor
  · exact h.front
  · exact h.back
  · refine (h.linked.update_outside hfree none).congr fun x y => ?_
    simp only [Missing, mem_resumed hp, mem_producers hp]
    simp
  · exact owners_resumed h hp (o := some (.swap id)) fun q hq => Option.some.inj hq ▸ rfl
  · intro q hq
    rcases (mem_resumed hp (some (.swap id)) q).mp hq with hq | hq
    · obtain rfl := Option.some.inj hq
      exact ⟨hfree, Function.update_self _ _ _⟩
    · refine (h.producers q (mem_others hp hq)).other (fun hout => hout) fun _ => ?_
      exact Function.update_of_ne (fun heq => h.other_packet hp hq (Node.packet.inj heq)) _ _
  · have hne : Node.stub ≠ .packet id := nofun
    exact h.consumer.produced rfl rfl Iff.rfl fun _ => Function.update_of_ne hne none s.next
  · exact h.order
  · exact h.admitted.trans (waiting_resumed hp (o := some (.swap id)) (List.Perm.refl _))
  · exact h.count
  · exact h.bound
  · exact h.peeked

/-- `xchg_release(&queue->head, skb)`. -/
theorem swap_inv (h : Inv s) (hp : s.producers[i]? = some (.swap id)) :
    Inv { s with
      head := .packet id
      exchanged := s.exchanged ++ [id]
      chain := s.chain ++ [.packet id]
      producers := resume s.producers i (some (.link id s.head)) } := by
  obtain ⟨hfree, hnone⟩ : Node.packet id ∉ s.chain ∧ s.next (.packet id) = none :=
    h.producers _ (List.mem_of_getElem? hp)
  have hmem := mem_resumed hp (some (.link id s.head))
  constructor
  · show (s.chain ++ [_]).head? = _
    rw [List.head?_append, h.front]
    rfl
  · exact List.getLast?_concat
  · refine h.linked.push h.back hfree hnone fun x y => ?_
    constructor
    · rintro (⟨b, hb, rfl⟩ | hc)
      · rcases (hmem _).mp hb with hb | hb
        · cases hb
          exact .inr ⟨rfl, rfl⟩
        · exact .inl (.inl ⟨b, mem_others hp hb, rfl⟩)
      · exact .inl (.inr hc)
    · rintro ((⟨b, hb, rfl⟩ | hc) | ⟨rfl, rfl⟩)
      · rcases (mem_producers hp _).mp hb with hb | hb
        · cases hb
        · exact .inl ⟨b, (hmem _).mpr (.inr hb), rfl⟩
      · exact .inr hc
      · exact .inl ⟨id, (hmem _).mpr (.inl rfl), rfl⟩
  · exact owners_resumed h hp (o := some (.link id s.head)) fun q hq => Option.some.inj hq ▸ rfl
  · intro q hq
    rcases (hmem q).mp hq with hq | hq
    · obtain rfl := Option.some.inj hq
      trivial
    · refine (h.producers q (mem_others hp hq)).other (fun hout hin => ?_) fun _ => rfl
      rcases List.mem_append.mp hin with hin | hin
      · exact hout hin
      · exact h.other_packet hp hq (Node.packet.inj (List.mem_singleton.mp hin))
  · refine h.consumer.produced rfl rfl ?_ fun _ => rfl
    simp
  · simp [h.order, returned]
  · refine h.admitted.trans (waiting_resumed hp (o := some (.link id s.head)) ?_)
    exact List.perm_append_comm
  · exact h.count
  · exact h.bound
  · exact h.peeked

/-- `WRITE_ONCE(NEXT(prev), skb)`. -/
theorem link_inv {prev : Node} (h : Inv s) (hp : s.producers[i]? = some (.link id prev)) :
    Inv { s with
      next := Function.update s.next prev (some (.packet id))
      producers := resume s.producers i none } := by
  have hxy : Missing s prev (.packet id) := .inl ⟨id, List.mem_of_getElem? hp, rfl⟩
  have hmem := mem_resumed hp none
  have hprev : prev ∈ s.chain := left_mem (h.linked.missing _ _ hxy).1
  constructor
  · exact h.front
  · exact h.back
  · refine h.linked.fill hxy fun x y => ?_
    constructor
    · rintro (⟨b, hb, rfl⟩ | ⟨tail, hc, rfl⟩)
      · -- another producer, so another packet
        rcases (hmem _).mp hb with hb | hb
        · cases hb
        · refine ⟨.inl ⟨b, mem_others hp hb, rfl⟩, fun heq => ?_⟩
          exact h.other_packet hp hb (Node.packet.inj heq.2)
      · exact ⟨.inr ⟨tail, hc, rfl⟩, fun heq => nomatch heq.2⟩
    · rintro ⟨⟨b, hb, rfl⟩ | hc, hne⟩
      · rcases (mem_producers hp _).mp hb with hb | hb
        · cases hb
          exact absurd ⟨rfl, rfl⟩ hne
        · exact .inl ⟨b, (hmem _).mpr (.inr hb), rfl⟩
      · exact .inr hc
  · exact owners_resumed h hp (o := none) nofun
  · intro q hq
    rcases (hmem q).mp hq with hq | hq
    · cases hq
    · refine (h.producers q (mem_others hp hq)).other (fun hout => hout) fun hout => ?_
      have hne : Node.packet q.packet ≠ prev := fun heq => hout (heq ▸ hprev)
      exact Function.update_of_ne hne _ _
  · refine h.consumer.produced rfl rfl Iff.rfl fun hout => ?_
    have hne : Node.stub ≠ prev := fun heq => hout (heq ▸ hprev)
    exact Function.update_of_ne hne _ _
  · exact h.order
  · exact h.admitted.trans (waiting_resumed hp (o := none) (List.Perm.refl _))
  · exact h.count
  · exact h.bound
  · exact h.peeked

theorem produce_inv (h : Inv s) (hp : s.producers[i]? = some p) :
    Inv { (produce s p).1 with producers := resume s.producers i (produce s p).2 } := by
  cases p with
  | clear id => exact clear_inv h hp
  | swap id => exact swap_inv h hp
  | link id prev => exact link_inv h hp

/-- The count of `wg_prev_queue_enqueue`. -/
theorem countIn_inv (h : Inv s) (hfree : Free s id) : Inv (countIn s id) := by
  unfold countIn
  split
  · exact h
  · next hcount =>
    constructor
    · exact h.front
    · exact h.back
    · refine h.linked.congr fun x y => ?_
      simp [Missing]
    · show ((s.producers ++ [Producer.clear id]).map Producer.packet).Nodup
      rw [List.map_append, List.nodup_append]
      refine ⟨h.owners, List.nodup_singleton _, ?_⟩
      rintro a ha b hb rfl
      obtain ⟨q, hq, rfl⟩ := List.mem_map.mp ha
      exact hfree.2 q hq (List.mem_singleton.mp hb)
    · intro q hq
      rcases List.mem_append.mp hq with hq | hq
      · exact h.producers q hq
      · obtain rfl := List.mem_singleton.mp hq
        exact hfree.1
    · exact h.consumer
    · exact h.order
    · show (s.admitted ++ [id]).Perm ((s.producers ++ [Producer.clear id]).flatMap _ ++ _)
      rw [List.flatMap_append, List.append_assoc]
      refine (h.admitted.append_right [id]).trans ?_
      rw [List.append_assoc]
      exact List.perm_append_comm.append_left _
    · show s.count + 1 + _ = (s.admitted ++ [id]).length
      have := h.count
      rw [List.length_append, List.length_singleton, ← this]
      show s.count + 1 + (returned s).length = _
      omega
    · show s.count + 1 ≤ _
      have := h.bound
      omega
    · exact h.peeked

end Producing

/-! ## The consumer -/

variable {tail : Node}

section Consuming

variable {s : State}

/-- The consumer is not about to link. -/
def Consumer.NotLinking (c : Consumer) : Prop := ∀ tail prev, c ≠ .link tail prev

/-- The consumer is in a call, has taken nothing yet and is not about to link. -/
structure Consumer.Reading (c : Consumer) : Prop where
  busy : c ≠ .idle
  notLinking : c.NotLinking
  taken : c.taken = []

/-- What an access of the consumer does, with what it relies on. -/
inductive Consumed (s : State) : State → Prop
  /-- The stub has no link: the queue is empty, or its first packet is not linked yet. -/
  | empty (hread : s.consumer.Reading) (htail : s.tail = .stub) (hnext : s.next s.tail = none) :
      Consumed s (finish s none)
  /-- The stub is skipped. -/
  | skip (hread : s.consumer.Reading) (htail : s.tail = .stub) (next : Node)
      (hnext : s.next s.tail = some next) : Consumed s (moveTail s next (.second next))
  /-- A packet has no link. -/
  | unlinked (hread : s.consumer.Reading) (htail : s.tail ≠ .stub)
      (hnext : s.next s.tail = none) : Consumed s { s with consumer := .compare s.tail }
  /-- A packet has its link and is taken. -/
  | take (hread : s.consumer.Reading) (htail : s.tail ≠ .stub) (next : Node)
      (hnext : s.next s.tail = some next) : Consumed s (moveTail s next (.release s.tail))
  /-- A packet without link is not the head. -/
  | overtaken (hread : s.consumer.Reading) (hc : s.consumer = .compare s.tail)
      (hhead : s.tail ≠ s.head) : Consumed s (finish s none)
  /-- It is the head: the stub is to come behind it. -/
  | alone (hread : s.consumer.Reading) (htail : s.tail ≠ .stub) (hhead : s.tail = s.head) :
      Consumed s { s with consumer := .clear s.tail }
  | clear (tail : Node) (hc : s.consumer = .clear tail) :
      Consumed s { s with next := Function.update s.next .stub none, consumer := .swap tail }
  | swap (tail : Node) (hc : s.consumer = .swap tail) :
      Consumed s
        { s with head := .stub, chain := s.chain ++ [.stub], consumer := .link tail s.head }
  | link (tail prev : Node) (hc : s.consumer = .link tail prev) :
      Consumed s
        { s with next := Function.update s.next prev (some .stub), consumer := .reload tail }
  /-- The stub stands behind the packet, which still has no link. -/
  | late (hread : s.consumer.Reading) (htail : s.tail ≠ .stub) (hstub : .stub ∈ s.chain)
      (hnext : s.next s.tail = none) : Consumed s (finish s none)
  | release (tail : Node) (hc : s.consumer = .release tail) :
      Consumed s (finish { s with count := s.count - 1 } (some tail))

/-- The accesses of the consumer, with the local copies of the tail in step with it. -/
theorem consumed_of_consume (hok : ConsumerOk s) (hstep : consume s = some t) : Consumed s t := by
  unfold ConsumerOk at hok
  unfold consume at hstep
  cases hc : s.consumer with
  | idle =>
    rw [hc] at hstep
    cases hstep
  | first =>
    have hread : s.consumer.Reading := by rw [hc]; exact ⟨nofun, nofun, rfl⟩
    simp only [hc] at hstep
    split at hstep
    · next htail =>
      split at hstep
      · next hnext =>
        obtain rfl := Option.some.inj hstep
        exact .empty hread htail hnext
      · next next hnext =>
        obtain rfl := Option.some.inj hstep
        exact .skip hread htail next hnext
    · next htail =>
      split at hstep
      · next hnext =>
        obtain rfl := Option.some.inj hstep
        exact .unlinked hread htail hnext
      · next next hnext =>
        obtain rfl := Option.some.inj hstep
        exact .take hread htail next hnext
  | second tail =>
    have hread : s.consumer.Reading := by rw [hc]; exact ⟨nofun, nofun, rfl⟩
    simp only [hc] at hstep hok
    obtain ⟨rfl, htail⟩ := hok
    split at hstep
    · next hnext =>
      obtain rfl := Option.some.inj hstep
      exact .unlinked hread htail hnext
    · next next hnext =>
      obtain rfl := Option.some.inj hstep
      exact .take hread htail next hnext
  | compare tail =>
    have hread : s.consumer.Reading := by rw [hc]; exact ⟨nofun, nofun, rfl⟩
    simp only [hc] at hstep hok
    obtain ⟨rfl, htail⟩ := hok
    split at hstep
    · next hhead =>
      obtain rfl := Option.some.inj hstep
      exact .overtaken hread hc hhead
    · next hhead =>
      obtain rfl := Option.some.inj hstep
      exact .alone hread htail (not_not.mp hhead)
  | clear tail =>
    simp only [hc] at hstep
    obtain rfl := Option.some.inj hstep
    exact .clear tail hc
  | swap tail =>
    simp only [hc] at hstep
    obtain rfl := Option.some.inj hstep
    exact .swap tail hc
  | link tail prev =>
    simp only [hc] at hstep
    obtain rfl := Option.some.inj hstep
    exact .link tail prev hc
  | reload tail =>
    have hread : s.consumer.Reading := by rw [hc]; exact ⟨nofun, nofun, rfl⟩
    simp only [hc] at hstep hok
    obtain ⟨rfl, htail, hstub⟩ := hok
    split at hstep
    · next hnext =>
      obtain rfl := Option.some.inj hstep
      exact .late hread htail hstub hnext
    · next next hnext =>
      obtain rfl := Option.some.inj hstep
      exact .take hread htail next hnext
  | release tail =>
    simp only [hc] at hstep
    obtain rfl := Option.some.inj hstep
    exact .release tail hc

theorem missing_iff (hproducers : t.producers = s.producers) (hs : s.consumer.NotLinking)
    (ht : t.consumer.NotLinking) (x y : Node) : Missing t x y ↔ Missing s x y := by
  have hnone : ∀ {u : State}, u.consumer.NotLinking →
      ¬ ∃ tail, u.consumer = .link tail x ∧ y = .stub := by
    rintro u hu ⟨tail, hlink, -⟩
    exact hu tail x hlink
  unfold Missing
  rw [hproducers]
  exact or_congr_right (iff_of_false (hnone ht) (hnone hs))

/-- The consumer goes on without a write. -/
theorem turn_inv (h : Inv s) {c : Consumer} (hs : s.consumer.NotLinking) (hc : c.NotLinking)
    (htaken : c.taken = s.consumer.taken) (hok : ConsumerOk { s with consumer := c }) :
    Inv { s with consumer := c } where
  front := h.front
  back := h.back
  linked := h.linked.congr (missing_iff rfl hs hc)
  owners := h.owners
  producers := h.producers
  consumer := hok
  order := h.order.trans (by rw [← htaken]; rfl)
  admitted := h.admitted
  count := h.count
  bound := h.bound
  peeked := h.peeked

/-- `NULL` is returned. -/
theorem finish_inv (h : Inv s) (hs : s.consumer.NotLinking) (htaken : s.consumer.taken = []) :
    Inv (finish s none) := by
  have hreturned : returned (finish s none) = returned s := by
    simp [returned, finish]
  refine { turn_inv h (c := .idle) hs nofun htaken.symm trivial with
    order := ?_, count := ?_, peeked := ?_ }
  · have horder := h.order
    rw [htaken] at horder
    rw [hreturned]
    exact horder
  · rw [hreturned]
    exact h.count
  · intro node hnode
    rw [hreturned]
    simp only [finish] at hnode
    split at hnode
    · cases hnode
    · exact h.peeked node hnode

/-- The chain begins with the tail. -/
theorem Inv.chain_eq (h : Inv s) : s.chain = s.tail :: s.chain.tail := by
  have hfront := h.front
  cases hchain : s.chain with
  | nil =>
    rw [hchain] at hfront
    cases hfront
  | cons x l =>
    rw [hchain] at hfront
    rw [Option.some.inj hfront]
    rfl

/-- The tail moves on, past the stub or past a packet that is taken. -/
theorem moveTail_inv (h : Inv s) {next : Node} {c : Consumer} (hnext : s.next s.tail = some next)
    (hs : s.consumer.NotLinking) (hc : c.NotLinking) (htaken : s.consumer.taken = [])
    (htake : c.taken = [s.tail].filter (· ≠ .stub)) (hok : ConsumerOk (moveTail s next c)) :
    Inv (moveTail s next c) := by
  have hchain := h.chain_eq
  have hlinked := h.linked
  rw [hchain] at hlinked
  have hfront := hlinked.head_of_some hnext
  constructor
  · exact hfront
  · have hback := h.back
    rw [hchain] at hback
    show s.chain.tail.getLast? = _
    cases hrest : s.chain.tail with
    | nil =>
      rw [hrest] at hfront
      cases hfront
    | cons y l =>
      rw [hrest, List.getLast?_cons_cons] at hback
      exact hback
  · refine (hlinked.pop ?_).congr (missing_iff rfl hs hc)
    rw [hnext]
    simp
  · exact h.owners
  · intro q hq
    refine (h.producers q hq).other (fun hout hin => ?_) fun _ => rfl
    exact hout (List.mem_of_mem_tail hin)
  · exact hok
  · have horder := h.order
    rw [hchain, htaken, List.append_nil] at horder
    refine horder.trans ?_
    show _ = returned s ++ c.taken ++ _
    rw [htake, List.append_assoc, ← List.filter_append]
    rfl
  · exact h.admitted
  · exact h.count
  · exact h.bound
  · exact h.peeked

/-- The stub's link is cleared. -/
theorem clearStub_inv (h : Inv s) (hc : s.consumer = .clear tail) :
    Inv { s with next := Function.update s.next .stub none, consumer := .swap tail } := by
  obtain ⟨htail, hne, hout⟩ : tail = s.tail ∧ tail ≠ .stub ∧ .stub ∉ s.chain := by
    have hok := h.consumer
    rwa [ConsumerOk, hc] at hok
  constructor
  · exact h.front
  · exact h.back
  · refine (h.linked.update_outside hout none).congr (missing_iff rfl ?_ nofun)
    rw [hc]
    exact nofun
  · exact h.owners
  · intro q hq
    have hpacket : Node.packet q.packet ≠ .stub := nofun
    exact (h.producers q hq).other (fun hout => hout)
      fun _ => Function.update_of_ne hpacket none s.next
  · refine ⟨htail, hne, hout, ?_⟩
    show Function.update s.next Node.stub none Node.stub = none
    rw [Function.update_self]
  · have horder := h.order
    rwa [hc] at horder
  · exact h.admitted
  · exact h.count
  · exact h.bound
  · exact h.peeked

/-- The stub becomes the head. -/
theorem swapStub_inv (h : Inv s) (hc : s.consumer = .swap tail) :
    Inv { s with head := .stub, chain := s.chain ++ [.stub], consumer := .link tail s.head } := by
  obtain ⟨htail, hne, hout, hnone⟩ :
      tail = s.tail ∧ tail ≠ .stub ∧ .stub ∉ s.chain ∧ s.next .stub = none := by
    have hok := h.consumer
    rwa [ConsumerOk, hc] at hok
  constructor
  · show (s.chain ++ [_]).head? = _
    rw [List.head?_append, h.front]
    rfl
  · exact List.getLast?_concat
  · refine h.linked.push h.back hout hnone fun x y => ?_
    constructor
    · rintro (hproducer | ⟨t, hlink, rfl⟩)
      · exact .inl (.inl hproducer)
      · cases hlink
        exact .inr ⟨rfl, rfl⟩
    · rintro ((hproducer | ⟨t, hlink, -⟩) | ⟨rfl, rfl⟩)
      · exact .inl hproducer
      · rw [hc] at hlink
        cases hlink
      · exact .inr ⟨tail, rfl, rfl⟩
  · exact h.owners
  · intro q hq
    refine (h.producers q hq).other (fun hfree hin => ?_) fun _ => rfl
    rcases List.mem_append.mp hin with hin | hin
    · exact hfree hin
    · cases List.mem_singleton.mp hin
  · exact ⟨htail, hne⟩
  · have horder := h.order
    rw [hc] at horder
    refine horder.trans ?_
    simp [returned, Consumer.taken]
  · exact h.admitted
  · exact h.count
  · exact h.bound
  · exact h.peeked

/-- The previous head is linked to the stub. -/
theorem linkStub_inv (h : Inv s) {prev : Node} (hc : s.consumer = .link tail prev) :
    Inv { s with next := Function.update s.next prev (some .stub), consumer := .reload tail } := by
  obtain ⟨htail, hne⟩ : tail = s.tail ∧ tail ≠ .stub := by
    have hok := h.consumer
    rwa [ConsumerOk, hc] at hok
  have hxy : Missing s prev .stub := .inr ⟨tail, hc, rfl⟩
  have hin := (h.linked.missing _ _ hxy).1
  constructor
  · exact h.front
  · exact h.back
  · refine h.linked.fill hxy fun x y => ?_
    constructor
    · rintro (⟨id, hproducer, rfl⟩ | ⟨t, hlink, -⟩)
      · exact ⟨.inl ⟨id, hproducer, rfl⟩, fun heq => nomatch heq.2⟩
      · cases hlink
    · rintro ⟨hproducer | ⟨t, hlink, rfl⟩, hother⟩
      · exact .inl hproducer
      · rw [hc] at hlink
        cases hlink
        exact absurd ⟨rfl, rfl⟩ hother
  · exact h.owners
  · intro q hq
    refine (h.producers q hq).other (fun hout => hout) fun hout => ?_
    have hprev : Node.packet q.packet ≠ prev := fun heq => hout (heq ▸ left_mem hin)
    exact Function.update_of_ne hprev _ s.next
  · exact ⟨htail, hne, right_mem hin⟩
  · have horder := h.order
    rwa [hc] at horder
  · exact h.admitted
  · exact h.count
  · exact h.bound
  · exact h.peeked

/-- A packet is returned. -/
theorem release_inv (h : Inv s) (hc : s.consumer = .release tail) :
    Inv (finish { s with count := s.count - 1 } (some tail)) := by
  have hreturned : returned (finish { s with count := s.count - 1 } (some tail)) =
      returned s ++ [tail] := by
    simp [returned, finish]
  have horder := h.order
  rw [hc] at horder
  -- the packet is one of those that were counted
  have hpos : (returned s).length + 1 ≤ s.admitted.length := by
    have hlength := congrArg List.length horder
    have hadmitted := h.admitted.length_eq
    simp only [List.length_map, List.length_append, Consumer.taken, List.length_singleton]
      at hlength hadmitted
    omega
  have hcount := h.count
  constructor
  · exact h.front
  · exact h.back
  · refine h.linked.congr (missing_iff rfl ?_ nofun)
    rw [hc]
    exact nofun
  · exact h.owners
  · exact h.producers
  · trivial
  · rw [hreturned]
    refine horder.trans ?_
    show _ = returned s ++ [tail] ++ [] ++ _
    rw [List.append_nil]
    rfl
  · exact h.admitted
  · rw [hreturned, List.length_append, List.length_singleton]
    show s.count - 1 + _ = s.admitted.length
    omega
  · have hbound := h.bound
    show s.count - 1 ≤ _
    omega
  · intro node hnode
    rw [hreturned]
    simp only [finish] at hnode
    split at hnode
    · simp [Option.some.inj hnode]
    · exact List.mem_append_left _ (h.peeked node hnode)

/-- Tail and head are one: there is one node. -/
theorem Inv.chain_singleton (h : Inv s) (heq : s.tail = s.head) : s.chain = [s.tail] := by
  have hback := h.back
  have hnodup := h.linked.nodup
  rw [h.chain_eq] at hback hnodup ⊢
  cases hrest : s.chain.tail with
  | nil => rfl
  | cons y l =>
    rw [hrest, List.getLast?_cons_cons, ← heq] at hback
    rw [hrest] at hnodup
    exact absurd (List.mem_of_getLast? hback) (List.nodup_cons.mp hnodup).1

theorem consume_inv (h : Inv s) (hstep : consume s = some t) : Inv t := by
  cases consumed_of_consume h.consumer hstep with
  | empty hread htail hnext => exact finish_inv h hread.notLinking hread.taken
  | skip hread htail next hnext =>
    have htake : (Consumer.second next).taken = [s.tail].filter (· ≠ .stub) := by
      simp [Consumer.taken, htail]
    refine moveTail_inv h hnext hread.notLinking nofun hread.taken htake ⟨rfl, fun heq => ?_⟩
    -- the stub is not its own successor
    have hin := h.linked.infix_of_some (List.mem_of_mem_head? h.front) hnext
    have hpair := hin.nodup h.linked.nodup
    simp [htail, heq] at hpair
  | unlinked hread htail hnext =>
    exact turn_inv h hread.notLinking nofun hread.taken.symm ⟨rfl, htail⟩
  | take hread htail next hnext =>
    refine moveTail_inv h hnext hread.notLinking nofun hread.taken ?_ htail
    simp [Consumer.taken, htail]
  | overtaken hread hc hhead => exact finish_inv h hread.notLinking hread.taken
  | alone hread htail hhead =>
    refine turn_inv h hread.notLinking nofun hread.taken.symm ⟨rfl, htail, ?_⟩
    show Node.stub ∉ s.chain
    rw [h.chain_singleton hhead, List.mem_singleton]
    exact htail.symm
  | clear tail hc => exact clearStub_inv h hc
  | swap tail hc => exact swapStub_inv h hc
  | link tail prev hc => exact linkStub_inv h hc
  | late hread htail hstub hnext => exact finish_inv h hread.notLinking hread.taken
  | release tail hc => exact release_inv h hc

end Consuming

/-- What an action does, where it is enabled. -/
inductive Acted (s : State) : State → Prop
  | enqueue (id : ℕ) (hfree : Free s id) : Acted s (countIn s id)
  | produce (i : ℕ) (p : Producer) (hp : s.producers[i]? = some p) :
      Acted s
        { (PrevQueue.produce s p).1 with
          producers := resume s.producers i (PrevQueue.produce s p).2 }
  /-- A call begins, of `wg_prev_queue_dequeue` or below `wg_prev_queue_peek`. -/
  | begin (peeking : Bool) (hidle : s.consumer = .idle) : Acted s (begin s peeking)
  /-- `wg_prev_queue_peek` finds what it has peeked at before. -/
  | peeked : Acted s s
  | dropPeeked (hidle : s.consumer = .idle) : Acted s { s with peeked := none }
  | consume (t : State) (hstep : PrevQueue.consume s = some t) : Acted s t

variable {s : State}

theorem acted_of_act {l : Action} (hact : act s l = some t) : Acted s t := by
  cases l with
  | enqueue id =>
    simp only [act] at hact
    split at hact
    · next hfree =>
      obtain rfl := Option.some.inj hact
      exact .enqueue id hfree
    · cases hact
  | produce i =>
    simp only [act] at hact
    split at hact
    · cases hact
    · next p hp =>
      obtain rfl := Option.some.inj hact
      exact .produce i p hp
  | dequeue =>
    simp only [act] at hact
    split at hact
    · next hidle =>
      obtain rfl := Option.some.inj hact
      exact .begin false hidle
    · cases hact
  | peek =>
    simp only [act] at hact
    split at hact
    · next hidle =>
      split at hact
      · obtain rfl := Option.some.inj hact
        exact .peeked
      · obtain rfl := Option.some.inj hact
        exact .begin true hidle
    · cases hact
  | dropPeeked =>
    simp only [act] at hact
    split at hact
    · next hidle =>
      obtain rfl := Option.some.inj hact
      exact .dropPeeked hidle
    · cases hact
  | consume => exact .consume t hact

theorem act_inv {l : Action} (h : Inv s) (hact : act s l = some t) : Inv t := by
  cases acted_of_act hact with
  | enqueue id hfree => exact countIn_inv h hfree
  | produce i p hp => exact produce_inv h hp
  | begin peeking hidle =>
    have hs : s.consumer.NotLinking := by rw [hidle]; exact nofun
    have htaken : s.consumer.taken = [] := by rw [hidle]; rfl
    exact { turn_inv h (c := .first) hs nofun htaken.symm trivial with }
  | peeked => exact h
  | dropPeeked hidle => exact { h with peeked := nofun }
  | consume t hstep => exact consume_inv h hstep

theorem observe_inv (h : Inv s) : Inv (observe s) := by
  unfold observe
  split
  · exact h
  · exact { h with }

/-! ## Quiet moments -/

/-- The quiet moments of a call are noted, and `NULL` needs one. -/
structure Excuse (s : State) : Prop where
  seen : s.consumer ≠ .idle → quiet s = true → s.excused = true
  /-- A packet had no successor: then it is still the only one, or there was a producer on
  its way. -/
  compared : ∀ tail, s.consumer = .compare tail → s.excused = true ∨ s.chain = [tail]
  answers : ∀ a ∈ s.answers, a.node = none → a.excused = true

theorem quiet_of_linking {prev : Node} (h : Producer.link id prev ∈ s.producers) :
    quiet s = true := by
  have hany : s.producers.any Producer.linking = true := List.any_eq_true.mpr ⟨_, h, rfl⟩
  simp [quiet, hany]

/-- A tail without a link is the only node, or a producer is on its way. -/
theorem quiet_of_none (h : Inv s) (hs : s.consumer.NotLinking) (hnext : s.next s.tail = none) :
    quiet s = true ∨ s.chain = [s.tail] := by
  have hchain := h.chain_eq
  cases hrest : s.chain.tail with
  | nil =>
    right
    rw [hchain, hrest]
  | cons y l =>
    left
    have hin : [s.tail, y] <:+: s.chain := by
      rw [hchain, hrest]
      exact pair_infix_cons.mpr (.inl ⟨rfl, rfl⟩)
    rcases h.linked.missing_of_none hin hnext with ⟨id, hproducer, -⟩ | ⟨tail, hlink, -⟩
    · exact quiet_of_linking hproducer
    · exact absurd hlink (hs tail s.tail)

/-- The stub alone: the queue is empty. -/
theorem quiet_of_stub (h : Inv s) (htaken : s.consumer.taken = []) (hchain : s.chain = [.stub]) :
    quiet s = true := by
  have hlength := congrArg List.length h.order
  rw [htaken, hchain] at hlength
  simp only [List.length_map, List.append_nil] at hlength
  have hempty : s.exchanged.length = (returned s).length := by simpa using hlength
  simp [quiet, hempty]

/-- Whatever the consumer does next, it has seen a quiet moment if it needs one. -/
theorem consume_excuse (h : Inv s) (hexcuse : Excuse s) (hstep : consume s = some t) :
    (∀ tail, t.consumer = .compare tail → quiet t = true ∨ t.chain = [tail]) ∧
      ∀ a ∈ t.answers, a.node = none → a.excused = true := by
  -- a call that returns `NULL` after a quiet moment
  have hfinish : s.excused = true → (∀ tail, (finish s none).consumer = .compare tail →
        quiet (finish s none) = true ∨ (finish s none).chain = [tail]) ∧
      ∀ a ∈ (finish s none).answers, a.node = none → a.excused = true := by
    intro hexcused
    refine ⟨nofun, fun a ha hnone => ?_⟩
    rcases List.mem_append.mp ha with ha | ha
    · exact hexcuse.answers a ha hnone
    · rw [List.mem_singleton.mp ha]
      exact hexcused
  cases consumed_of_consume h.consumer hstep with
  | empty hread htail hnext =>
    refine hfinish (hexcuse.seen hread.busy ?_)
    rcases quiet_of_none h hread.notLinking hnext with hquiet | hchain
    · exact hquiet
    · exact quiet_of_stub h hread.taken (htail ▸ hchain)
  | skip hread htail next hnext => exact ⟨nofun, hexcuse.answers⟩
  | unlinked hread htail hnext =>
    have hquiet := quiet_of_none h hread.notLinking hnext
    refine ⟨?_, hexcuse.answers⟩
    rintro tail ⟨⟩
    exact hquiet
  | take hread htail next hnext => exact ⟨nofun, hexcuse.answers⟩
  | overtaken hread hc hhead =>
    refine hfinish ?_
    rcases hexcuse.compared s.tail hc with hexcused | hchain
    · exact hexcused
    · -- the packet is alone, so it is the head
      have hback := h.back
      rw [hchain] at hback
      exact absurd (Option.some.inj hback) hhead
  | alone hread htail hhead => exact ⟨nofun, hexcuse.answers⟩
  | clear tail hc => exact ⟨nofun, hexcuse.answers⟩
  | swap tail hc => exact ⟨nofun, hexcuse.answers⟩
  | link tail prev hc => exact ⟨nofun, hexcuse.answers⟩
  | late hread htail hstub hnext =>
    refine hfinish (hexcuse.seen hread.busy ?_)
    rcases quiet_of_none h hread.notLinking hnext with hquiet | hchain
    · exact hquiet
    · rw [hchain, List.mem_singleton] at hstub
      exact absurd hstub.symm htail
  | release tail hc =>
    refine ⟨nofun, fun a ha hnone => ?_⟩
    rcases List.mem_append.mp ha with ha | ha
    · exact hexcuse.answers a ha hnone
    · rw [List.mem_singleton.mp ha] at hnone
      cases hnone

/-- A producer's step, seen from a consumer that compares. -/
theorem produce_excuse {i : ℕ} {p : Producer} (hexcuse : Excuse s) (hp : s.producers[i]? = some p)
    (hc : s.consumer = .compare tail) :
    s.excused = true ∨
      quiet { (produce s p).1 with producers := resume s.producers i (produce s p).2 } = true ∨
      (produce s p).1.chain = [tail] := by
  cases p with
  | clear id => exact (hexcuse.compared tail hc).imp_right .inr
  | link id prev => exact (hexcuse.compared tail hc).imp_right .inr
  | swap id =>
    right
    left
    have hmem : Producer.link id s.head ∈ resume s.producers i (some (.link id s.head)) :=
      (mem_resumed hp _ _).mpr (.inl rfl)
    exact quiet_of_linking hmem

theorem act_excuse {l : Action} (h : Inv s) (hexcuse : Excuse s) (hact : act s l = some t) :
    (∀ tail, t.consumer = .compare tail →
      t.excused = true ∨ quiet t = true ∨ t.chain = [tail]) ∧
      ∀ a ∈ t.answers, a.node = none → a.excused = true := by
  have hkept : ∀ tail, s.consumer = .compare tail →
      s.excused = true ∨ quiet s = true ∨ s.chain = [tail] :=
    fun tail hc => (hexcuse.compared tail hc).imp_right .inr
  cases acted_of_act hact with
  | enqueue id hfree =>
    unfold countIn
    split
    · exact ⟨hkept, hexcuse.answers⟩
    · refine ⟨fun tail hc => ?_, hexcuse.answers⟩
      exact (hexcuse.compared tail hc).imp_right .inr
  | produce i p hp =>
    have hsame : (produce s p).1.consumer = s.consumer ∧
        (produce s p).1.excused = s.excused ∧ (produce s p).1.answers = s.answers := by
      cases p <;> exact ⟨rfl, rfl, rfl⟩
    obtain ⟨hconsumer, hexcused, hanswers⟩ := hsame
    refine ⟨fun tail hc => ?_, fun a ha => ?_⟩
    · have hcase := produce_excuse hexcuse hp (hconsumer.symm.trans hc)
      rwa [← hexcused] at hcase
    · exact hexcuse.answers a (hanswers ▸ ha)
  | begin peeking hidle => exact ⟨nofun, hexcuse.answers⟩
  | peeked => exact ⟨hkept, hexcuse.answers⟩
  | dropPeeked hidle =>
    refine ⟨fun tail hcompare => ?_, hexcuse.answers⟩
    cases hidle.symm.trans hcompare
  | consume t hstep =>
    obtain ⟨hcompared, hanswers⟩ := consume_excuse h hexcuse hstep
    exact ⟨fun tail hc => .inr (hcompared tail hc), hanswers⟩

/-- Noting quiet moments restores what the calls rely on. -/
theorem observe_excuse (hcompared : ∀ tail, t.consumer = .compare tail →
      t.excused = true ∨ quiet t = true ∨ t.chain = [tail])
    (hanswers : ∀ a ∈ t.answers, a.node = none → a.excused = true) : Excuse (observe t) := by
  unfold observe
  split
  · next hc =>
    refine ⟨fun hbusy => absurd hc hbusy, ?_, hanswers⟩
    intro tail hcompare
    rw [hc] at hcompare
    cases hcompare
  · refine ⟨?_, ?_, hanswers⟩
    · intro _ hquiet
      have hquiet' : quiet t = true := hquiet
      show (t.excused || quiet t) = true
      rw [hquiet', Bool.or_true]
    · intro tail hc
      show (t.excused || quiet t) = true ∨ _
      rcases hcompared tail hc with hexcused | hquiet | hchain
      · exact .inl (by rw [hexcused, Bool.true_or])
      · exact .inl (by rw [hquiet, Bool.or_true])
      · exact .inr hchain

/-! ## Safety -/

/-- The two invariants together. -/
structure Sound (s : State) : Prop where
  inv : Inv s
  excuse : Excuse s

theorem init_sound : Sound init := ⟨init_inv, ⟨fun h => absurd rfl h, nofun, nofun⟩⟩

theorem step_sound (s : State) (l : Action) (s' : State) (h : Sound s)
    (hstep : machine.step s l = some s') : Sound s' := by
  obtain ⟨t, hact, rfl⟩ := Option.map_eq_some_iff.mp hstep
  obtain ⟨hcompared, hanswers⟩ := act_excuse h.inv h.excuse hact
  exact ⟨observe_inv (act_inv h.inv hact), observe_excuse hcompared hanswers⟩

/-- A bound on the steps that a dequeue has left. -/
def Consumer.left : Consumer → ℕ
  | .idle => 0
  | .release _ => 1
  | .reload _ => 2
  | .link _ _ => 3
  | .swap _ => 4
  | .clear _ => 5
  | .compare _ => 6
  | .second _ => 7
  | .first => 8

/-- What holds in every state that a run reaches. -/
structure Fifo (s : State) : Prop where
  /-- The consumer gets the packets in the order of their head exchanges. -/
  order : returned s <+: s.exchanged.map Node.packet
  noStub : .stub ∉ returned s
  /-- Every packet that was counted is exchanged once, or its producer is about to. -/
  conserved : s.admitted.Perm (s.producers.flatMap Producer.waiting ++ s.exchanged)
  /-- The count is that of the packets admitted and not yet returned. -/
  count : s.count + (returned s).length = s.admitted.length
  bound : s.count ≤ maxQueuedPackets
  /-- A call that returned `NULL` has had a quiet moment. -/
  null : ∀ a ∈ s.answers, a.node = none → a.excused = true
  /-- What was peeked at was dequeued. -/
  peeked : ∀ node, s.peeked = some node → node ∈ returned s
  /-- A call that is in progress can go on, and ends. -/
  ends : s.consumer ≠ .idle →
    ∃ s', machine.step s .consume = some s' ∧ s'.consumer.left < s.consumer.left

theorem observe_consumer (s : State) : (observe s).consumer = s.consumer := by
  unfold observe
  split <;> rfl

/-- Every access of the consumer brings its call nearer to the end. -/
theorem consume_left (h : s.consumer ≠ .idle) :
    ∃ t, consume s = some t ∧ t.consumer.left < s.consumer.left := by
  unfold consume
  cases hc : s.consumer with
  | idle => exact absurd hc h
  | first =>
    dsimp only
    cases s.next s.tail <;> split <;> exact ⟨_, rfl, by simp [Consumer.left, finish, moveTail]⟩
  | second tail =>
    dsimp only
    cases s.next tail <;> exact ⟨_, rfl, by simp [Consumer.left, moveTail]⟩
  | compare tail =>
    dsimp only
    split <;> exact ⟨_, rfl, by simp [Consumer.left, finish]⟩
  | reload tail =>
    dsimp only
    cases s.next tail <;> exact ⟨_, rfl, by simp [Consumer.left, finish, moveTail]⟩
  | clear tail => exact ⟨_, rfl, by simp [Consumer.left]⟩
  | swap tail => exact ⟨_, rfl, by simp [Consumer.left]⟩
  | link tail prev => exact ⟨_, rfl, by simp [Consumer.left]⟩
  | release tail => exact ⟨_, rfl, by simp [Consumer.left, finish]⟩

theorem Sound.fifo (h : Sound s) : Fifo s where
  order := by
    rw [h.inv.order, List.append_assoc]
    exact List.prefix_append _ _
  noStub := by
    intro hstub
    have hmem : Node.stub ∈ s.exchanged.map Node.packet := by
      rw [h.inv.order, List.append_assoc]
      exact List.mem_append_left _ hstub
    obtain ⟨id, -, hid⟩ := List.mem_map.mp hmem
    cases hid
  conserved := h.inv.admitted
  count := h.inv.count
  bound := h.inv.bound
  null := h.excuse.answers
  peeked := h.inv.peeked
  ends := by
    intro hbusy
    obtain ⟨t, hstep, hleft⟩ := consume_left hbusy
    refine ⟨observe t, ?_, ?_⟩
    · show (consume s).map observe = _
      rw [hstep]
      rfl
    · rwa [observe_consumer]

/-- Every interleaving of any number of producers with the consumer. -/
theorem prevQueue_fifo {ls : List Action} {s : State} (hrun : machine.run init ls = some s) :
    Fifo s :=
  (machine.run_invariant step_sound init_sound hrun).fifo

/-- Two producers exchange the head and only the second links: the consumer gets nothing at
first, and both packets in order once the first has linked as well. -/
def stalledProducer : List Action :=
  [.enqueue 1, .enqueue 2, .produce 0, .produce 1, .produce 0, .produce 1, .produce 1,
    .dequeue, .consume, .produce 0, .peek, .consume, .consume, .consume, .dropPeeked, .dequeue,
    .consume, .consume, .consume, .consume, .consume, .consume, .consume]

theorem prevQueue_fifo_stalledProducer :
    ∃ s, machine.run init stalledProducer = some s ∧
      s.answers = [⟨none, true⟩, ⟨some (.packet 1), false⟩, ⟨some (.packet 2), false⟩] ∧
      Fifo s := by
  have hrun : ∃ s, machine.run init stalledProducer = some s ∧
      s.answers = [⟨none, true⟩, ⟨some (.packet 1), false⟩, ⟨some (.packet 2), false⟩] :=
    ⟨_, rfl, by decide⟩
  obtain ⟨s, hs, hanswers⟩ := hrun
  exact ⟨s, hs, hanswers, prevQueue_fifo hs⟩

end AmneziaWg.PrevQueue
