import AmneziaWg.Pipeline.Model

/-!
# Where the packets are

Every packet is in one place. It is with the call that submits it, refused, or in the queue of
its peer, once; and while it is uncrypted in the queue, one call or the ring has it for the
cipher.

* **Queues**: what a step of a queue changes, as the pipeline sees it.
* **Accounts**: `Accounts`, the invariant over the places.
* **Serial work**: `Serving`, how far the serial work of a peer has come with its queue.
-/

namespace AmneziaWg.Pipeline

open Threads PrevQueue

/-! ## Queues -/

section Queues

variable {q q' : PrevQueue.State}

theorem observe_eq (q : PrevQueue.State) :
    ∃ b, observe q = { q with excused := b } ∧ (q.excused = true → b = true) ∧
      (b = true → q.excused = true ∨ (q.consumer ≠ .idle ∧ quiet q = true)) := by
  unfold observe
  split
  · exact ⟨q.excused, rfl, id, .inl⟩
  · next hbusy =>
    refine ⟨_, rfl, fun h => Bool.or_eq_true_iff.mpr (.inl h), fun hb => ?_⟩
    exact (Bool.or_eq_true_iff.mp hb).imp_right fun hquiet => ⟨hbusy, hquiet⟩

/-- What the consumer of a queue sees stays as it is, up to quiet moments. -/
structure SameForConsumer (q q' : PrevQueue.State) : Prop where
  consumer : q'.consumer = q.consumer
  peeking : q'.peeking = q.peeking
  peeked : q'.peeked = q.peeked
  returned : returned q' = returned q
  still : q.excused = true → q'.excused = true
  excused : q'.excused = true → q.excused = true ∨ (q'.consumer ≠ .idle ∧ quiet q' = true)

/-- `wg_prev_queue_enqueue` counts a packet in. -/
theorem enqueue_spec {id : ℕ} (hroom : q.count ≠ maxQueuedPackets)
    (hstep : PrevQueue.machine.step q (.enqueue id) = some q') :
    q'.admitted = q.admitted ++ [id] ∧ q'.producers = q.producers ++ [.clear id] ∧
      q'.exchanged = q.exchanged ∧ SameForConsumer q q' := by
  obtain ⟨t, hact, rfl⟩ := Option.map_eq_some_iff.mp hstep
  simp only [act] at hact
  split at hact
  · obtain rfl := Option.some.inj hact
    obtain ⟨b, hb, hstill, hexcused⟩ := observe_eq (countIn q id)
    rw [hb]
    unfold countIn at hstill hexcused ⊢
    rw [if_neg hroom] at hstill hexcused ⊢
    exact ⟨rfl, rfl, rfl, rfl, rfl, rfl, rfl, hstill, hexcused⟩
  · cases hact

theorem produce_packet {p u : Producer} (h : (produce q p).2 = some u) : u.packet = p.packet := by
  cases p <;> cases h <;> rfl

/-- A producer goes on: it keeps its packet, and the packet may become the head. -/
theorem produce_spec {i : ℕ} (hstep : PrevQueue.machine.step q (.produce i) = some q') :
    ∃ p, q.producers[i]? = some p ∧ q'.admitted = q.admitted ∧
      (∀ pr ∈ q'.producers, ∃ pr' ∈ q.producers, pr'.packet = pr.packet) ∧
      (q'.exchanged = q.exchanged ∨
        (q'.exchanged = q.exchanged ++ [p.packet] ∧ ∃ pr ∈ q'.producers, pr.packet = p.packet)) ∧
      SameForConsumer q q' := by
  obtain ⟨t, hact, rfl⟩ := Option.map_eq_some_iff.mp hstep
  simp only [act] at hact
  split at hact
  · cases hact
  · next p hp =>
    obtain rfl := Option.some.inj hact
    obtain ⟨b, hb, hstill, hquiet⟩ := observe_eq
      { (produce q p).1 with producers := resume q.producers i (produce q p).2 }
    have hkeep : ∀ pr ∈ resume q.producers i (produce q p).2,
        ∃ pr' ∈ q.producers, pr'.packet = pr.packet := by
      intro pr hpr
      rcases (mem_resumed hp _ pr).mp hpr with hnew | hother
      · exact ⟨p, List.mem_of_getElem? hp, (produce_packet hnew).symm⟩
      · exact ⟨pr, mem_others hp hother, rfl⟩
    rw [hb]
    refine ⟨p, hp, ?_⟩
    cases p with
    | clear id => exact ⟨rfl, hkeep, .inl rfl, rfl, rfl, rfl, rfl, hstill, hquiet⟩
    | swap id =>
      have hmem := (mem_resumed hp _ (.link id q.head)).mpr (.inl rfl)
      exact ⟨rfl, hkeep, .inr ⟨rfl, _, hmem, rfl⟩, rfl, rfl, rfl, rfl, hstill, hquiet⟩
    | link id prev => exact ⟨rfl, hkeep, .inl rfl, rfl, rfl, rfl, rfl, hstill, hquiet⟩

/-- The consumer takes one more access, or its call returns. -/
inductive Continued (q : PrevQueue.State) : PrevQueue.State → Prop
  | goesOn (q' : PrevQueue.State) (hbusy : q'.consumer ≠ .idle) (hpeeking : q'.peeking = q.peeking)
      (hpeeked : q'.peeked = q.peeked) (hreturned : returned q' = returned q)
      (hexcused : q'.excused = true → q.excused = true ∨ (q'.consumer ≠ .idle ∧ quiet q' = true)) :
      Continued q q'
  | returns (q' : PrevQueue.State) (node : Option Node) (hidle : q'.consumer = .idle)
      (hanswers : q'.answers = q.answers ++ [⟨node, q.excused⟩]) (hexcused : q'.excused = q.excused)
      (hpeeked : q'.peeked = if q.peeking then node else q.peeked) : Continued q q'

theorem consume_spec (h : Sound q) (hstep : PrevQueue.machine.step q .consume = some q') :
    q.consumer ≠ .idle ∧ q'.admitted = q.admitted ∧ q'.producers = q.producers ∧
      q'.exchanged = q.exchanged ∧ Continued q q' := by
  obtain ⟨t, hact, rfl⟩ := Option.map_eq_some_iff.mp hstep
  have hbusy : q.consumer ≠ .idle := by
    intro hidle
    simp [act, PrevQueue.consume, hidle] at hact
  obtain ⟨b, hb, -, hquiet⟩ := observe_eq t
  -- a call that returns is not observed any more
  have hdone : t.consumer = .idle → observe t = t := fun hidle => by simp [observe, hidle]
  refine ⟨hbusy, ?_⟩
  cases consumed_of_consume h.inv.consumer hact with
  | empty | overtaken | late =>
    rw [hdone rfl]
    exact ⟨rfl, rfl, rfl, .returns _ none rfl rfl rfl rfl⟩
  | release tail hc =>
    rw [hdone rfl]
    exact ⟨rfl, rfl, rfl, .returns _ (some tail) rfl rfl rfl rfl⟩
  | skip | unlinked | take | alone | clear | swap | link =>
    rw [hb]
    exact ⟨rfl, rfl, rfl, .goesOn _ (by simp [moveTail]) rfl rfl rfl hquiet⟩

/-- `wg_prev_queue_peek` has a packet from before, or begins to dequeue. -/
theorem peek_spec (hstep : PrevQueue.machine.step q .peek = some q') :
    q.consumer = .idle ∧ q'.admitted = q.admitted ∧ q'.producers = q.producers ∧
      q'.exchanged = q.exchanged ∧ q'.peeked = q.peeked ∧ returned q' = returned q ∧
      ((q' = q ∧ q.peeked ≠ none) ∨
        (q.peeked = none ∧ q'.consumer ≠ .idle ∧ q'.peeking = true ∧
          (q'.excused = true → quiet q' = true))) := by
  obtain ⟨t, hact, rfl⟩ := Option.map_eq_some_iff.mp hstep
  simp only [act] at hact
  split at hact
  · next hidle =>
    refine ⟨hidle, ?_⟩
    split at hact
    · next node hpeeked =>
      obtain rfl := Option.some.inj hact
      have hsame : observe q = q := by simp [observe, hidle]
      rw [hsame, hpeeked]
      exact ⟨rfl, rfl, rfl, rfl, rfl, .inl ⟨rfl, Option.some_ne_none _⟩⟩
    · next hpeeked =>
      obtain rfl := Option.some.inj hact
      obtain ⟨b, hb, -, hexcused⟩ := observe_eq (PrevQueue.begin q true)
      have hbusy : (PrevQueue.begin q true).consumer ≠ .idle := by simp [PrevQueue.begin]
      rw [hb]
      refine ⟨rfl, rfl, rfl, rfl, rfl, .inr ⟨hpeeked, hbusy, rfl, fun hb => ?_⟩⟩
      exact ((hexcused hb).resolve_left (by simp [PrevQueue.begin])).2
  · cases hact

/-- `wg_prev_queue_drop_peeked`. -/
theorem dropPeeked_spec (hstep : PrevQueue.machine.step q .dropPeeked = some q') :
    q.consumer = .idle ∧ q' = { q with peeked := none } := by
  obtain ⟨t, hact, rfl⟩ := Option.map_eq_some_iff.mp hstep
  simp only [act] at hact
  split at hact
  · next hidle =>
    obtain rfl := Option.some.inj hact
    exact ⟨hidle, by simp [observe, hidle]⟩
  · cases hact

/-- What was exchanged was counted before. -/
theorem mem_admitted_of_exchanged (h : Sound q) {id : ℕ} (hid : id ∈ q.exchanged) :
    id ∈ q.admitted :=
  h.inv.admitted.mem_iff.mpr (List.mem_append_right _ hid)

/-- What was returned was counted before. -/
theorem mem_admitted_of_returned (h : Sound q) {id : ℕ} (hid : .packet id ∈ returned q) :
    id ∈ q.admitted := by
  refine mem_admitted_of_exchanged h ?_
  have hmem : Node.packet id ∈ q.exchanged.map Node.packet := by
    rw [h.inv.order, List.append_assoc]
    exact List.mem_append_left _ hid
  obtain ⟨id', hid', heq⟩ := List.mem_map.mp hmem
  exact Node.packet.inj heq ▸ hid'

end Queues

/-! ## Accounts -/

/-- The packet is with the call that submits it, or about to be refused. -/
def Thread.early : Thread → List ℕ
  | .alive id => [id]
  | .enqueue id => [id]
  | .refuse id => [id]
  | _ => []

/-- The call has the packet for the cipher, or is about to put it into the ring. -/
def Thread.token : Thread → List ℕ
  | .entering id => [id]
  | .produce id => [id]
  | .crypt _ id => [id]
  | .set _ id _ => [id]
  | _ => []

section Accounts

variable {σ : Type} {d : Direction σ} {s u : State σ} {t : Thread} {o : Option Thread}

/-- 1 for a packet that is uncrypted in the queue of its peer. -/
def awaiting (d : Direction σ) (s : State σ) (id : ℕ) : ℕ :=
  if s.cb id = .uncrypted ∧ id ∈ (s.queues (d.peer id)).admitted then 1 else 0

structure Accounts (d : Direction σ) (s : State σ) : Prop where
  sound : ∀ p, Sound (s.queues p)
  own : ∀ p, ∀ id ∈ (s.queues p).admitted, d.peer id = p
  producers : ∀ p, ∀ pr ∈ (s.queues p).producers,
    .entering pr.packet ∈ s.threads ∧ pr.packet ∈ (s.queues p).admitted
  /-- A packet that has come is in one place. -/
  once : ∀ id, (s.threads.flatMap Thread.early).count id + s.refused.count id +
    (s.queues (d.peer id)).admitted.count id = if id < s.next then 1 else 0
  fresh : ∀ id, .enqueue id ∈ s.threads → s.cb id = .uncrypted
  /-- An uncrypted packet in the queue is somewhere on its way through the cipher. -/
  tokens : ∀ id, (s.threads.flatMap Thread.token).count id + s.ring.count id = awaiting d s id

theorem init_accounts (refs : Ref → ℕ) : Accounts d (init d refs) where
  sound := fun _ => init_sound
  own := nofun
  producers := nofun
  once := fun _ => rfl
  fresh := nofun
  tokens := fun _ => rfl

/-- A packet with its submitting call is not in a queue. -/
theorem Accounts.not_admitted (h : Accounts d s) {id : ℕ} (ht : t ∈ s.threads)
    (hid : id ∈ t.early) (p : ℕ) : id ∉ (s.queues p).admitted := by
  intro hmem
  have hearly : 0 < (s.threads.flatMap Thread.early).count id :=
    List.count_pos_iff.mpr (List.mem_flatMap.mpr ⟨t, ht, hid⟩)
  have hadmitted : 0 < (s.queues (d.peer id)).admitted.count id := by
    rw [h.own p id hmem]
    exact List.count_pos_iff.mpr hmem
  have honce := h.once id
  split at honce <;> omega

/-- A packet on its way through the cipher is uncrypted and in the queue of its peer. -/
theorem Accounts.of_token (h : Accounts d s) {id : ℕ} (ht : t ∈ s.threads) (hid : id ∈ t.token) :
    s.cb id = .uncrypted ∧ id ∈ (s.queues (d.peer id)).admitted := by
  have htoken : 0 < (s.threads.flatMap Thread.token).count id :=
    List.count_pos_iff.mpr (List.mem_flatMap.mpr ⟨t, ht, hid⟩)
  have hcount := h.tokens id
  unfold awaiting at hcount
  split at hcount
  · assumption
  · omega

/-- A step of a call moves packets from one place to another. -/
theorem Advanced.once (hadvanced : Advanced d s t u o) :
    u.next = s.next ∧ ∀ id,
      (o.toList.flatMap Thread.early).count id + u.refused.count id +
          (u.queues (d.peer id)).admitted.count id =
        t.early.count id + s.refused.count id + (s.queues (d.peer id)).admitted.count id := by
  cases hadvanced with
  | count x q hroom hstep =>
    obtain ⟨hadmitted, -⟩ := enqueue_spec hroom hstep
    refine ⟨rfl, fun id => ?_⟩
    dsimp only
    by_cases hpeer : d.peer id = d.peer x
    · rw [hpeer, Function.update_self, hadmitted, List.count_append]
      simp only [Option.toList_some, List.flatMap_singleton, Thread.early, List.count_nil]
      omega
    · have hne : x ≠ id := fun heq => hpeer (heq ▸ rfl)
      rw [Function.update_of_ne hpeer]
      simp [Thread.early, hne]
  | refuse x =>
    refine ⟨rfl, fun id => ?_⟩
    simp only [Thread.early, List.count_append, Option.toList_none, List.flatMap_nil,
      List.count_nil, State.putBoth, State.put]
    omega
  | put cpu p => cases cpu <;> exact ⟨rfl, fun id => rfl⟩
  | _ => exact ⟨rfl, fun id => rfl⟩

/-- A step of a call moves a packet on towards the cipher, or ends its way there. -/
theorem Advanced.tokens (h : Accounts d s) (ht : t ∈ s.threads) (hadvanced : Advanced d s t u o)
    (id : ℕ) :
    (o.toList.flatMap Thread.token).count id + u.ring.count id + awaiting d s id =
      t.token.count id + s.ring.count id + awaiting d u id := by
  cases hadvanced with
  | alive x =>
    -- the packet is not in the queue yet
    have hout := h.not_admitted ht (List.mem_singleton_self x) (d.peer x)
    have hsame : awaiting d { s with cb := Function.update s.cb x .uncrypted } id =
        awaiting d s id := by
      unfold awaiting
      by_cases hid : id = x
      · simp [hid, hout]
      · simp [hid]
    rw [hsame]
    rfl
  | count x q hroom hstep =>
    obtain ⟨hadmitted, -⟩ := enqueue_spec hroom hstep
    have hout := h.not_admitted ht (List.mem_singleton_self x) (d.peer x)
    have hcb := h.fresh x ht
    unfold awaiting
    dsimp only
    by_cases hid : id = x
    · simp [hid, hout, hcb, hadmitted, Thread.token]
      omega
    · have hne : x ≠ id := fun heq => hid heq.symm
      by_cases hpeer : d.peer id = d.peer x
      · simp [hpeer, hadmitted, hid, hne, Thread.token]
      · simp [hpeer, hne, Thread.token]
  | produced x =>
    simp only [Thread.token, List.count_append, Option.toList_some, List.flatMap_singleton,
      List.count_nil, awaiting]
    omega
  | take cpu x ring hring =>
    rw [hring]
    simp only [Thread.token, Option.toList_some, List.flatMap_singleton, List.count_nil,
      List.count_cons, awaiting]
    omega
  | set cpu x ok =>
    have hx := h.of_token ht (List.mem_singleton_self x)
    have hdone : done ok ≠ .uncrypted := by cases ok <;> nofun
    unfold awaiting
    by_cases hid : id = x
    · simp [hid, hx.1, hx.2, hdone, Thread.token, State.get]
      omega
    · have hne : x ≠ id := fun heq => hid heq.symm
      simp [hid, hne, Thread.token, State.get]
  | put cpu p => cases cpu <;> rfl
  | _ => rfl

/-- A call leaves the queues alone, unless it counts its packet in. -/
theorem Advanced.queues (hadvanced : Advanced d s t u o) :
    u.queues = s.queues ∨ ∃ id q, t = .enqueue id ∧ o = some (.entering id) ∧
      (s.queues (d.peer id)).count ≠ maxQueuedPackets ∧
      PrevQueue.machine.step (s.queues (d.peer id)) (.enqueue id) = some q ∧
      u.queues = Function.update s.queues (d.peer id) q := by
  cases hadvanced with
  | count id q hroom hstep => exact .inr ⟨id, q, rfl, rfl, hroom, hstep, rfl⟩
  | _ => exact .inl rfl

/-- A packet that is about to be counted in is uncrypted. -/
theorem Advanced.fresh (h : Accounts d s) (ht : t ∈ s.threads) (hadvanced : Advanced d s t u o)
    {id : ℕ} (hid : o = some (.enqueue id) ∨ .enqueue id ∈ s.threads) :
    u.cb id = .uncrypted := by
  have hold : o ≠ some (.enqueue id) → s.cb id = .uncrypted := fun hne =>
    h.fresh id (hid.resolve_left hne)
  cases hadvanced with
  | alive x =>
    by_cases heq : id = x
    · rw [heq]
      exact Function.update_self _ _ _
    · refine (Function.update_of_ne heq _ _).trans (hold fun ho => ?_)
      cases ho
      exact heq rfl
  | set cpu x ok =>
    have hx := (h.of_token ht (List.mem_singleton_self x)).2
    have hmem : .enqueue id ∈ s.threads := hid.resolve_left nofun
    have hne : id ≠ x := fun heq =>
      h.not_admitted hmem (List.mem_singleton_self id) _ (heq ▸ hx)
    exact (Function.update_of_ne hne _ _).trans (hold nofun)
  | put cpu p =>
    refine hold ?_
    cases cpu <;> nofun
  | _ => exact hold nofun

theorem thread_accounts (h : Accounts d s) {i : ℕ} (ht : s.threads[i]? = some t)
    (hadvanced : Advanced d s t u o) :
    Accounts d { u with threads := resume s.threads i o } := by
  have hmem := List.mem_of_getElem? ht
  constructor
  · -- sound
    intro p
    rcases hadvanced.queues with hq | ⟨id, q, -, -, -, hstep, hq⟩
    · exact hq ▸ h.sound p
    · show Sound (u.queues p)
      rw [hq]
      by_cases hp : p = d.peer id
      · rw [hp, Function.update_self]
        exact step_sound _ _ _ (h.sound _) hstep
      · rw [Function.update_of_ne hp]
        exact h.sound p
  · -- own
    show ∀ p, ∀ id ∈ (u.queues p).admitted, _
    intro p x hx
    rcases hadvanced.queues with hq | ⟨id, q, -, -, hroom, hstep, hq⟩
    · exact h.own p x (hq ▸ hx)
    · rw [hq] at hx
      by_cases hp : p = d.peer id
      · rw [hp, Function.update_self, (enqueue_spec hroom hstep).1] at hx
        rcases List.mem_append.mp hx with hx | hx
        · exact (h.own _ x hx).trans hp.symm
        · rw [List.mem_singleton.mp hx, hp]
      · rw [Function.update_of_ne hp] at hx
        exact h.own p x hx
  · -- producers
    show ∀ p, ∀ pr ∈ (u.queues p).producers, _ ∈ resume s.threads i o ∧ _ ∈ (u.queues p).admitted
    have hold : ∀ p, ∀ pr ∈ (s.queues p).producers, .entering pr.packet ∈ resume s.threads i o := by
      intro p pr hpr
      obtain ⟨hentering, hin⟩ := h.producers p pr hpr
      refine mem_resume_of_ne ht o hentering ?_
      rintro rfl
      cases hadvanced with
      | entered id hfree => exact hfree ⟨pr, h.own p _ hin ▸ hpr, rfl⟩
    intro p pr hpr
    rcases hadvanced.queues with hq | ⟨id, q, -, ho, hroom, hstep, hq⟩
    · rw [hq] at hpr ⊢
      exact ⟨hold p pr hpr, (h.producers p pr hpr).2⟩
    · rw [hq] at hpr ⊢
      by_cases hp : p = d.peer id
      · subst hp
        obtain ⟨hadmitted, hproducers, -⟩ := enqueue_spec hroom hstep
        rw [Function.update_self, hproducers] at hpr
        rw [Function.update_self, hadmitted]
        rcases List.mem_append.mp hpr with hpr | hpr
        · exact ⟨hold _ pr hpr, List.mem_append_left _ (h.producers _ pr hpr).2⟩
        · rw [List.mem_singleton.mp hpr]
          refine ⟨(resume_perm ht o).mem_iff.mpr ?_, List.mem_append_right _ ?_⟩
          · rw [ho]
            exact List.mem_cons_self
          · exact List.mem_singleton_self id
      · rw [Function.update_of_ne hp] at hpr ⊢
        exact ⟨hold p pr hpr, (h.producers p pr hpr).2⟩
  · -- once
    intro id
    obtain ⟨hnext, honce⟩ := hadvanced.once
    have hbefore := h.once id
    have hcount := count_flatMap_resume Thread.early ht o id
    have hmove := honce id
    show ((resume s.threads i o).flatMap _).count id + u.refused.count id +
      (u.queues (d.peer id)).admitted.count id = if id < u.next then 1 else 0
    rw [hnext, ← hbefore]
    omega
  · -- fresh
    intro id hid
    refine hadvanced.fresh h hmem ?_
    rcases List.mem_append.mp ((resume_perm ht o).mem_iff.mp hid) with hnew | hother
    · exact .inl (Option.mem_toList.mp hnew)
    · exact .inr (mem_others ht hother)
  · -- tokens
    intro id
    have hbefore := h.tokens id
    have hcount := count_flatMap_resume Thread.token ht o id
    have hmove := hadvanced.tokens h hmem id
    show ((resume s.threads i o).flatMap _).count id + u.ring.count id = awaiting d u id
    omega

/-- What does not touch packets in hand. -/
theorem Accounts.congr {s' : State σ} (h : Accounts d s) (hthreads : s'.threads = s.threads)
    (hring : s'.ring = s.ring) (hcb : s'.cb = s.cb) (hrefused : s'.refused = s.refused)
    (hnext : s'.next = s.next)
    (hqueues : ∀ p, Sound (s'.queues p) ∧ (s'.queues p).admitted = (s.queues p).admitted ∧
      ∀ pr ∈ (s'.queues p).producers, ∃ pr' ∈ (s.queues p).producers, pr'.packet = pr.packet) :
    Accounts d s' := by
  constructor
  · exact fun p => (hqueues p).1
  · intro p id hid
    exact h.own p id ((hqueues p).2.1 ▸ hid)
  · intro p pr hpr
    obtain ⟨pr', hpr', hpacket⟩ := (hqueues p).2.2 pr hpr
    rw [hthreads, (hqueues p).2.1, ← hpacket]
    exact h.producers p pr' hpr'
  · intro id
    rw [hthreads, hrefused, hnext, (hqueues _).2.1]
    exact h.once id
  · intro id hid
    rw [hthreads] at hid
    rw [hcb]
    exact h.fresh id hid
  · intro id
    unfold awaiting
    rw [hthreads, hring, hcb, (hqueues _).2.1]
    exact h.tokens id

/-- A step of one queue that neither counts packets in nor brings producers. -/
theorem queue_unchanged (h : Accounts d s) {p : ℕ} {q : PrevQueue.State} (hsound : Sound q)
    (hadmitted : q.admitted = (s.queues p).admitted)
    (hproducers : ∀ pr ∈ q.producers, ∃ pr' ∈ (s.queues p).producers, pr'.packet = pr.packet)
    (p' : ℕ) :
    Sound (Function.update s.queues p q p') ∧
      (Function.update s.queues p q p').admitted = (s.queues p').admitted ∧
      ∀ pr ∈ (Function.update s.queues p q p').producers,
        ∃ pr' ∈ (s.queues p').producers, pr'.packet = pr.packet := by
  by_cases hp : p' = p
  · subst hp
    rw [Function.update_self]
    exact ⟨hsound, hadmitted, hproducers⟩
  · rw [Function.update_of_ne hp]
    exact ⟨h.sound p', rfl, fun pr hpr => ⟨pr, hpr, rfl⟩⟩

theorem Accounts.same_queues (h : Accounts d s) (p : ℕ) :
    Sound (s.queues p) ∧ (s.queues p).admitted = (s.queues p).admitted ∧
      ∀ pr ∈ (s.queues p).producers, ∃ pr' ∈ (s.queues p).producers, pr'.packet = pr.packet :=
  ⟨h.sound p, rfl, fun pr hpr => ⟨pr, hpr, rfl⟩⟩

theorem poll_accounts (h : Accounts d s) {p : ℕ} {pc : Poll} (hpolled : Polled d s p pc u) :
    Accounts d u := by
  cases hpolled with
  | peek n q hstep =>
    obtain ⟨-, hadmitted, hproducers, -⟩ := peek_spec hstep
    refine h.congr rfl rfl rfl rfl rfl (queue_unchanged h ?_ hadmitted fun pr hpr => ?_)
    · exact step_sound _ _ _ (h.sound p) hstep
    · exact ⟨pr, hproducers ▸ hpr, rfl⟩
  | drop n id ok q hstep =>
    obtain ⟨-, rfl⟩ := dropPeeked_spec hstep
    refine h.congr rfl rfl rfl rfl rfl (queue_unchanged h ?_ rfl fun pr hpr => ?_)
    · exact step_sound _ _ _ (h.sound p) hstep
    · exact ⟨pr, hpr, rfl⟩
  | finish n id ok w hw =>
    cases ok <;> exact h.congr rfl rfl rfl rfl rfl h.same_queues
  | _ => exact h.congr rfl rfl rfl rfl rfl h.same_queues

theorem access_accounts (h : Accounts d s) {p : ℕ} {l : Access} {q : PrevQueue.State}
    (hstep : PrevQueue.machine.step (s.queues p) l.action = some q) :
    Accounts d { s with queues := Function.update s.queues p q } := by
  have hsound := step_sound _ _ _ (h.sound p) hstep
  refine h.congr rfl rfl rfl rfl rfl ?_
  cases l with
  | produce i =>
    obtain ⟨-, -, hadmitted, hproducers, -⟩ := produce_spec hstep
    exact queue_unchanged h hsound hadmitted hproducers
  | consume =>
    obtain ⟨-, hadmitted, hproducers, -⟩ := consume_spec (h.sound p) hstep
    exact queue_unchanged h hsound hadmitted fun pr hpr => ⟨pr, hproducers ▸ hpr, rfl⟩

/-- A call begins. -/
theorem spawn_accounts {s' : State σ} (h : Accounts d s) {w : Thread}
    (hthreads : s'.threads = s.threads ++ [w]) (hring : s'.ring = s.ring) (hcb : s'.cb = s.cb)
    (hrefused : s'.refused = s.refused) (hqueues : s'.queues = s.queues) (htoken : w.token = [])
    (hfresh : ∀ id, w ≠ .enqueue id)
    (hnext : ∀ id, (if id < s.next then 1 else 0) + w.early.count id =
      if id < s'.next then 1 else 0) : Accounts d s' := by
  constructor
  · exact hqueues ▸ h.sound
  · exact hqueues ▸ h.own
  · intro p pr hpr
    rw [hqueues] at hpr ⊢
    obtain ⟨hentering, hin⟩ := h.producers p pr hpr
    rw [hthreads]
    exact ⟨List.mem_append_left _ hentering, hin⟩
  · intro id
    have honce := h.once id
    rw [hthreads, hrefused, hqueues, ← hnext, List.flatMap_append, List.count_append,
      List.flatMap_singleton]
    omega
  · intro id hid
    rw [hthreads] at hid
    rw [hcb]
    rcases List.mem_append.mp hid with hid | hid
    · exact h.fresh id hid
    · exact absurd (List.mem_singleton.mp hid).symm (hfresh id)
  · intro id
    unfold awaiting
    rw [hthreads, hring, hcb, hqueues, List.flatMap_append, List.flatMap_singleton, htoken,
      List.append_nil]
    exact h.tokens id

theorem step_accounts {a : Action} {s' : State σ} (h : Accounts d s) (hstep : Stepped d s a s') :
    Accounts d s' := by
  cases hstep with
  | submit =>
    refine spawn_accounts h rfl rfl rfl rfl rfl rfl nofun fun id => ?_
    show (if id < s.next then 1 else 0) + List.count id [s.next] =
      if id < s.next + 1 then 1 else 0
    by_cases hid : id = s.next
    · simp [hid]
    · have hne : s.next ≠ id := fun heq => hid heq.symm
      have hiff : id < s.next + 1 ↔ id < s.next := by omega
      simp [hne, hiff]
  | thread i c t o u ht hadvanced => exact thread_accounts h ht hadvanced
  | access p l q hstep => exact access_accounts h hstep
  | run cpu hkicked => exact spawn_accounts h rfl rfl rfl rfl rfl rfl nofun fun _ => rfl
  | poll p pc u hrun hpolled => exact poll_accounts h hpolled
  | runSerial | die | get | put => exact h.congr rfl rfl rfl rfl rfl h.same_queues

end Accounts

/-! ## Serial work -/

/-- The packet that is no longer in the queue and not processed yet. -/
def inHand : Option Poll → List ℕ
  | some (.finish _ id _) => [id]
  | _ => []

/-- How far the serial work of a peer has come with the packets of its queue. -/
structure Serving (q : PrevQueue.State) (run : Option Poll) (processed : List ℕ)
    (cb : ℕ → PacketState) : Prop where
  held : returned q =
    processed.map Node.packet ++ (q.peeked.toList ++ (inHand run).map Node.packet)
  /-- Only `wg_prev_queue_peek` dequeues. -/
  busy : q.consumer ≠ .idle → (∃ n, run = some (.wait n)) ∧ q.peeking = true ∧ q.peeked = none
  /-- It returned `NULL` for a reason. -/
  null : ∀ n, run = some (.wait n) → q.consumer = .idle → q.peeked = none → q.excused = true
  reading : ∀ n id, run = some (.read n id) → q.peeked = some (.packet id)
  dropping : ∀ n id ok, run = some (.drop n id ok) →
    q.peeked = some (.packet id) ∧ cb id = done ok
  finishing : ∀ n id ok, run = some (.finish n id ok) → q.peeked = none ∧ cb id = done ok
  processed : ∀ id ∈ processed, cb id ≠ .uncrypted

section Serving

variable {q q' : PrevQueue.State} {run : Option Poll} {processed : List ℕ}
  {cb : ℕ → PacketState}

theorem done_ne_uncrypted (ok : Bool) : done ok ≠ .uncrypted := by cases ok <;> nofun

theorem init_serving : Serving PrevQueue.init none [] cb where
  held := rfl
  busy := fun h => absurd rfl h
  null := nofun
  reading := nofun
  dropping := nofun
  finishing := nofun
  processed := nofun

/-- Other calls work on the queue. -/
theorem Serving.same (h : Serving q run processed cb) (hsame : SameForConsumer q q') :
    Serving q' run processed cb where
  held := by rw [hsame.returned, hsame.peeked]; exact h.held
  busy := by rw [hsame.consumer, hsame.peeking, hsame.peeked]; exact h.busy
  null := by
    rw [hsame.consumer, hsame.peeked]
    exact fun n hrun hidle hpeeked => hsame.still (h.null n hrun hidle hpeeked)
  reading := by rw [hsame.peeked]; exact h.reading
  dropping := by rw [hsame.peeked]; exact h.dropping
  finishing := by rw [hsame.peeked]; exact h.finishing
  processed := h.processed

/-- The dequeue below `wg_prev_queue_peek` goes on. -/
theorem Serving.continued (h : Serving q run processed cb) (hsound : Sound q')
    (hbusy : q.consumer ≠ .idle) (hcontinued : Continued q q') :
    Serving q' run processed cb := by
  obtain ⟨⟨n, rfl⟩, hpeeking, hpeeked⟩ := h.busy hbusy
  have hheld := h.held
  cases hcontinued with
  | goesOn hbusy' hpeeking' hpeeked' hreturned hexcused =>
    refine ⟨?_, fun _ => ⟨⟨n, rfl⟩, hpeeking'.trans hpeeking, hpeeked'.trans hpeeked⟩, ?_,
      nofun, nofun, nofun, h.processed⟩
    · rw [hreturned, hpeeked']
      exact hheld
    · exact fun _ _ hidle => absurd hidle hbusy'
  | returns node hidle hanswers hexcused hpeeked' =>
    rw [if_pos hpeeking] at hpeeked'
    refine ⟨?_, fun hbusy' => absurd hidle hbusy', ?_, nofun, nofun, nofun, h.processed⟩
    · have hreturned : returned q' = returned q ++ node.toList := by
        unfold returned
        rw [hanswers, List.filterMap_append]
        cases node <;> rfl
      rw [hreturned, hheld, hpeeked, hpeeked']
      simp [inHand]
    · -- the last answer was `NULL`
      intro _ _ _ hnone
      have hlast : ⟨node, q.excused⟩ ∈ q'.answers := by
        rw [hanswers]
        exact List.mem_append_right _ (List.mem_singleton_self _)
      rw [hexcused]
      exact hsound.excuse.answers _ hlast (hpeeked'.symm.trans hnone)

/-- Packets that are done stay as they are. -/
theorem Serving.recolour {cb' : ℕ → PacketState} (h : Serving q run processed cb)
    (hcb : ∀ id, .packet id ∈ returned q → cb id ≠ .uncrypted → cb' id = cb id) :
    Serving q run processed cb' where
  held := h.held
  busy := h.busy
  null := h.null
  reading := h.reading
  dropping := by
    intro n id ok hrun
    obtain ⟨hpeeked, hdone⟩ := h.dropping n id ok hrun
    refine ⟨hpeeked, (hcb id ?_ (hdone ▸ done_ne_uncrypted ok)).trans hdone⟩
    simp [h.held, hpeeked]
  finishing := by
    intro n id ok hrun
    obtain ⟨hpeeked, hdone⟩ := h.finishing n id ok hrun
    refine ⟨hpeeked, (hcb id ?_ (hdone ▸ done_ne_uncrypted ok)).trans hdone⟩
    simp [h.held, hrun, inHand]
  processed := by
    intro id hid
    have hne := h.processed id hid
    rw [hcb id (by simp [h.held, hid]) hne]
    exact hne

/-- `wg_prev_queue_peek` is called. -/
theorem Serving.peek {n : ℕ} (h : Serving q (some (.peek n)) processed cb)
    (hstep : PrevQueue.machine.step q .peek = some q') :
    Serving q' (some (.wait n)) processed cb := by
  obtain ⟨hidle, -, -, -, hpeeked, hreturned, hcase⟩ := peek_spec hstep
  have hheld : returned q' = processed.map Node.packet ++
      (q'.peeked.toList ++ (inHand (some (.wait n))).map Node.packet) := by
    rw [hreturned, hpeeked]
    exact h.held
  rcases hcase with ⟨rfl, hsome⟩ | ⟨hnone, hbusy, hpeeking, -⟩
  · -- there is a packet from before
    exact ⟨hheld, fun hbusy => absurd hidle hbusy, fun _ _ _ hnone => absurd hnone hsome,
      nofun, nofun, nofun, h.processed⟩
  · exact ⟨hheld, fun _ => ⟨⟨n, rfl⟩, hpeeking, hpeeked.trans hnone⟩,
      fun _ _ hidle => absurd hidle hbusy, nofun, nofun, nofun, h.processed⟩

/-- The consumer is idle unless the serial work waits for it. -/
theorem Serving.idle (h : Serving q run processed cb) (hrun : ∀ n, run ≠ some (.wait n)) :
    q.consumer = .idle := by
  by_contra hbusy
  obtain ⟨⟨n, hwait⟩, -⟩ := h.busy hbusy
  exact hrun n hwait

/-- The serial work goes on to where it needs nothing but an idle consumer. -/
theorem Serving.goto (h : Serving q run processed cb) (hidle : q.consumer = .idle)
    {run' : Option Poll} (hhand : inHand run' = inHand run) (hwait : ∀ n, run' ≠ some (.wait n))
    (hread : ∀ n id, run' = some (.read n id) → q.peeked = some (.packet id))
    (hdrop : ∀ n id ok, run' = some (.drop n id ok) →
      q.peeked = some (.packet id) ∧ cb id = done ok)
    (hfinish : ∀ n id ok, run' ≠ some (.finish n id ok)) : Serving q run' processed cb where
  held := by rw [hhand]; exact h.held
  busy := fun hbusy => absurd hidle hbusy
  null := fun n hrun => absurd hrun (hwait n)
  reading := hread
  dropping := hdrop
  finishing := fun n id ok hrun => absurd hrun (hfinish n id ok)
  processed := h.processed

theorem Serving.drop {n id : ℕ} {ok : Bool} (h : Serving q (some (.drop n id ok)) processed cb) :
    Serving { q with peeked := none } (some (.finish n id ok)) processed cb := by
  have hidle := h.idle nofun
  obtain ⟨hpeeked, hdone⟩ := h.dropping n id ok rfl
  refine ⟨?_, fun hbusy => absurd hidle hbusy, nofun, nofun, nofun, ?_, h.processed⟩
  · have hheld := h.held
    rw [hpeeked] at hheld
    show returned q = _
    simpa [inHand] using hheld
  · rintro _ _ _ ⟨⟩
    exact ⟨rfl, hdone⟩

theorem Serving.finish {n id : ℕ} {ok : Bool}
    (h : Serving q (some (.finish n id ok)) processed cb) {run' : Option Poll}
    (hrun : run' = none ∨ ∃ m, run' = some (.peek m)) :
    Serving q run' (processed ++ [id]) cb := by
  have hidle := h.idle nofun
  obtain ⟨hpeeked, hdone⟩ := h.finishing n id ok rfl
  have hheld := h.held
  rw [hpeeked] at hheld
  have hall : ∀ x ∈ processed ++ [id], cb x ≠ .uncrypted := by
    intro x hx
    rcases List.mem_append.mp hx with hx | hx
    · exact h.processed x hx
    · rw [List.mem_singleton.mp hx, hdone]
      exact done_ne_uncrypted ok
  rcases hrun with rfl | ⟨m, rfl⟩
  · refine ⟨?_, fun hbusy => absurd hidle hbusy, nofun, nofun, nofun, nofun, hall⟩
    simpa [inHand, hpeeked] using hheld
  · refine ⟨?_, fun hbusy => absurd hidle hbusy, nofun, nofun, nofun, nofun, hall⟩
    simpa [inHand, hpeeked] using hheld

end Serving

section Steps

variable {σ : Type} {d : Direction σ} {s s' : State σ}

/-- The serial work of every peer. -/
def AllServing (s : State σ) : Prop :=
  ∀ p, Serving (s.queues p) (s.serial p).run (s.processed p) s.cb

theorem init_allServing (refs : Ref → ℕ) : AllServing (init d refs) := fun _ => init_serving

/-- A step of a call, as the serial work of a peer sees it. -/
theorem Advanced.serving {u : State σ} {t : Thread} {o : Option Thread} (haccounts : Accounts d s)
    (ht : t ∈ s.threads) (h : AllServing s) (hadvanced : Advanced d s t u o) : AllServing u := by
  intro p
  cases hadvanced with
  | alive id =>
    refine (h p).recolour fun x hx _ => ?_
    have hout := haccounts.not_admitted ht (List.mem_singleton_self id) p
    have hin := mem_admitted_of_returned (haccounts.sound p) hx
    have hne : x ≠ id := fun heq => hout (heq ▸ hin)
    exact Function.update_of_ne hne _ _
  | count id q hroom hstep =>
    obtain ⟨-, -, -, hsame⟩ := enqueue_spec hroom hstep
    by_cases hp : p = d.peer id
    · subst hp
      dsimp only
      rw [Function.update_self]
      exact (h _).same hsame
    · dsimp only
      rw [Function.update_of_ne hp]
      exact h p
  | set cpu id ok =>
    refine (h p).recolour fun x _ hne => ?_
    have hcb := (haccounts.of_token ht (List.mem_singleton_self id)).1
    have hother : x ≠ id := fun heq => hne (heq ▸ hcb)
    exact Function.update_of_ne hother _ _
  | notify cpu p' =>
    by_cases hp : p = p'
    · subst hp
      dsimp only
      rw [Function.update_self]
      exact h p
    · dsimp only
      rw [Function.update_of_ne hp]
      exact h p
  | _ => exact h p

theorem settle_queues (p id : ℕ) (ok : Bool) : (s.settle d p id ok).queues = s.queues := by
  cases ok <;> rfl

theorem settle_cb (p id : ℕ) (ok : Bool) : (s.settle d p id ok).cb = s.cb := by
  cases ok <;> rfl

theorem settle_processed (p id : ℕ) (ok : Bool) :
    (s.settle d p id ok).processed = Function.update s.processed p (s.processed p ++ [id]) := by
  cases ok <;> rfl

/-- What a step of the serial work of one peer does to that peer. -/
theorem Polled.serving_self {p : ℕ} {pc : Poll} (hrun : (s.serial p).run = some pc)
    (h : AllServing s) (hpolled : Polled d s p pc s') :
    Serving (s'.queues p) (s'.serial p).run (s'.processed p) s'.cb := by
  have hp := h p
  rw [hrun] at hp
  cases hpolled with
  | peek n q hstep =>
    simp only [State.goto, Function.update_self]
    exact hp.peek hstep
  | none n hidle hpeeked =>
    simp only [State.goto, Function.update_self]
    exact hp.goto hidle rfl (by simp) (by simp) (by simp) (by simp)
  | found n id hidle hpeeked =>
    simp only [State.goto, Function.update_self]
    refine hp.goto hidle rfl (by simp) ?_ (by simp) (by simp)
    rintro _ _ ⟨⟩
    exact hpeeked
  | uncrypted n id hcb =>
    simp only [State.goto, Function.update_self]
    exact hp.goto (hp.idle (by simp)) rfl (by simp) (by simp) (by simp) (by simp)
  | ready n id ok hcb =>
    simp only [State.goto, Function.update_self]
    refine hp.goto (hp.idle (by simp)) rfl (by simp) (by simp) ?_ (by simp)
    rintro _ _ _ ⟨⟩
    exact ⟨hp.reading n id rfl, hcb⟩
  | drop n id ok q hstep =>
    obtain ⟨-, rfl⟩ := dropPeeked_spec hstep
    simp only [State.goto, Function.update_self]
    exact hp.drop
  | finish n id ok w hw =>
    simp only [settle_queues, settle_cb, settle_processed, Function.update_self]
    refine hp.finish ?_
    rcases hw with rfl | rfl
    · exact .inr ⟨n + 1, rfl⟩
    · exact .inl rfl
  | leave =>
    simp only [State.goto, Function.update_self]
    exact hp.goto (hp.idle (by simp)) rfl (by simp) (by simp) (by simp) (by simp)

/-- It leaves the other peers alone. -/
theorem Polled.others {p p' : ℕ} {pc : Poll} (hpolled : Polled d s p pc s') (hp : p' ≠ p) :
    s'.queues p' = s.queues p' ∧ s'.serial p' = s.serial p' ∧
      s'.processed p' = s.processed p' := by
  cases hpolled with
  | peek | drop => simp [State.goto, hp]
  | finish => simp [settle_queues, settle_processed, hp]
  | _ => simp [State.goto, hp]

theorem Polled.cb {p : ℕ} {pc : Poll} (hpolled : Polled d s p pc s') : s'.cb = s.cb := by
  cases hpolled with
  | finish n id ok w hw => exact settle_cb p id ok
  | _ => rfl

theorem access_serving (haccounts : Accounts d s) (h : AllServing s) {p : ℕ} {l : Access}
    {q : PrevQueue.State} (hstep : PrevQueue.machine.step (s.queues p) l.action = some q) :
    Serving q (s.serial p).run (s.processed p) s.cb := by
  cases l with
  | produce i =>
    obtain ⟨-, -, -, -, -, hsame⟩ := produce_spec hstep
    exact (h p).same hsame
  | consume =>
    obtain ⟨hbusy, -, -, -, hcontinued⟩ := consume_spec (haccounts.sound p) hstep
    exact (h p).continued (step_sound _ _ _ (haccounts.sound p) hstep) hbusy hcontinued

theorem step_serving {a : Action} (haccounts : Accounts d s) (h : AllServing s) (hstep : Stepped d s a s') :
    AllServing s' := by
  cases hstep with
  | thread i c t o u ht hadvanced =>
    have hserving := hadvanced.serving haccounts (List.mem_of_getElem? ht) h
    exact fun p => hserving p
  | access p l q hstep =>
    intro p'
    by_cases hp : p' = p
    · subst hp
      dsimp only
      rw [Function.update_self]
      exact access_serving haccounts h hstep
    · dsimp only
      rw [Function.update_of_ne hp]
      exact h p'
  | runSerial p hpending hrun =>
    intro p'
    by_cases hp : p' = p
    · subst hp
      have hserving := h p'
      rw [hrun] at hserving
      dsimp only
      rw [Function.update_self]
      exact hserving.goto (hserving.idle nofun) rfl nofun nofun nofun nofun
    · dsimp only
      rw [Function.update_of_ne hp]
      exact h p'
  | poll p pc u hrun hpolled =>
    intro p'
    by_cases hp : p' = p
    · subst hp
      exact hpolled.serving_self hrun h
    · obtain ⟨hqueue, hserial, hprocessed⟩ := hpolled.others hp
      rw [hqueue, hserial, hprocessed, hpolled.cb]
      exact h p'
  | _ => exact h

/-- Packets are processed in the order in which they became the head of the queue. -/
theorem processed_initial_segment (haccounts : Accounts d s) (h : AllServing s) (p : ℕ) :
    s.processed p <+: (s.queues p).exchanged := by
  have horder := (haccounts.sound p).inv.order
  rw [(h p).held, List.append_assoc, List.append_assoc] at horder
  obtain ⟨l, rest, heq, hl, -⟩ := List.map_eq_append_iff.mp horder
  have hsame := List.map_injective_iff.mpr (fun _ _ => Node.packet.inj) hl
  exact ⟨rest, by rw [heq, hsame]⟩

/-- The packet that is being processed belongs to the peer. -/
theorem peer_of_inHand (haccounts : Accounts d s) (h : AllServing s) {p n id : ℕ} {ok : Bool}
    (hrun : (s.serial p).run = some (.finish n id ok)) : d.peer id = p := by
  refine haccounts.own p id (mem_admitted_of_returned (haccounts.sound p) ?_)
  simp [(h p).held, hrun, inHand]

end Steps

end AmneziaWg.Pipeline
