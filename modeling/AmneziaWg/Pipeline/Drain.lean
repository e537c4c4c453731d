import AmneziaWg.Pipeline.Delivery
import Mathlib.Algebra.BigOperators.Group.Finset.Basic
import Mathlib.Algebra.Order.BigOperators.Group.Finset

/-!
# The pipeline comes to rest

When no more packets come, the calls in progress and the queued work end after a bounded number
of steps, in whatever order they are run, and then every packet has been refused or processed.

* **Measure**: `weight`, a bound on the steps that are left.
* **Results**: `pipeline_orderly`, `pipeline_references` and `pipeline_drains`, over all runs.
-/

namespace AmneziaWg.Pipeline

open Threads PrevQueue

/-! ## Measure -/

/-- The steps that a call has left, with those of the work that it queues. -/
def Thread.weight : Thread → ℕ
  | .alive _ => 42
  | .enqueue _ => 41
  | .entering _ => 23
  | .produce _ => 22
  | .kick => 3
  | .refuse _ => 1
  | .consume _ => 1
  | .crypt _ _ => 18
  | .set _ _ _ => 17
  | .notify _ _ => 16
  | .put _ _ => 2

def producerWeight : Producer → ℕ
  | .clear _ => 3
  | .swap _ => 2
  | .link _ _ => 1

/-- The steps of the serial work to the end of its loop, if it finds no further packet. -/
def pollWeight : Option Poll → ℕ
  | none => 0
  | some .leave => 1
  | some (.read _ _) => 2
  | some (.wait _) => 3
  | some (.peek _) => 12
  | some (.drop _ _ _) => 1
  | some (.finish _ _ _) => 0

/-- A packet in the queue costs one more round of the loop, and perhaps one more run. -/
def peerWeight (q : PrevQueue.State) (serial : Serial) (processed : List ℕ) : ℕ :=
  14 * (q.admitted.length - processed.length) + (q.producers.map producerWeight).sum +
    q.consumer.left + pollWeight serial.run + if serial.pending then 13 else 0

section Measure

variable {σ : Type} {d : Direction σ} {s s' u : State σ} {p bound : ℕ}

def peersWeight (bound : ℕ) (s : State σ) : ℕ :=
  ∑ p ∈ Finset.range bound, peerWeight (s.queues p) (s.serial p) (s.processed p)

def kickedWeight (d : Direction σ) (s : State σ) : ℕ :=
  ∑ cpu ∈ Finset.range d.cpus, if s.kicked cpu then 2 else 0

/-- A bound on the steps that are left, with peers below `bound`. -/
def weight (d : Direction σ) (bound : ℕ) (s : State σ) : ℕ :=
  (s.threads.map Thread.weight).sum + 18 * s.ring.length + kickedWeight d s + peersWeight bound s

/-- Only peers below `bound` and CPUs that are online have work. -/
structure Within (d : Direction σ) (bound : ℕ) (s : State σ) : Prop where
  kicked : ∀ cpu, s.kicked cpu = true → cpu < d.cpus
  serial : ∀ p, bound ≤ p → s.serial p = ⟨false, none⟩
  threads : ∀ t ∈ s.threads, ∀ p, .peer p ∈ t.puts → p < bound

/-- A sum changes by the one term that changes. -/
theorem sum_change {f g : ℕ → ℕ} {n k : ℕ} (hk : k < n) (hothers : ∀ i, i ≠ k → g i = f i) :
    ∑ i ∈ Finset.range n, g i + f k = ∑ i ∈ Finset.range n, f i + g k := by
  have hmem := Finset.mem_range.mpr hk
  have hrest : ∑ i ∈ (Finset.range n).erase k, g i = ∑ i ∈ (Finset.range n).erase k, f i :=
    Finset.sum_congr rfl fun i hi => hothers i (Finset.ne_of_mem_erase hi)
  have hf := Finset.add_sum_erase _ f hmem
  have hg := Finset.add_sum_erase _ g hmem
  omega

/-- What changes at one peer only. -/
theorem peersWeight_change (s s' : State σ) (hp : p < bound)
    (hothers : ∀ p', p' ≠ p → s'.queues p' = s.queues p' ∧ s'.serial p' = s.serial p' ∧
      s'.processed p' = s.processed p') :
    peersWeight bound s' + peerWeight (s.queues p) (s.serial p) (s.processed p) =
      peersWeight bound s + peerWeight (s'.queues p) (s'.serial p) (s'.processed p) := by
  refine sum_change (f := fun p => peerWeight (s.queues p) (s.serial p) (s.processed p))
    (g := fun p => peerWeight (s'.queues p) (s'.serial p) (s'.processed p)) hp fun p' hp' => ?_
  obtain ⟨hq, hs, hpr⟩ := hothers p' hp'
  simp only [hq, hs, hpr]

/-- A step of a call makes the weight smaller. -/
theorem thread_weight {i : ℕ} {t : Thread} {o : Option Thread} (hbound : ∀ k, d.owner k < bound)
    (hwithin : Within d bound s) (ht : s.threads[i]? = some t) (hadvanced : Advanced d s t u o) :
    weight d bound { u with threads := resume s.threads i o } < weight d bound s := by
  have hpool := sum_map_resume Thread.weight ht o
  -- most steps change nothing but the call
  have hsame : u.ring = s.ring → u.kicked = s.kicked → u.queues = s.queues →
      u.serial = s.serial → u.processed = s.processed →
      (o.toList.map Thread.weight).sum < t.weight →
      weight d bound { u with threads := resume s.threads i o } < weight d bound s := by
    intro hring hkicked hqueues hserial hprocessed hlt
    unfold weight kickedWeight peersWeight
    dsimp only
    rw [hring, hkicked, hqueues, hserial, hprocessed]
    omega
  cases hadvanced with
  | count id q hroom hstep =>
    obtain ⟨hadmitted, hproducers, -, hconsumer⟩ := enqueue_spec hroom hstep
    have hpeers := peersWeight_change s
      { s with
        queues := Function.update s.queues (d.peer id) q
        threads := resume s.threads i (some (.entering id)) }
      (hbound (d.keypair id))
      fun p' hp' => ⟨Function.update_of_ne hp' _ _, rfl, rfl⟩
    have hpeer : peerWeight q (s.serial (d.peer id)) (s.processed (d.peer id)) ≤
        peerWeight (s.queues (d.peer id)) (s.serial (d.peer id)) (s.processed (d.peer id)) +
          17 := by
      unfold peerWeight
      rw [hadmitted, hproducers, hconsumer.consumer]
      simp only [List.length_append, List.length_singleton, List.map_append, List.map_cons,
        List.map_nil, List.sum_append, List.sum_cons, List.sum_nil, producerWeight]
      omega
    dsimp only at hpeers
    rw [show d.owner (d.keypair id) = d.peer id from rfl, Function.update_self] at hpeers
    simp only [Thread.weight, Option.toList_some, List.map_cons, List.map_nil, List.sum_cons,
      List.sum_nil] at hpool
    unfold weight kickedWeight at *
    dsimp only at *
    omega
  | produced id =>
    simp only [Thread.weight, Option.toList_some, List.map_cons, List.map_nil, List.sum_cons,
      List.sum_nil] at hpool
    unfold weight kickedWeight peersWeight
    simp only [List.length_append, List.length_singleton]
    omega
  | kick cpu hcpu =>
    have hkicked := sum_change (f := fun c => if s.kicked c then 2 else 0)
      (g := fun c => if Function.update s.kicked cpu true c then 2 else 0) hcpu
      fun c hc => by simp [hc]
    simp only [Function.update_self, if_true] at hkicked
    simp only [Thread.weight, Option.toList_none, List.map_nil, List.sum_nil] at hpool
    unfold weight kickedWeight peersWeight
    dsimp only
    omega
  | take cpu id ring hring =>
    simp only [Thread.weight, Option.toList_some, List.map_cons, List.map_nil, List.sum_cons,
      List.sum_nil] at hpool
    unfold weight kickedWeight peersWeight
    dsimp only
    rw [hring, List.length_cons]
    omega
  | notify cpu p =>
    have hp := hwithin.threads _ (List.mem_of_getElem? ht) p (List.mem_singleton_self _)
    have hpeers := peersWeight_change s
      { s with
        serial := Function.update s.serial p { s.serial p with pending := true }
        threads := resume s.threads i (some (.put cpu p)) }
      hp fun p' hp' => ⟨rfl, Function.update_of_ne hp' _ _, rfl⟩
    have hpeer : peerWeight (s.queues p) ⟨true, (s.serial p).run⟩ (s.processed p) ≤
        peerWeight (s.queues p) (s.serial p) (s.processed p) + 13 := by
      unfold peerWeight
      simp only [if_true]
      omega
    dsimp only at hpeers
    rw [Function.update_self] at hpeers
    simp only [Thread.weight, Option.toList_some, List.map_cons, List.map_nil, List.sum_cons,
      List.sum_nil] at hpool
    unfold weight kickedWeight
    dsimp only
    omega
  | put cpu p =>
    refine hsame rfl rfl rfl rfl rfl ?_
    cases cpu <;> simp [Thread.weight]
  | _ => exact hsame rfl rfl rfl rfl rfl (by simp [Thread.weight])

/-- A producer's access makes its weight smaller. -/
theorem produce_weight {q q' : PrevQueue.State} {i : ℕ}
    (hstep : PrevQueue.machine.step q (.produce i) = some q') :
    (q'.producers.map producerWeight).sum < (q.producers.map producerWeight).sum := by
  obtain ⟨t, hact, rfl⟩ := Option.map_eq_some_iff.mp hstep
  simp only [act] at hact
  split at hact
  · cases hact
  · next p hp =>
    obtain rfl := Option.some.inj hact
    obtain ⟨b, hb, -⟩ := observe_eq
      { (produce q p).1 with producers := resume q.producers i (produce q p).2 }
    rw [hb]
    have hpool := sum_map_resume producerWeight hp (produce q p).2
    have hlt : ((produce q p).2.toList.map producerWeight).sum < producerWeight p := by
      cases p <;> simp [produce, producerWeight]
    show ((resume q.producers i (produce q p).2).map producerWeight).sum < _
    omega

/-- An access to a queue makes the weight of its peer smaller. -/
theorem access_peerWeight {l : Access} {q : PrevQueue.State} (hsound : Sound (s.queues p))
    (hstep : PrevQueue.machine.step (s.queues p) l.action = some q) (w : Serial)
    (processed : List ℕ) : peerWeight q w processed < peerWeight (s.queues p) w processed := by
  unfold peerWeight
  cases l with
  | produce i =>
    obtain ⟨-, -, hadmitted, -, -, hsame⟩ := produce_spec hstep
    have hlt := produce_weight hstep
    rw [hadmitted, hsame.consumer]
    omega
  | consume =>
    obtain ⟨hbusy, hadmitted, hproducers, -⟩ := consume_spec hsound hstep
    obtain ⟨t, hconsume, hlt⟩ := consume_left hbusy
    have hq : q = observe t := by
      obtain ⟨t', hact, rfl⟩ := Option.map_eq_some_iff.mp hstep
      rw [Option.some.inj (hact.symm.trans hconsume)]
    have hconsumer : q.consumer = t.consumer := hq ▸ observe_consumer t
    rw [hadmitted, hproducers, hconsumer]
    omega

/-- A step of the serial work makes the weight of its peer smaller. -/
theorem poll_peerWeight {pc : Poll} (haccounts : Accounts d s)
    (hrun : (s.serial p).run = some pc) (hpolled : Polled d s p pc s')
    (haccounts' : Accounts d s') (hserving' : AllServing s') :
    peerWeight (s'.queues p) (s'.serial p) (s'.processed p) <
      peerWeight (s.queues p) (s.serial p) (s.processed p) := by
  cases hpolled with
  | peek n q hstep =>
    obtain ⟨hidle, hadmitted, hproducers, -, -, -, hcase⟩ := peek_spec hstep
    have hleft : q.consumer.left ≤ 8 := by cases q.consumer <;> simp [Consumer.left]
    have hzero : (s.queues p).consumer.left = 0 := by rw [hidle]; rfl
    simp only [peerWeight, State.goto, Function.update_self, hadmitted, hproducers, hrun,
      pollWeight, hzero]
    omega
  | drop n id ok q hstep =>
    obtain ⟨-, rfl⟩ := dropPeeked_spec hstep
    simp only [peerWeight, State.goto, Function.update_self, hrun, pollWeight]
    omega
  | finish n id ok w hw =>
    -- the packet was admitted, so that there is one less to process
    have hle : (s.processed p ++ [id]).length ≤ (s.queues p).admitted.length := by
      have hpart := (processed_initial_segment haccounts' hserving' p).length_le
      have hperm := (haccounts.sound p).inv.admitted.length_eq
      simp only [settle_processed, settle_queues, Function.update_self] at hpart
      rw [List.length_append] at hperm
      omega
    rw [List.length_append, List.length_singleton] at hle
    have hnext : (if w.pending then 13 else 0) + pollWeight w.run ≤
        13 + if (s.serial p).pending then 13 else 0 := by
      rcases hw with rfl | rfl
      · simp only [pollWeight]
        omega
      · simp [pollWeight]
    have hzero : pollWeight (s.serial p).run = 0 := by rw [hrun]; rfl
    simp only [peerWeight, settle_queues, settle_processed, Function.update_self, hzero,
      List.length_append, List.length_singleton]
    omega
  | _ =>
    simp only [peerWeight, State.goto, Function.update_self, hrun, pollWeight]
    omega

/-- Peers beyond `bound` have no packets, so that nobody accesses their queues. -/
theorem Within.access {l : Access} {q : PrevQueue.State} (h : Within d bound s)
    (hbound : ∀ k, d.owner k < bound) (haccounts : Accounts d s) (hserving : AllServing s)
    (hstep : PrevQueue.machine.step (s.queues p) l.action = some q) : p < bound := by
  by_contra hge
  have hserial := h.serial p (Nat.le_of_not_lt hge)
  cases l with
  | produce i =>
    obtain ⟨pr, hpr, -⟩ := produce_spec hstep
    have hin := (haccounts.producers p pr (List.mem_of_getElem? hpr)).2
    exact hge (haccounts.own p _ hin ▸ hbound _)
  | consume =>
    obtain ⟨hbusy, -⟩ := consume_spec (haccounts.sound p) hstep
    obtain ⟨⟨n, hrun⟩, -⟩ := (hserving p).busy hbusy
    rw [hserial] at hrun
    cases hrun

/-- Work of a peer beyond `bound` is neither queued nor running. -/
theorem Within.active (h : Within d bound s) (hactive : s.serial p ≠ ⟨false, none⟩) :
    p < bound := by
  by_contra hge
  exact hactive (h.serial p (Nat.le_of_not_lt hge))

theorem init_within (refs : Ref → ℕ) : Within d bound (init d refs) where
  kicked := nofun
  serial := fun _ _ => rfl
  threads := nofun

theorem thread_within {i : ℕ} {t : Thread} {o : Option Thread} (hbound : ∀ k, d.owner k < bound)
    (h : Within d bound s) (ht : s.threads[i]? = some t) (hadvanced : Advanced d s t u o) :
    Within d bound { u with threads := resume s.threads i o } := by
  have hmem := List.mem_of_getElem? ht
  constructor
  · intro cpu hkicked
    cases hadvanced with
    | kick cpu' hcpu =>
      by_cases heq : cpu = cpu'
      · exact heq ▸ hcpu
      · exact h.kicked cpu ((Function.update_of_ne heq _ _).symm.trans hkicked)
    | _ => exact h.kicked cpu hkicked
  · intro p hp
    cases hadvanced with
    | notify cpu p' =>
      have hlt := h.threads _ hmem p' (List.mem_singleton_self _)
      have hne : p ≠ p' := by omega
      exact (Function.update_of_ne hne _ _).trans (h.serial p hp)
    | _ => exact h.serial p hp
  · refine forall_resume ht (fun _ _ hP => hP) h.threads fun w hw p hp => ?_
    cases hadvanced with
    | set cpu id ok =>
      cases hw
      rw [Ref.peer.inj (List.mem_singleton.mp hp)]
      exact hbound _
    | notify cpu p' =>
      cases hw
      exact h.threads _ hmem p hp
    | put cpu p' =>
      cases cpu <;> cases hw
      cases hp
    | _ => cases hw <;> cases hp

theorem step_within {a : Action} (hbound : ∀ k, d.owner k < bound) (h : Within d bound s)
    (hstep : Stepped d s a s') : Within d bound s' := by
  -- a call that begins holds no reference of its own
  have hspawn : ∀ w : Thread, w.puts = [] → ∀ t ∈ s.threads ++ [w], ∀ p, .peer p ∈ t.puts →
      p < bound := by
    intro w hw t ht p hp
    rcases List.mem_append.mp ht with ht | ht
    · exact h.threads t ht p hp
    · rw [List.mem_singleton.mp ht, hw] at hp
      cases hp
  cases hstep with
  | thread i c t o u ht hadvanced => exact thread_within hbound h ht hadvanced
  | submit => exact ⟨h.kicked, h.serial, hspawn _ rfl⟩
  | run cpu hkicked =>
    refine ⟨fun cpu' hk => ?_, h.serial, hspawn _ rfl⟩
    by_cases heq : cpu' = cpu
    · rw [heq]
      exact h.kicked cpu hkicked
    · exact h.kicked cpu' ((Function.update_of_ne heq _ _).symm.trans hk)
  | runSerial p hpending hrun =>
    have hp : p < bound := h.active fun heq => by rw [heq] at hpending; cases hpending
    refine ⟨h.kicked, fun p' hp' => ?_, h.threads⟩
    have hne : p' ≠ p := by omega
    exact (Function.update_of_ne hne _ _).trans (h.serial p' hp')
  | poll p pc u hrun hpolled =>
    have hp : p < bound := h.active fun heq => by rw [heq] at hrun; cases hrun
    have hkicked : s'.kicked = s.kicked := hpolled.kicked
    refine ⟨hkicked ▸ h.kicked, fun p' hp' => ?_, hpolled.threads.1 ▸ h.threads⟩
    have hne : p' ≠ p := by omega
    rw [(hpolled.others hne).2.1]
    exact h.serial p' hp'
  | _ => exact ⟨h.kicked, h.serial, h.threads⟩

end Measure

/-! ## Results -/

section Results

variable {σ : Type} {d : Direction σ} {s s' : State σ}

/-- The invariants together. -/
structure Inv (d : Direction σ) (s : State σ) : Prop where
  accounts : Accounts d s
  serving : AllServing s
  awake : Awake d s
  fed : Fed d s
  balanced : Balanced d s
  logged : Logged d s

theorem init_inv (refs : Ref → ℕ) : Inv d (init d refs) :=
  ⟨init_accounts refs, init_allServing refs, init_awake refs, init_fed refs, init_balanced refs,
    init_logged refs⟩

theorem step_inv (s : State σ) (a : Action) (s' : State σ) (h : Inv d s)
    (hstep : (machine d).step s a = some s') : Inv d s' := by
  have hstepped := stepped_of_step hstep
  exact ⟨step_accounts h.accounts hstepped, step_serving h.accounts h.serving hstepped,
    step_awake h.accounts h.serving h.awake hstepped, step_fed h.fed hstepped,
    step_balanced h.balanced h.accounts h.serving hstepped,
    step_logged h.logged h.accounts h.serving hstepped⟩

theorem run_inv {refs : Ref → ℕ} {as : List Action}
    (hrun : (machine d).run (init d refs) as = some s) : Inv d s :=
  (machine d).run_invariant step_inv (init_inv refs) hrun

/-- Every internal step makes the weight smaller. -/
theorem step_weight {bound : ℕ} {a : Action} (hbound : ∀ k, d.owner k < bound) (h : Inv d s)
    (hwithin : Within d bound s) (ha : a.internal = true)
    (hstep : (machine d).step s a = some s') : weight d bound s' < weight d bound s := by
  have h' := step_inv s a s' h hstep
  cases stepped_of_step hstep with
  | submit | die | get | put => cases ha
  | thread i c t o u ht hadvanced => exact thread_weight hbound hwithin ht hadvanced
  | access p l q haccess =>
    have hp := hwithin.access hbound h.accounts h.serving haccess
    have hpeers := peersWeight_change s
      { s with queues := Function.update s.queues p q } hp
      fun p' hp' => ⟨Function.update_of_ne hp' _ _, rfl, rfl⟩
    have hlt := access_peerWeight (h.accounts.sound p) haccess (s.serial p) (s.processed p)
    dsimp only at hpeers
    rw [Function.update_self] at hpeers
    unfold weight kickedWeight
    dsimp only
    omega
  | run cpu hkicked =>
    have hsum := sum_change (f := fun c => if s.kicked c then 2 else 0)
      (g := fun c => if Function.update s.kicked cpu false c then 2 else 0)
      (hwithin.kicked cpu hkicked) fun c hc => by simp [hc]
    simp only [Function.update_self, hkicked, if_true, Bool.false_eq_true, if_false] at hsum
    unfold weight kickedWeight peersWeight
    simp only [List.map_append, List.map_cons, List.map_nil, List.sum_append, List.sum_cons,
      List.sum_nil, Thread.weight]
    omega
  | runSerial p hpending hrun =>
    have hp : p < bound := hwithin.active fun heq => by rw [heq] at hpending; cases hpending
    have hpeers := peersWeight_change s
      { s with serial := Function.update s.serial p ⟨false, some (.peek 0)⟩ } hp
      fun p' hp' => ⟨rfl, Function.update_of_ne hp' _ _, rfl⟩
    have hlt : peerWeight (s.queues p) ⟨false, some (.peek 0)⟩ (s.processed p) <
        peerWeight (s.queues p) (s.serial p) (s.processed p) := by
      unfold peerWeight
      rw [hpending, hrun]
      simp only [pollWeight, if_true, Bool.false_eq_true, if_false]
      omega
    dsimp only at hpeers
    rw [Function.update_self] at hpeers
    unfold weight kickedWeight
    dsimp only
    omega
  | poll p pc u hrun hpolled =>
    have hp : p < bound := hwithin.active fun heq => by rw [heq] at hrun; cases hrun
    have hpeers := peersWeight_change s s' hp fun p' hp' => hpolled.others hp'
    have hlt := poll_peerWeight h.accounts hrun hpolled h'.accounts h'.serving
    unfold weight kickedWeight
    rw [hpolled.threads.1, hpolled.threads.2, hpolled.kicked]
    omega

/-- A run of internal steps is no longer than the weight it begins with. -/
theorem run_weight {bound : ℕ} (hbound : ∀ k, d.owner k < bound) {as : List Action}
    (has : ∀ a ∈ as, a.internal = true) (h : Inv d s) (hwithin : Within d bound s)
    (hrun : (machine d).run s as = some s') :
    as.length + weight d bound s' ≤ weight d bound s := by
  induction as generalizing s with
  | nil =>
    have hss : s = s' := by simpa using hrun
    rw [hss, List.length_nil, Nat.zero_add]
  | cons a as ih =>
    obtain ⟨t, hst, hts⟩ := (machine d).run_cons_some hrun
    have hlt := step_weight hbound h hwithin (has a List.mem_cons_self) hst
    have hle := ih (fun b hb => has b (List.mem_cons_of_mem a hb)) (step_inv s a t h hst)
      (step_within hbound hwithin (stepped_of_step hst)) hts
    rw [List.length_cons]
    omega

theorem countP_eq_of_count_eq {f : ℕ → Bool} {l l' : List ℕ}
    (h : ∀ a, f a = true → l.count a = l'.count a) : l.countP f = l'.countP f := by
  rw [List.countP_eq_length_filter, List.countP_eq_length_filter]
  refine (List.perm_iff_count.mpr fun a => ?_).length_eq
  by_cases hf : f a = true
  · rw [List.count_filter hf, List.count_filter hf, h a hf]
  · rw [List.count_eq_zero_of_not_mem fun hmem => hf (List.mem_filter.mp hmem).2,
      List.count_eq_zero_of_not_mem fun hmem => hf (List.mem_filter.mp hmem).2]

theorem count_range (n a : ℕ) : (List.range n).count a = if a < n then 1 else 0 := by
  split
  · next hlt => exact List.count_eq_one_of_mem List.nodup_range (List.mem_range.mpr hlt)
  · next hge => exact List.count_eq_zero_of_not_mem fun hmem => hge (List.mem_range.mp hmem)

/-- What holds in every state that a run reaches. -/
structure Orderly (d : Direction σ) (s : State σ) : Prop where
  /-- A packet that has come is with its submitting call, refused, or in the queue of its
  peer. -/
  once : ∀ id < s.next, (s.threads.flatMap Thread.early).count id + s.refused.count id +
    (s.queues (d.peer id)).admitted.count id = 1
  /-- A packet of the queue is with one call or once in the ring for as long as it is
  uncrypted, and with none of them afterwards. -/
  awaits : ∀ id ∈ (s.queues (d.peer id)).admitted,
    (s.threads.flatMap Thread.token).count id + s.ring.count id =
      if s.cb id = .uncrypted then 1 else 0
  distinct : ∀ p, (s.queues p).exchanged.Nodup
  /-- Packets are processed in the order of the queue, and not before their cipher ends. -/
  order : ∀ p, s.processed p <+: (s.queues p).exchanged
  finished : ∀ p, ∀ id ∈ s.processed p, s.cb id ≠ .uncrypted
  /-- Those whose cipher succeeded are offered, in that order. -/
  offered : ∀ p, s.offered.filter (d.peer · = p) = (s.processed p).filter (s.cb · = .crypted)
  delivered : s.delivered = (replay d s.offered).2

theorem Inv.orderly (h : Inv d s) : Orderly d s where
  once := by
    intro id hid
    rw [h.accounts.once id, if_pos hid]
  awaits := by
    intro id hin
    rw [h.accounts.tokens id]
    exact if_congr (and_iff_left hin) rfl rfl
  distinct := by
    intro p
    refine List.nodup_iff_count_le_one.mpr fun id => ?_
    by_cases hid : id ∈ (s.queues p).exchanged
    · have hin := mem_admitted_of_exchanged (h.accounts.sound p) hid
      have honce := h.accounts.once id
      rw [h.accounts.own p id hin, (h.accounts.sound p).inv.admitted.count_eq,
        List.count_append] at honce
      split at honce <;> omega
    · rw [List.count_eq_zero_of_not_mem hid]
      exact Nat.zero_le 1
  order := processed_initial_segment h.accounts h.serving
  finished := fun p => (h.serving p).processed
  offered := h.logged.offered
  delivered := congrArg Prod.snd h.logged.replayed

/-- Whatever the calls, the workers and the serial work of the peers do. -/
theorem pipeline_orderly {refs : Ref → ℕ} {as : List Action}
    (hrun : (machine d).run (init d refs) as = some s) : Orderly d s :=
  (run_inv hrun).orderly

/-- `encrypt_queue`, `tx_queue` and `wg_packet_tx_worker`: packets whose encryption succeeded
are sent. -/
def sending (keypair owner : ℕ → ℕ) (cpus : ℕ) : Direction Unit where
  keypair := keypair
  owner := owner
  cpus := cpus
  budget := none
  start := ()
  accept := fun _ _ => ((), true)

/-- A submission up to the ring, by the only call in progress. -/
def submission (cpu : ℕ) : List Action :=
  [.submit, .thread 0 ⟨0, true⟩, .thread 0 ⟨0, true⟩, .access 0 (.produce 0),
    .access 0 (.produce 0), .access 0 (.produce 0), .thread 0 ⟨0, true⟩, .thread 0 ⟨0, true⟩,
    .thread 0 ⟨cpu, true⟩]

/-- Two packets on two CPUs. The second is done before the first, the serial work is run for it
and finds the first, and has to wait for it. -/
def overtaking : List Action :=
  submission 0 ++ submission 1 ++
    [.run 0, .run 1, .thread 0 ⟨0, true⟩, .thread 1 ⟨0, true⟩, .thread 1 ⟨0, true⟩,
      .thread 1 ⟨0, true⟩, .thread 1 ⟨0, true⟩, .thread 1 ⟨0, true⟩, .runSerial 0, .poll 0,
      .access 0 .consume, .access 0 .consume, .access 0 .consume, .poll 0, .poll 0, .poll 0]

/-- The first is done as well, and the serial work is run again. -/
def catchingUp : List Action :=
  overtaking ++ List.replicate 6 (.thread 0 ⟨0, true⟩) ++ .runSerial 0 :: List.replicate 6 (.poll 0) ++
    List.replicate 7 (.access 0 .consume) ++ List.replicate 5 (.poll 0) ++
    [.access 0 .consume, .poll 0, .poll 0]

theorem pipeline_orderly_overtaking :
    ∃ s, (machine (sending (fun _ => 0) (fun _ => 0) 2)).run
        (init (sending (fun _ => 0) (fun _ => 0) 2) fun _ => 1) overtaking = some s ∧
      s.cb 1 = .crypted ∧ s.processed 0 = [] ∧
      Orderly (sending (fun _ => 0) (fun _ => 0) 2) s := by
  have hrun : ∃ s, (machine (sending (fun _ => 0) (fun _ => 0) 2)).run
      (init (sending (fun _ => 0) (fun _ => 0) 2) fun _ => 1) overtaking = some s ∧
      s.cb 1 = .crypted ∧ s.processed 0 = [] := ⟨_, rfl, rfl, rfl⟩
  obtain ⟨s, hs, hcb, hprocessed⟩ := hrun
  exact ⟨s, hs, hcb, hprocessed, pipeline_orderly hs⟩

/-- The keypair and the peer of a packet are not freed before it is refused or processed, and
the peer of a call that has set a packet's state not before that call ends, even if everybody
else puts their references. -/
theorem pipeline_references {refs : Ref → ℕ} {as : List Action}
    (hrun : (machine d).run (init d refs) as = some s) :
    (∀ id < s.next, id ∉ s.refused → id ∉ s.processed (d.peer id) →
      ∀ r, uses d r id = true → s.others r < s.refs r) ∧
      ∀ t ∈ s.threads, ∀ r ∈ t.puts, s.others r < s.refs r := by
  have h := run_inv hrun
  constructor
  · intro id hid hrefused hprocessed r huses
    have hbalance := h.balanced r
    have hhome := home_of_uses huses
    -- the packet has come and its reference has not been put
    have hsub : List.Subperm (id :: (s.refused ++ s.processed (r.home d))) (List.range s.next) := by
      refine List.cons_subperm_of_not_mem_of_mem ?_ (List.mem_range.mpr hid)
        (released_subperm h.accounts h.serving (r.home d))
      rw [List.mem_append, ← hhome]
      exact fun hmem => hmem.elim hrefused hprocessed
    have hle := hsub.countP_le (uses d r)
    rw [List.countP_cons_of_pos huses, List.countP_append] at hle
    unfold released at hbalance
    omega
  · intro t ht r hr
    have hbalance := h.balanced r
    have hle := released_le h.accounts h.serving r
    have hpos : 0 < (s.threads.flatMap Thread.puts).count r :=
      List.count_pos_iff.mpr (List.mem_flatMap.mpr ⟨t, ht, hr⟩)
    omega

theorem pipeline_references_overtaking :
    ∃ s, (machine (sending (fun _ => 0) (fun _ => 0) 2)).run
        (init (sending (fun _ => 0) (fun _ => 0) 2) fun _ => 0) overtaking = some s ∧
      0 < s.refs (.peer 0) ∧ 0 < s.refs (.keypair 0) := by
  have hrun : ∃ s, (machine (sending (fun _ => 0) (fun _ => 0) 2)).run
      (init (sending (fun _ => 0) (fun _ => 0) 2) fun _ => 0) overtaking = some s ∧
      0 < s.next ∧ 0 ∉ s.refused ∧ 0 ∉ s.processed 0 := ⟨_, rfl, by decide, nofun, nofun⟩
  obtain ⟨s, hs, hnext, hrefused, hprocessed⟩ := hrun
  have hheld := (pipeline_references hs).1 0 hnext hrefused hprocessed
  exact ⟨s, hs, (Nat.zero_le _).trans_lt (hheld (.peer 0) rfl),
    (Nat.zero_le _).trans_lt (hheld (.keypair 0) rfl)⟩

/-- A queue whose packets are all processed is empty. -/
theorem Stuck.queue_empty (h : Stuck d s) (haccounts : Accounts d s) (hserving : AllServing s)
    {p : ℕ} (hall : s.processed p = (s.queues p).exchanged) :
    (s.queues p).count = 0 ∧ (s.queues p).peeked = none := by
  have hinv := (haccounts.sound p).inv
  have hheld := congrArg List.length (hserving p).held
  have horder := congrArg List.length hinv.order
  have hadmitted := hinv.admitted.length_eq
  have hcount := hinv.count
  rw [h.no_producer, List.flatMap_nil, List.nil_append] at hadmitted
  rw [hall] at hheld
  simp only [List.length_append, List.length_map] at hheld horder
  constructor
  · omega
  · rw [← Option.toList_eq_nil_iff, ← List.length_eq_zero_iff]
    omega

/-- When no more packets come, the calls and the queued work end after a bounded number of
steps. When none of them can go on, the ring and the queues are empty, every packet has been
refused or processed, once, and only the references of others are left. -/
theorem pipeline_drains {bound : ℕ} (hbound : ∀ k, d.owner k < bound) (hcpus : 0 < d.cpus)
    {refs : Ref → ℕ} {as : List Action} (hrun : (machine d).run (init d refs) as = some s) :
    (∀ bs s', (∀ b ∈ bs, b.internal = true) → (machine d).run s bs = some s' →
      bs.length ≤ weight d bound s) ∧
    (Stuck d s → s.threads = [] ∧ s.ring = [] ∧
      (∀ p, (s.queues p).count = 0 ∧ (s.queues p).peeked = none) ∧
      (∀ id < s.next, s.refused.count id + (s.processed (d.peer id)).count id = 1) ∧
      ∀ r, s.refs r = s.others r) := by
  have h := run_inv hrun
  have hwithin : Within d bound s := by
    refine (machine d).run_invariant (fun s a s' hs hstep => ?_) (init_within refs) hrun
    exact step_within hbound hs (stepped_of_step hstep)
  constructor
  · intro bs s' hbs hrun'
    have hle := run_weight hbound hbs h hwithin hrun'
    omega
  · intro hstuck
    obtain ⟨hthreads, hring, hall⟩ := hstuck.idle h.accounts h.serving h.awake h.fed hcpus
    have hplace : ∀ id, s.refused.count id + (s.processed (d.peer id)).count id =
        if id < s.next then 1 else 0 := by
      intro id
      have honce := h.accounts.once id
      rw [hthreads, (h.accounts.sound _).inv.admitted.count_eq, hstuck.no_producer, ← hall] at honce
      simpa using honce
    refine ⟨hthreads, hring, fun p => hstuck.queue_empty h.accounts h.serving (hall p),
      fun id hid => ?_, fun r => ?_⟩
    · rw [hplace id, if_pos hid]
    · have hbalance := h.balanced r
      rw [hthreads, List.flatMap_nil, List.count_nil, Nat.add_zero] at hbalance
      have hreleased : (s.refused ++ s.processed (r.home d)).countP (uses d r) =
          (List.range s.next).countP (uses d r) := by
        refine countP_eq_of_count_eq fun id huses => ?_
        rw [List.count_append, ← home_of_uses huses, hplace, count_range]
      rw [List.countP_append] at hreleased
      unfold released at hbalance
      omega

theorem pipeline_drains_catchingUp :
    ∃ s, (machine (sending (fun _ => 0) (fun _ => 0) 2)).run
        (init (sending (fun _ => 0) (fun _ => 0) 2) fun _ => 1) catchingUp = some s ∧
      s.processed 0 = [0, 1] ∧ Stuck (sending (fun _ => 0) (fun _ => 0) 2) s ∧
      ∀ r, s.refs r = s.others r := by
  have hrun : ∃ s, (machine (sending (fun _ => 0) (fun _ => 0) 2)).run
      (init (sending (fun _ => 0) (fun _ => 0) 2) fun _ => 1) catchingUp = some s ∧
      s.processed 0 = [0, 1] ∧ Stuck (sending (fun _ => 0) (fun _ => 0) 2) s := by
    refine ⟨_, rfl, rfl, fun a ha => ?_⟩
    cases a with
    | thread i c => rfl
    | access p l => cases p <;> cases l <;> rfl
    | run cpu => rcases cpu with _ | _ | cpu <;> rfl
    | runSerial p => cases p <;> rfl
    | poll p => cases p <;> rfl
    | _ => cases ha
  obtain ⟨s, hs, hprocessed, hstuck⟩ := hrun
  have hdrains := pipeline_drains (fun _ => Nat.zero_lt_one) Nat.zero_lt_two hs
  exact ⟨s, hs, hprocessed, hstuck, (hdrains.2 hstuck).2.2.2.2⟩

end Results

end AmneziaWg.Pipeline
