import AmneziaWg.HandshakeQueue
import AmneziaWg.Lib.Threads

/-!
# The length of the handshake queue

`handshake_queue_len` is kept beside the ring. An arrival puts its packet into the ring and
increments it afterwards; a worker takes a packet, processes it and decrements it afterwards;
`wg_stop` empties the ring and sets it to 0, whatever arrivals and workers are about to do.

* **Model**: the calls, at each access to the ring or to the counter, and their interleavings.
* **Accounting**: `drift`, by how much the counter and what is still to be counted exceed the
  ring. Arrivals and workers keep it; a reset of `wg_stop` makes it what they still owe.
* **Safety**: `handshakeQueueLen_exact`.
-/

namespace AmneziaWg.Backlog

open Linux HandshakeQueue

/-! ## Model layer -/

/-- A call in progress, at its next access to the ring or to the counter. -/
inductive Thread where
  /-- `wg_packet_receive`, before it reads the counter. -/
  | receive (skb : Bytes)
  /-- Before it puts the packet into the ring; `tryLock` when the counter was high. -/
  | produce (skb : Bytes) (tryLock : Bool)
  /-- The packet is in the ring and not counted. -/
  | increment
  /-- `wg_packet_handshake_receive_worker`, before it takes a packet. -/
  | consume
  /-- In `wg_receive_handshake_packet`. -/
  | process (skb : Bytes)
  /-- The packet is processed and still counted. -/
  | decrement
  /-- `wg_stop`, in the loop that empties the ring. -/
  | drain
  /-- The ring was empty. -/
  | reset
deriving DecidableEq

structure State where
  ring : List Bytes
  handshakeQueueLen : U32
  threads : List Thread

/-- A new device. -/
def State.init : State := ⟨[], 0, []⟩

/-- What a step depends on beside the state. -/
structure Env where
  rngInitialized : Bool
  /-- The lock of the producers is free. -/
  lockFree : Bool
  /-- The next place of the ring is empty. Places are emptied in batches, so that this may fail
  before the ring is full. -/
  placeFree : Bool

/-- What becomes of a call in its next step, with the ring and the counter. -/
def Thread.next (env : Env) (ring : List Bytes) (len : U32) :
    Thread → Option Thread × List Bytes × U32
  | .receive skb =>
    if env.rngInitialized then
      (some (.produce skb (maxQueuedIncomingHandshakes / 2 < len.toInt)), ring, len)
    else (none, ring, len)
  | .produce skb tryLock =>
    if (tryLock → env.lockFree) ∧ env.placeFree ∧ ring.length < maxQueuedIncomingHandshakes then
      (some .increment, ring ++ [skb], len)
    else (none, ring, len)
  | .increment => (none, ring, len + 1)
  | .consume =>
    match ring with
    | [] => (none, [], len)
    | skb :: ring => (some (.process skb), ring, len)
  | .process _ => (some .decrement, ring, len)
  | .decrement => (some .consume, ring, len - 1)
  | .drain =>
    match ring with
    | [] => (some .reset, [], len)
    | _ :: ring => (some .drain, ring, len)
  | .reset => (none, ring, 0)

inductive Event where
  | arrive (skb : Bytes)
  | work
  | stop
  /-- A call goes on. -/
  | resume (i : ℕ) (env : Env)

def machine : Machine State Event where
  step s
    | .arrive skb => some { s with threads := s.threads ++ [.receive skb] }
    | .work => some { s with threads := s.threads ++ [.consume] }
    | .stop => some { s with threads := s.threads ++ [.drain] }
    | .resume i env =>
      s.threads[i]?.map fun t =>
        let r := t.next env s.ring s.handshakeQueueLen
        ⟨r.2.1, r.2.2, Threads.resume s.threads i r.1⟩

variable {s s' : State} {env : Env}

/-- What a call does when it goes on. -/
theorem resume_cases {i : ℕ} (h : machine.step s (.resume i env) = some s') :
    ∃ t o ring len, s.threads[i]? = some t ∧
      t.next env s.ring s.handshakeQueueLen = (o, ring, len) ∧
      s' = ⟨ring, len, Threads.resume s.threads i o⟩ := by
  rcases Option.map_eq_some_iff.mp h with ⟨t, ht, rfl⟩
  exact ⟨t, _, _, _, ht, rfl, rfl⟩

/-! ## Accounting -/

/-- The packet is in the ring and not counted yet. -/
def Thread.uncounted : Thread → Bool
  | .increment => true
  | _ => false

/-- The packet has left the ring and is still counted. -/
def Thread.inHand : Thread → Bool
  | .process _ => true
  | .decrement => true
  | _ => false

def Thread.stopping : Thread → Bool
  | .drain => true
  | .reset => true
  | _ => false

def State.uncounted (s : State) : ℕ := s.threads.countP Thread.uncounted

def State.inHand (s : State) : ℕ := s.threads.countP Thread.inHand

def State.stopping (s : State) : ℕ := s.threads.countP Thread.stopping

/-- By how much the counter will exceed the ring when all calls have returned, in 32 bits. -/
def State.drift (s : State) : ℤ :=
  (s.handshakeQueueLen.toNat + s.uncounted - s.inHand - s.ring.length) % 2 ^ 32

/-- The event is the `atomic_set` of `wg_stop`. -/
def IsReset (s : State) : Event → Prop
  | .resume i _ => s.threads[i]? = some .reset
  | _ => False

instance (s : State) : (l : Event) → Decidable (IsReset s l)
  | .arrive _ => .isFalse id
  | .work => .isFalse id
  | .stop => .isFalse id
  | .resume i _ => inferInstanceAs (Decidable (s.threads[i]? = some .reset))

/-- The balance of a step: what a call gives to the counter, to the pool and to the ring. -/
structure Balanced (t : Thread) (o : Option Thread) (ring ring' : List Bytes) (len len' : U32) :
    Prop where
  stopping : o.toList.countP Thread.stopping = 0
  balance :
    (len'.toNat + o.toList.countP Thread.uncounted + [t].countP Thread.inHand + ring.length)
        % 2 ^ 32 =
      (len.toNat + [t].countP Thread.uncounted + o.toList.countP Thread.inHand + ring'.length)
        % 2 ^ 32

variable {t : Thread}

variable {ring ring' : List Bytes} {len len' : U32} {o : Option Thread}

/-- A step of a call other than `wg_stop`. -/
theorem next_balanced (h : t.next env ring len = (o, ring', len')) (ht : t.stopping = false) :
    Balanced t o ring ring' len len' := by
  cases t with
  | receive skb =>
    simp only [Thread.next] at h
    split at h
    · cases h
      exact ⟨rfl, rfl⟩
    · cases h
      exact ⟨rfl, rfl⟩
  | produce skb tryLock =>
    simp only [Thread.next] at h
    split at h
    · -- the packet is in the ring before it is counted
      cases h
      refine ⟨rfl, ?_⟩
      rw [List.length_append, List.length_singleton]
      show (len.toNat + 1 + 0 + ring.length) % _ =
        (len.toNat + 0 + 0 + (ring.length + 1)) % _
      omega
    · cases h
      exact ⟨rfl, rfl⟩
  | increment =>
    cases h
    refine ⟨rfl, ?_⟩
    rw [BitVec.toNat_add]
    show ((len.toNat + 1) % 2 ^ 32 + 0 + 0 + ring.length) % _ =
      (len.toNat + 1 + 0 + ring.length) % _
    omega
  | consume =>
    cases ring with
    | nil =>
      cases h
      exact ⟨rfl, rfl⟩
    | cons skb rest =>
      cases h
      refine ⟨rfl, ?_⟩
      show (len.toNat + 0 + 0 + (ring'.length + 1)) % _ =
        (len.toNat + 0 + 1 + ring'.length) % _
      omega
  | process skb =>
    cases h
    exact ⟨rfl, rfl⟩
  | decrement =>
    -- the packet left the ring when it was taken
    cases h
    refine ⟨rfl, ?_⟩
    rw [BitVec.toNat_sub]
    show ((2 ^ 32 - 1 + len.toNat) % 2 ^ 32 + 0 + 1 + ring.length) % _ =
      (len.toNat + 0 + 0 + ring.length) % _
    omega
  | drain => cases ht
  | reset => cases ht

/-- `wg_stop` stays in the pool until its reset. -/
theorem next_stopping (h : t.next env ring len = (o, ring', len')) (ht : t.stopping = true)
    (hreset : t ≠ .reset) : o.toList.countP Thread.stopping = 1 := by
  cases t with
  | drain =>
    cases ring with
    | nil =>
      cases h
      rfl
    | cons skb ring =>
      cases h
      rfl
  | reset => exact absurd rfl hreset
  | receive skb => cases ht
  | produce skb tryLock => cases ht
  | increment => cases ht
  | consume => cases ht
  | process skb => cases ht
  | decrement => cases ht

/-- A call that begins with nothing to count. -/
theorem drift_begin (huncounted : t.uncounted = false) (hinHand : t.inHand = false) :
    State.drift { s with threads := s.threads ++ [t] } = s.drift := by
  simp [State.drift, State.uncounted, State.inHand, List.countP_append, huncounted, hinHand]

theorem stopping_begin (s : State) (t : Thread) :
    State.stopping { s with threads := s.threads ++ [t] } =
      s.stopping + [t].countP Thread.stopping := List.countP_append

/-- A step after which no `wg_stop` is in progress, other than its reset, keeps the drift. -/
theorem step_drift {l : Event} (h : machine.step s l = some s') (hl : ¬ IsReset s l)
    (hquiet : s'.stopping = 0) : s.stopping = 0 ∧ s'.drift = s.drift := by
  cases l with
  | arrive skb =>
    cases h
    rw [stopping_begin] at hquiet
    exact ⟨by omega, drift_begin rfl rfl⟩
  | work =>
    cases h
    rw [stopping_begin] at hquiet
    exact ⟨by omega, drift_begin rfl rfl⟩
  | stop =>
    cases h
    rw [stopping_begin] at hquiet
    cases hquiet
  | resume i env =>
    rcases resume_cases h with ⟨t, o, ring', len', ht, hnext, rfl⟩
    have hpool : (Threads.resume s.threads i o).countP Thread.stopping = 0 := hquiet
    cases hstop : t.stopping with
    | true =>
      -- a `wg_stop` that has not reset the counter would still be in progress
      have hkeeps : t ≠ .reset := by
        intro hreset
        exact hl (ht.trans (congrArg some hreset))
      have hone := next_stopping hnext hstop hkeeps
      have hsplit := (Threads.resume_perm ht o).countP_eq Thread.stopping
      rw [List.countP_append] at hsplit
      omega
    | false =>
      have hbalanced := next_balanced hnext hstop
      have hbalance := hbalanced.balance
      have hnone := hbalanced.stopping
      have hself : [t].countP Thread.stopping = 0 := by simp [hstop]
      have hstopping := Threads.countP_resume Thread.stopping ht o
      have huncounted := Threads.countP_resume Thread.uncounted ht o
      have hinHand := Threads.countP_resume Thread.inHand ht o
      constructor
      · rw [State.stopping]
        omega
      · simp only [State.drift, State.uncounted, State.inHand]
        omega

/-- The reset of `wg_stop`: the counter lacks the packets that are in the ring, and will miss what
arrivals and workers still do. -/
theorem step_reset {l : Event} (h : machine.step s l = some s') (hl : IsReset s l) :
    s'.drift = (s.uncounted - s.inHand - s.ring.length) % 2 ^ 32 := by
  cases l with
  | arrive skb => cases hl
  | work => cases hl
  | stop => cases hl
  | resume i env =>
    rcases resume_cases h with ⟨t, o, ring', len', ht, hnext, rfl⟩
    have hreset : t = .reset := Option.some.inj (ht.symm.trans hl)
    subst hreset
    cases hnext
    have huncounted := Threads.countP_resume Thread.uncounted ht none
    have hinHand := Threads.countP_resume Thread.inHand ht none
    simp only [State.drift, State.uncounted, State.inHand]
    have hself : [Thread.reset].countP Thread.uncounted = 0 := rfl
    have hself' : [Thread.reset].countP Thread.inHand = 0 := rfl
    have hzero : (0 : U32).toNat = 0 := rfl
    rw [Option.toList_none, List.countP_nil] at huncounted hinHand
    omega

theorem next_ring (h : t.next env ring len = (o, ring', len'))
    (hring : ring.length ≤ maxQueuedIncomingHandshakes) :
    ring'.length ≤ maxQueuedIncomingHandshakes := by
  cases t with
  | receive skb =>
    simp only [Thread.next] at h
    split at h
    · cases h
      exact hring
    · cases h
      exact hring
  | produce skb tryLock =>
    simp only [Thread.next] at h
    split at h
    · next hroom =>
      cases h
      rw [List.length_append]
      exact hroom.2.2
    · cases h
      exact hring
  | consume =>
    cases ring with
    | nil =>
      cases h
      exact hring
    | cons skb rest =>
      cases h
      exact Nat.le_of_succ_le hring
  | drain =>
    cases ring with
    | nil =>
      cases h
      exact hring
    | cons skb rest =>
      cases h
      exact Nat.le_of_succ_le hring
  | increment =>
    cases h
    exact hring
  | process skb =>
    cases h
    exact hring
  | decrement =>
    cases h
    exact hring
  | reset =>
    cases h
    exact hring

variable {ls : List Event}

/-- The ring is never longer than it has places. -/
theorem run_ring (hs : s.ring.length ≤ maxQueuedIncomingHandshakes)
    (h : machine.run s ls = some s') : s'.ring.length ≤ maxQueuedIncomingHandshakes := by
  refine @Machine.run_invariant _ _ machine
    (fun s => s.ring.length ≤ maxQueuedIncomingHandshakes) ?_ _ _ _ hs h
  intro s l s' hs hstep
  cases l with
  | arrive skb =>
    cases hstep
    exact hs
  | work =>
    cases hstep
    exact hs
  | stop =>
    cases hstep
    exact hs
  | resume i env =>
    rcases resume_cases hstep with ⟨t, o, ring', len', ht, hnext, rfl⟩
    exact next_ring hnext hs

/-! ## Quiet states -/

/-- A run without a reset, to a state without a `wg_stop`, keeps the drift. -/
theorem run_drift (hok : machine.AllSteps (fun s l => ¬ IsReset s l) s ls)
    (hrun : machine.run s ls = some s') (hquiet : s'.stopping = 0) :
    s.stopping = 0 ∧ s'.drift = s.drift := by
  induction ls generalizing s with
  | nil =>
    cases hrun
    exact ⟨hquiet, rfl⟩
  | cons l ls ih =>
    rcases machine.run_cons_some hrun with ⟨t, hstep, hrest⟩
    rcases ih (hok.2 t hstep) hrest with ⟨hstop, hdrift⟩
    rcases step_drift hstep hok.1 hstop with ⟨hstop', hdrift'⟩
    exact ⟨hstop', hdrift.trans hdrift'⟩

/-- With no call in progress, the drift is what the counter is wrong by. -/
theorem drift_eq_zero_iff (hring : s.ring.length ≤ maxQueuedIncomingHandshakes)
    (hquiet : s.threads = []) : s.drift = 0 ↔ s.handshakeQueueLen.toInt = s.ring.length := by
  have hlt : maxQueuedIncomingHandshakes = 4096 := rfl
  have hnat := s.handshakeQueueLen.isLt
  simp only [State.drift, State.uncounted, State.inHand, hquiet, List.countP_nil]
  rw [BitVec.toInt_eq_toNat_cond]
  split <;> omega

/-- Every packet of the ring and of the workers is one that an arrival is about to count. -/
def State.Settled (s : State) : Prop := s.uncounted = s.inHand + s.ring.length

instance (s : State) : Decidable s.Settled :=
  inferInstanceAs (Decidable (s.uncounted = s.inHand + s.ring.length))

/-- While no `wg_stop` is in progress, nothing is counted wrongly, if every reset was settled. -/
theorem drift_of_settled (hrun : machine.run State.init ls = some s)
    (hok : machine.AllSteps (fun s l => IsReset s l → s.Settled) State.init ls)
    (hstop : s.stopping = 0) : s.drift = 0 := by
  refine @Machine.runs_invariant _ _ machine _ (fun s => s.stopping = 0 → s.drift = 0) ?_ _ _ _
    (fun _ => rfl) hok hrun hstop
  intro s l s' hinv hsettled hstep hquiet
  by_cases hl : IsReset s l
  · -- what arrivals will add is what the counter lacks
    have hbalance : s.uncounted = s.inHand + s.ring.length := hsettled hl
    rw [step_reset hstep hl]
    omega
  · rcases step_drift hstep hl hquiet with ⟨hstop, hdrift⟩
    exact hdrift.trans (hinv hstop)

/-- When no call is in progress the counter is the length of the ring, if `wg_stop` has reset it
only when arrivals were about to count just the packets of the ring and of the workers. The last
reset decides: after any other one the counter is wrong. -/
theorem handshakeQueueLen_exact (ls : List Event) (s : State)
    (hrun : machine.run State.init ls = some s) :
    (machine.AllSteps (fun s l => IsReset s l → s.Settled) State.init ls → s.threads = [] →
      s.handshakeQueueLen.toInt = s.ring.length) ∧
    ∀ l s₁ ls' s', IsReset s l → machine.step s l = some s₁ → machine.run s₁ ls' = some s' →
      machine.AllSteps (fun s l => ¬ IsReset s l) s₁ ls' → s'.threads = [] →
      (s'.handshakeQueueLen.toInt = s'.ring.length ↔
        s.uncounted % 2 ^ 32 = (s.inHand + s.ring.length) % 2 ^ 32) := by
  have hring := run_ring (Nat.zero_le _) hrun
  constructor
  · intro hok hquiet
    have hstop : s.stopping = 0 := by rw [State.stopping, hquiet, List.countP_nil]
    exact (drift_eq_zero_iff hring hquiet).mp (drift_of_settled hrun hok hstop)
  · intro l s₁ ls' s' hreset hstep hrest hok hquiet
    have hring' : s'.ring.length ≤ maxQueuedIncomingHandshakes := by
      have hall : machine.run s (l :: ls') = some s' := by
        rw [machine.run_cons, hstep]
        exact hrest
      exact run_ring hring hall
    have hstop : s'.stopping = 0 := by rw [State.stopping, hquiet, List.countP_nil]
    rw [← drift_eq_zero_iff hring' hquiet, (run_drift hok hrest hstop).2, step_reset hstep hreset]
    omega

/-- Nothing is in the way. -/
def free : Env := ⟨true, true, true⟩

/-- A packet is counted, `wg_stop` discards it, and another one is counted. -/
def stopBetween : List Event :=
  [.arrive [1], .resume 0 free, .resume 0 free, .resume 0 free, .stop, .resume 0 free,
    .resume 0 free, .resume 0 free, .arrive [2], .resume 0 free, .resume 0 free, .resume 0 free]

theorem handshakeQueueLen_exact_stopBetween :
    machine.run State.init stopBetween = some ⟨[[2]], 1, []⟩ ∧
      (1 : U32).toInt = [[(2 : U8)]].length :=
  ⟨rfl, (handshakeQueueLen_exact stopBetween ⟨[[2]], 1, []⟩ rfl).1
    (@of_decide_eq_true _ (machine.decidableAllSteps (fun _ _ => inferInstance) _ _) rfl) rfl⟩

/-- `wg_stop` resets the counter while a worker holds a packet, and the worker decrements it to -1;
`wg_stop` discards a packet that its arrival counts afterwards. In both runs the ring is empty. -/
theorem handshakeQueueLen_drifts :
    (∃ s, machine.run State.init
        [.arrive [1], .resume 0 free, .resume 0 free, .resume 0 free, .work, .resume 0 free, .stop,
          .resume 1 free, .resume 1 free, .resume 0 free, .resume 0 free, .resume 0 free] = some s ∧
      s.threads = [] ∧ s.ring = [] ∧ s.handshakeQueueLen.toInt = -1) ∧
    ∃ s, machine.run State.init
        [.arrive [1], .resume 0 free, .resume 0 free, .stop, .resume 1 free, .resume 1 free,
          .resume 1 free, .resume 0 free] = some s ∧
      s.threads = [] ∧ s.ring = [] ∧ s.handshakeQueueLen.toInt = 1 :=
  ⟨⟨_, rfl, rfl, rfl, rfl⟩, _, rfl, rfl, rfl, rfl⟩

end AmneziaWg.Backlog
