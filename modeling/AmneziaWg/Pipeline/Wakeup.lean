import AmneziaWg.Pipeline.Accounting

/-!
# No packet is forgotten

The serial work of a peer ends when the first packet of its queue is not done yet, or when the
queue looks empty. Whoever is to change that queues the work again: a packet that is not done
is in somebody's hands, and `NULL` is returned only when the queue was empty or a producer was
about to link its packet, which comes to the ring afterwards.

* **Promises**: `Promised`, somebody is still to queue the serial work of a peer.
* **Invariants**: `Awake` for the serial work of the peers, `Fed` for the workers of the CPUs.
* **Progress**: `Stuck.idle`, when nothing can go on, nothing is left to do.
-/

namespace AmneziaWg.Pipeline

open Threads PrevQueue

/-! ## Promises -/

/-- The peers whose serial work is to be queued for what a call has in hand. -/
def Thread.promises {σ : Type} (d : Direction σ) : Thread → List ℕ
  | .notify _ p => [p]
  | t => t.token.map d.peer

variable {i : ℕ}

section Promises

variable {σ : Type} {d : Direction σ} {s s' u : State σ} {t : Thread} {o : Option Thread} {p : ℕ}

def Promised (d : Direction σ) (s : State σ) (p : ℕ) : Prop :=
  (∃ t ∈ s.threads, p ∈ t.promises d) ∨ ∃ id ∈ s.ring, d.peer id = p

/-- All packets of the peer have been processed. -/
def Settled (s : State σ) (p : ℕ) : Prop :=
  (s.queues p).exchanged.length = (s.processed p).length

theorem promises_of_token {id : ℕ} (hid : id ∈ t.token) : d.peer id ∈ t.promises d := by
  cases t with
  | notify cpu p => cases hid
  | _ => exact List.mem_map_of_mem hid

/-- A packet that awaits the cipher is a promise. -/
theorem Accounts.promised (h : Accounts d s) {id : ℕ} (hcb : s.cb id = .uncrypted)
    (hin : id ∈ (s.queues p).admitted) : Promised d s p := by
  have hpeer := h.own p id hin
  have hcount := h.tokens id
  rw [show awaiting d s id = 1 from if_pos ⟨hcb, hpeer.symm ▸ hin⟩] at hcount
  by_cases hring : id ∈ s.ring
  · exact .inr ⟨id, hring, hpeer⟩
  · rw [List.count_eq_zero_of_not_mem hring] at hcount
    have hmem : id ∈ s.threads.flatMap Thread.token :=
      List.count_pos_iff.mp (by omega)
    obtain ⟨t, ht, hid⟩ := List.mem_flatMap.mp hmem
    exact .inl ⟨t, ht, hpeer ▸ promises_of_token hid⟩

/-- So is a producer on its way. -/
theorem Accounts.promised_of_producer (h : Accounts d s) {pr : Producer}
    (hpr : pr ∈ (s.queues p).producers) : Promised d s p := by
  obtain ⟨hentering, hin⟩ := h.producers p pr hpr
  refine .inl ⟨_, hentering, ?_⟩
  rw [← h.own p _ hin]
  exact List.mem_singleton_self _

/-- A call keeps its promises until it queues the work. -/
theorem Advanced.promised (ht : s.threads[i]? = some t) (hadvanced : Advanced d s t u o)
    (h : Promised d s p) :
    Promised d { u with threads := resume s.threads i o } p ∨ ∃ cpu, t = .notify cpu p := by
  -- what the call becomes, or the ring, has the promise
  have hnew : ∀ w, o = some w → p ∈ w.promises d →
      Promised d { u with threads := resume s.threads i o } p := fun w ho hp =>
    .inl ⟨w, (resume_perm ht o).mem_iff.mpr (by simp [ho]), hp⟩
  rcases h with ⟨t', ht', hp⟩ | ⟨id, hid, hp⟩
  · by_cases heq : t' = t
    · subst heq
      cases hadvanced with
      | entered id => exact .inl (hnew _ rfl hp)
      | produced id =>
        refine .inl (.inr ⟨id, List.mem_append_right _ (List.mem_singleton_self id), ?_⟩)
        exact (List.mem_singleton.mp hp).symm
      | overflow id => exact .inl (hnew _ rfl hp)
      | crypt cpu id ok => exact .inl (hnew _ rfl hp)
      | set cpu id ok => exact .inl (hnew _ rfl hp)
      | notify cpu p' =>
        rw [List.mem_singleton.mp hp]
        exact .inr ⟨cpu, rfl⟩
      | _ => cases hp
    · exact .inl (.inl ⟨t', mem_resume_of_ne ht o ht' heq, hp⟩)
  · cases hadvanced with
    | produced x => exact .inl (.inr ⟨id, List.mem_append_left _ hid, hp⟩)
    | take cpu x ring hring =>
      rw [hring] at hid
      rcases List.mem_cons.mp hid with rfl | hid
      · exact .inl (hnew _ rfl (hp ▸ List.mem_singleton_self _))
      · exact .inl (.inr ⟨id, hid, hp⟩)
    | _ => exact .inl (.inr ⟨id, hid, hp⟩)

/-- A quiet moment of a dequeue: everything is processed, or a producer is on its way. -/
theorem Accounts.of_quiet (h : Accounts d s) (hserving : AllServing s)
    (hbusy : (s.queues p).consumer ≠ .idle) (hquiet : quiet (s.queues p) = true) :
    Settled s p ∨ Promised d s p := by
  simp only [quiet, Bool.or_eq_true, decide_eq_true_eq] at hquiet
  rcases hquiet with hlength | hlinking
  · left
    obtain ⟨⟨n, hrun⟩, -, hpeeked⟩ := (hserving p).busy hbusy
    have hheld := congrArg List.length (hserving p).held
    rw [hpeeked, hrun] at hheld
    simp only [inHand, Option.toList_none, List.map_nil, List.append_nil, List.length_map] at hheld
    exact hlength.trans hheld
  · right
    obtain ⟨pr, hpr, -⟩ := List.any_eq_true.mp hlinking
    exact h.promised_of_producer hpr

end Promises

/-! ## Serial work -/

/-- The serial work has ended, or its loop is about to end. -/
def Resting (q : PrevQueue.State) (run : Option Poll) : Prop :=
  run = none ∨ run = some .leave ∨
    (∃ n, run = some (.wait n)) ∧ q.peeked = none ∧ q.excused = true

variable {t : Thread} {o : Option Thread}

section Awake

variable {σ : Type} {d : Direction σ} {s s' u : State σ} {p : ℕ}

def AwakeAt (d : Direction σ) (s : State σ) (p : ℕ) : Prop :=
  Resting (s.queues p) (s.serial p).run →
    (s.serial p).pending = true ∨ Settled s p ∨ Promised d s p

/-- Serial work that has packets to come is queued or will be. -/
def Awake (d : Direction σ) (s : State σ) : Prop := ∀ p, AwakeAt d s p

theorem init_awake (refs : Ref → ℕ) : Awake d (init d refs) := fun _ _ => .inr (.inl rfl)

theorem AwakeAt.kept (h : AwakeAt d s p) (hrest : Resting (s'.queues p) (s'.serial p).run →
      Resting (s.queues p) (s.serial p).run ∨ Settled s' p ∨ Promised d s' p)
    (hpending : (s.serial p).pending = true → (s'.serial p).pending = true)
    (hsettled : Settled s p → Settled s' p ∨ Promised d s' p)
    (hpromised : Promised d s p → Promised d s' p ∨ (s'.serial p).pending = true) :
    AwakeAt d s' p := by
  intro hresting
  rcases hrest hresting with hold | hdone
  · rcases h hold with hp | hs | hp
    · exact .inl (hpending hp)
    · exact .inr (hsettled hs)
    · exact (hpromised hp).elim (fun hp => .inr (.inr hp)) .inl
  · exact .inr hdone

/-- The queue has changed under a dequeue. -/
theorem resting_of_excused {q q' : PrevQueue.State} {run : Option Poll}
    (hpeeked : q'.peeked = none → q.peeked = none)
    (hexcused : q'.excused = true → q.excused = true ∨ (q'.consumer ≠ .idle ∧ quiet q' = true))
    (hresting : Resting q' run) :
    Resting q run ∨ (q'.consumer ≠ .idle ∧ quiet q' = true) := by
  rcases hresting with hnone | hleave | ⟨hwait, hp, hex⟩
  · exact .inl (.inl hnone)
  · exact .inl (.inr (.inl hleave))
  · exact (hexcused hex).imp_left fun hold => .inr (.inr ⟨hwait, hpeeked hp, hold⟩)

theorem thread_awake (h : Awake d s) (ht : s.threads[i]? = some t) (hadvanced : Advanced d s t u o)
    (haccounts : Accounts d { u with threads := resume s.threads i o })
    (hserving : AllServing { u with threads := resume s.threads i o }) :
    Awake d { u with threads := resume s.threads i o } := by
  intro p
  have hpromised : Promised d s p → Promised d { u with threads := resume s.threads i o } p ∨
      (u.serial p).pending = true := by
    intro hp
    rcases hadvanced.promised ht hp with hp | ⟨cpu, rfl⟩
    · exact .inl hp
    · cases hadvanced with
      | notify =>
        refine .inr ?_
        dsimp only
        rw [Function.update_self]
  cases hadvanced with
  | count id q hroom hstep =>
    obtain ⟨-, -, hexchanged, hsame⟩ := enqueue_spec hroom hstep
    by_cases hp : p = d.peer id
    · subst hp
      refine (h _).kept (fun hresting => ?_) (fun hp => hp) (fun hs => .inl ?_) hpromised
      · dsimp only at hresting
        rw [Function.update_self] at hresting
        have hpeeked : q.peeked = none → (s.queues (d.peer id)).peeked = none :=
          hsame.peeked.symm.trans
        refine (resting_of_excused hpeeked hsame.excused hresting).imp_right fun hquiet => ?_
        refine haccounts.of_quiet hserving ?_ ?_
        · dsimp only
          rw [Function.update_self]
          exact hquiet.1
        · dsimp only
          rw [Function.update_self]
          exact hquiet.2
      · unfold Settled at hs ⊢
        dsimp only
        rw [Function.update_self, hexchanged]
        exact hs
    · refine (h p).kept (fun hresting => .inl ?_) (fun hp => hp) (fun hs => .inl ?_) hpromised
      · dsimp only at hresting
        rwa [Function.update_of_ne hp] at hresting
      · unfold Settled at hs ⊢
        dsimp only
        rw [Function.update_of_ne hp]
        exact hs
  | notify cpu p' =>
    by_cases hp : p = p'
    · subst hp
      intro _
      left
      dsimp only
      rw [Function.update_self]
    · refine (h p).kept (fun hresting => .inl ?_) (fun hpending => ?_) .inl hpromised
      · dsimp only at hresting
        rwa [Function.update_of_ne hp] at hresting
      · dsimp only
        rwa [Function.update_of_ne hp]
  | _ => exact (h p).kept .inl (fun hp => hp) .inl hpromised

/-- A queue is accessed by the calls in progress. -/
theorem access_awake {l : Access} {q : PrevQueue.State} (h : Awake d s)
    (hsound : Sound (s.queues p)) (hserving₀ : AllServing s)
    (hstep : PrevQueue.machine.step (s.queues p) l.action = some q)
    (haccounts : Accounts d { s with queues := Function.update s.queues p q })
    (hserving : AllServing { s with queues := Function.update s.queues p q }) :
    Awake d { s with queues := Function.update s.queues p q } := by
  intro p'
  by_cases hp : p' = p
  · subst hp
    -- a quiet moment excuses a dequeue
    have hrest : (q.peeked = none → (s.queues p').peeked = none) →
        (q.excused = true → (s.queues p').excused = true ∨
          (q.consumer ≠ .idle ∧ quiet q = true)) →
        Resting q (s.serial p').run → Resting (s.queues p') (s.serial p').run ∨
          Settled { s with queues := Function.update s.queues p' q } p' ∨
          Promised d { s with queues := Function.update s.queues p' q } p' := by
      intro hpeeked hexcused hresting
      refine (resting_of_excused hpeeked hexcused hresting).imp_right fun hquiet => ?_
      refine haccounts.of_quiet hserving ?_ ?_
      · dsimp only
        rw [Function.update_self]
        exact hquiet.1
      · dsimp only
        rw [Function.update_self]
        exact hquiet.2
    have hsettled : q.exchanged = (s.queues p').exchanged → Settled s p' →
        Settled { s with queues := Function.update s.queues p' q } p' := by
      intro hexchanged hs
      unfold Settled at hs ⊢
      dsimp only
      rw [Function.update_self, hexchanged]
      exact hs
    cases l with
    | produce i =>
      obtain ⟨pr, hpr, -, -, hexchanged, hsame⟩ := produce_spec hstep
      refine (h p').kept (fun hresting => ?_) (fun hp => hp) (fun hs => ?_) .inl
      · dsimp only at hresting
        rw [Function.update_self] at hresting
        exact hrest hsame.peeked.symm.trans hsame.excused hresting
      · rcases hexchanged with hexchanged | ⟨-, pr', hpr', -⟩
        · exact .inl (hsettled hexchanged hs)
        · refine .inr (haccounts.promised_of_producer (show pr' ∈ _ from ?_))
          dsimp only
          rw [Function.update_self]
          exact hpr'
    | consume =>
      obtain ⟨hbusy, -, -, hexchanged, hcontinued⟩ := consume_spec hsound hstep
      refine (h p').kept (fun hresting => ?_) (fun hp => hp)
        (fun hs => .inl (hsettled hexchanged hs)) .inl
      dsimp only at hresting
      rw [Function.update_self] at hresting
      refine hrest (fun _ => ((hserving₀ p').busy hbusy).2.2) ?_ hresting
      cases hcontinued with
      | goesOn _ _ _ _ hexcused => exact hexcused
      | returns node hidle hanswers hexcused hpeeked => exact fun hex => .inl (hexcused ▸ hex)
  · refine (h p').kept (fun hresting => .inl ?_) (fun hp => hp) (fun hs => .inl ?_) .inl
    · dsimp only at hresting
      rwa [Function.update_of_ne hp] at hresting
    · unfold Settled at hs ⊢
      dsimp only
      rw [Function.update_of_ne hp]
      exact hs

theorem Polled.threads {pc : Poll} (hpolled : Polled d s p pc s') :
    s'.threads = s.threads ∧ s'.ring = s.ring := by
  cases hpolled with
  | finish n id ok w hw => cases ok <;> exact ⟨rfl, rfl⟩
  | _ => exact ⟨rfl, rfl⟩

theorem Polled.kicked {pc : Poll} (hpolled : Polled d s p pc s') : s'.kicked = s.kicked := by
  cases hpolled with
  | finish n id ok w hw => cases ok <;> rfl
  | _ => rfl

theorem Promised.congr (hthreads : s'.threads = s.threads) (hring : s'.ring = s.ring)
    (h : Promised d s p) : Promised d s' p := by
  unfold Promised
  rw [hthreads, hring]
  exact h

/-- The serial work of a peer, seen from that peer. -/
theorem poll_awake_self {pc : Poll} (h : Awake d s) (hserving : AllServing s)
    (haccounts : Accounts d s) (hrun : (s.serial p).run = some pc)
    (hpolled : Polled d s p pc s') (haccounts' : Accounts d s') (hserving' : AllServing s') :
    AwakeAt d s' p := by
  have hpromised : Promised d s p → Promised d s' p :=
    Promised.congr hpolled.threads.1 hpolled.threads.2
  cases hpolled with
  | peek n q hstep =>
    obtain ⟨-, -, -, hexchanged, -, -, hcase⟩ := peek_spec hstep
    intro hresting
    simp only [State.goto, Function.update_self] at hresting
    obtain ⟨-, hnone, hex⟩ := (hresting.resolve_left (by simp)).resolve_left (by simp)
    rcases hcase with ⟨rfl, hsome⟩ | ⟨-, hbusy, -, hquiet⟩
    · exact absurd hnone hsome
    · right
      refine haccounts'.of_quiet hserving' ?_ ?_
      · simp only [State.goto, Function.update_self]
        exact hbusy
      · simp only [State.goto, Function.update_self]
        exact hquiet hex
  | none n hidle hpeeked =>
    -- it returned `NULL` after a quiet moment
    have hexcused := (hserving p).null n hrun hidle hpeeked
    refine (h p).kept (fun _ => .inl ?_) (fun hp => ?_) .inl fun hp => .inl (hpromised hp)
    · rw [hrun]
      exact .inr (.inr ⟨⟨n, rfl⟩, hpeeked, hexcused⟩)
    · simpa [State.goto] using hp
  | found n id hidle hpeeked =>
    intro hresting
    simp only [State.goto, Function.update_self] at hresting
    rcases hresting with hfalse | hfalse | ⟨⟨_, hfalse⟩, -⟩ <;> cases hfalse
  | uncrypted n id hcb =>
    -- the packet is still to come out of the cipher
    intro _
    refine .inr (.inr (hpromised (haccounts.promised hcb ?_)))
    refine mem_admitted_of_returned (haccounts.sound p) ?_
    have hpeeked := (hserving p).reading n id hrun
    simp [(hserving p).held, hpeeked]
  | ready n id ok hcb =>
    intro hresting
    simp only [State.goto, Function.update_self] at hresting
    rcases hresting with hfalse | hfalse | ⟨⟨_, hfalse⟩, -⟩ <;> cases hfalse
  | drop n id ok q hstep =>
    intro hresting
    simp only [State.goto, Function.update_self] at hresting
    rcases hresting with hfalse | hfalse | ⟨⟨_, hfalse⟩, -⟩ <;> cases hfalse
  | finish n id ok w hw =>
    intro hresting
    dsimp only at hresting ⊢
    rw [Function.update_self] at hresting ⊢
    rcases hw with rfl | rfl
    · rcases hresting with hfalse | hfalse | ⟨⟨_, hfalse⟩, -⟩ <;> cases hfalse
    · exact .inl rfl
  | leave =>
    refine (h p).kept (fun _ => .inl ?_) (fun hp => ?_) .inl fun hp => .inl (hpromised hp)
    · rw [hrun]
      exact .inr (.inl rfl)
    · simpa [State.goto] using hp

theorem Promised.spawn {w : Thread} (hthreads : s'.threads = s.threads ++ [w])
    (hring : s'.ring = s.ring) (h : Promised d s p) : Promised d s' p := by
  unfold Promised
  rw [hthreads, hring]
  refine h.imp_left ?_
  rintro ⟨t, ht, hp⟩
  exact ⟨t, List.mem_append_left _ ht, hp⟩

theorem step_awake {a : Action} (haccounts : Accounts d s) (hserving : AllServing s) (h : Awake d s)
    (hstep : Stepped d s a s') : Awake d s' := by
  have haccounts' := step_accounts haccounts hstep
  have hserving' := step_serving haccounts hserving hstep
  cases hstep with
  | thread i c t o u ht hadvanced => exact thread_awake h ht hadvanced haccounts' hserving'
  | access p l q hstep =>
    exact access_awake h (haccounts.sound p) hserving hstep haccounts' hserving'
  | submit =>
    intro p
    exact (h p).kept .inl (fun hp => hp) .inl fun hp => .inl (hp.spawn rfl rfl)
  | run cpu hkicked =>
    intro p
    exact (h p).kept .inl (fun hp => hp) .inl fun hp => .inl (hp.spawn rfl rfl)
  | runSerial p hpending hrun =>
    intro p'
    by_cases hp : p' = p
    · subst hp
      intro hresting
      dsimp only at hresting
      rw [Function.update_self] at hresting
      rcases hresting with hfalse | hfalse | ⟨⟨_, hfalse⟩, -⟩ <;> cases hfalse
    · refine (h p').kept (fun hresting => .inl ?_) (fun hpending => ?_) .inl .inl
      · dsimp only at hresting
        rwa [Function.update_of_ne hp] at hresting
      · dsimp only
        rwa [Function.update_of_ne hp]
  | poll p pc u hrun hpolled =>
    intro p'
    by_cases hp : p' = p
    · subst hp
      exact poll_awake_self h hserving haccounts hrun hpolled haccounts' hserving'
    · obtain ⟨hqueue, hserial, hprocessed⟩ := hpolled.others hp
      obtain ⟨hthreads, hring⟩ := hpolled.threads
      refine (h p').kept (fun hresting => .inl ?_) (fun hpending => ?_) (fun hs => .inl ?_)
        fun hp => .inl (hp.congr hthreads hring)
      · rwa [hqueue, hserial] at hresting
      · rwa [hserial]
      · unfold Settled at hs ⊢
        rwa [hqueue, hprocessed]
  | die | get | put => exact fun p => (h p).kept .inl (fun hp => hp) .inl .inl

end Awake

/-! ## Workers -/

section Fed

variable {σ : Type} {d : Direction σ} {s s' u : State σ}

/-- A call that is about to queue the work of a CPU, or the work itself. -/
def Thread.Works (t : Thread) : Prop := t = .kick ∨ t.onCpu.isSome = true

/-- For packets in the ring there is a worker, or there will be. -/
def Fed (d : Direction σ) (s : State σ) : Prop :=
  s.ring ≠ [] → (∃ t ∈ s.threads, t.Works) ∨ ∃ cpu < d.cpus, s.kicked cpu = true

theorem init_fed (refs : Ref → ℕ) : Fed d (init d refs) := fun h => absurd rfl h

/-- A worker works until it finds the ring empty. -/
theorem Advanced.works (hadvanced : Advanced d s t u o) (ht : t.Works) :
    (∃ w, o = some w ∧ w.Works) ∨ (∃ cpu < d.cpus, u.kicked cpu = true) ∨ u.ring = [] := by
  cases hadvanced with
  | kick cpu hlt => exact .inr (.inl ⟨cpu, hlt, Function.update_self _ _ _⟩)
  | empty cpu hring => exact .inr (.inr hring)
  | take cpu id ring hring => exact .inl ⟨_, rfl, .inr rfl⟩
  | crypt cpu id ok => exact .inl ⟨_, rfl, .inr rfl⟩
  | set cpu id ok => exact .inl ⟨_, rfl, .inr (ht.resolve_left nofun)⟩
  | notify cpu p => exact .inl ⟨_, rfl, .inr (ht.resolve_left nofun)⟩
  | put cpu p =>
    cases cpu with
    | none => exact absurd (ht.resolve_left nofun) nofun
    | some cpu => exact .inl ⟨_, rfl, .inr rfl⟩
  | _ => exact absurd (ht.resolve_left nofun) nofun

/-- The ring gets packets only from calls that then queue the work of a CPU. -/
theorem Advanced.ring (hadvanced : Advanced d s t u o) (hring : u.ring ≠ []) :
    s.ring ≠ [] ∨ o = some .kick := by
  cases hadvanced with
  | produced id => exact .inr rfl
  | take cpu id ring hcons => exact .inl (by rw [hcons]; nofun)
  | _ => exact .inl hring

theorem Advanced.kicked (hadvanced : Advanced d s t u o) {cpu : ℕ} (h : s.kicked cpu = true) :
    u.kicked cpu = true := by
  cases hadvanced with
  | kick cpu' hlt =>
    by_cases heq : cpu = cpu'
    · rw [heq]
      exact Function.update_self _ _ _
    · exact (Function.update_of_ne heq _ _).trans h
  | _ => exact h

theorem thread_fed (h : Fed d s) (ht : s.threads[i]? = some t) (hadvanced : Advanced d s t u o) :
    Fed d { u with threads := resume s.threads i o } := by
  intro hring
  have hnew : ∀ w, o = some w → w ∈ resume s.threads i o := fun w ho =>
    (resume_perm ht o).mem_iff.mpr (by simp [ho])
  rcases hadvanced.ring hring with hold | hkick
  · rcases h hold with ⟨t', ht', hworks⟩ | ⟨cpu, hlt, hkicked⟩
    · by_cases heq : t' = t
      · subst heq
        rcases hadvanced.works hworks with ⟨w, ho, hw⟩ | hkicked | hempty
        · exact .inl ⟨w, hnew w ho, hw⟩
        · exact .inr hkicked
        · exact absurd hempty hring
      · exact .inl ⟨t', mem_resume_of_ne ht o ht' heq, hworks⟩
    · exact .inr ⟨cpu, hlt, hadvanced.kicked hkicked⟩
  · exact .inl ⟨_, hnew _ hkick, .inl rfl⟩

theorem Fed.spawn {w : Thread} (h : Fed d s) (hthreads : s'.threads = s.threads ++ [w])
    (hring : s'.ring = s.ring)
    (hkicked : ∀ cpu, s.kicked cpu = true → s'.kicked cpu = true ∨ w.Works) : Fed d s' := by
  intro hne
  rw [hring] at hne
  have hw : w ∈ s'.threads := by rw [hthreads]; simp
  rcases h hne with ⟨t, ht, hworks⟩ | ⟨cpu, hlt, hold⟩
  · exact .inl ⟨t, by rw [hthreads]; exact List.mem_append_left _ ht, hworks⟩
  · rcases hkicked cpu hold with hk | hworks
    · exact .inr ⟨cpu, hlt, hk⟩
    · exact .inl ⟨w, hw, hworks⟩

theorem step_fed {a : Action} (h : Fed d s) (hstep : Stepped d s a s') : Fed d s' := by
  cases hstep with
  | thread i c t o u ht hadvanced => exact thread_fed h ht hadvanced
  | submit => exact h.spawn rfl rfl fun _ => .inl
  | run cpu hkicked => exact h.spawn rfl rfl fun _ _ => .inr (.inr rfl)
  | poll p pc u hrun hpolled =>
    obtain ⟨hthreads, hring⟩ := hpolled.threads
    unfold Fed
    rw [hthreads, hring, hpolled.kicked]
    exact h
  | _ => exact h

end Fed

/-! ## Progress -/

/-- The actions of calls in progress and of queued work. -/
def Action.internal : Action → Bool
  | .thread _ _ => true
  | .access _ _ => true
  | .run _ => true
  | .runSerial _ => true
  | .poll _ => true
  | _ => false

section Progress

variable {σ : Type} {d : Direction σ} {s : State σ} {p : ℕ}

/-- No call can go on and no work is to be run. -/
def Stuck (d : Direction σ) (s : State σ) : Prop := ∀ a, a.internal = true → step d s a = none

theorem Stuck.advance (h : Stuck d s) (ht : s.threads[i]? = some t) (c : Choice) :
    advance d s c t = none := by
  have hstep := h (.thread i c) rfl
  simp only [step, ht, Option.bind_some] at hstep
  exact Option.map_eq_none_iff.mp hstep

theorem Stuck.access (h : Stuck d s) (p : ℕ) (l : Access) :
    PrevQueue.machine.step (s.queues p) l.action = none :=
  Option.map_eq_none_iff.mp (h (.access p l) rfl)

/-- A packet with its submitting call can be counted in. -/
theorem Accounts.enqueue_enabled (h : Accounts d s) {id : ℕ} (ht : .enqueue id ∈ s.threads) :
    PrevQueue.machine.step (s.queues (d.peer id)) (.enqueue id) ≠ none := by
  have hout := h.not_admitted ht (List.mem_singleton_self id) (d.peer id)
  have hfree : Free (s.queues (d.peer id)) id := by
    constructor
    · intro hchain
      have hmem : Node.packet id ∈ (s.queues (d.peer id)).exchanged.map Node.packet := by
        rw [(h.sound _).inv.order]
        refine List.mem_append_right _ (List.mem_filter.mpr ⟨hchain, ?_⟩)
        simp
      obtain ⟨x, hx, heq⟩ := List.mem_map.mp hmem
      have hin := mem_admitted_of_exchanged (h.sound _) hx
      exact hout (Node.packet.inj heq ▸ hin)
    · intro pr hpr heq
      exact hout (heq ▸ (h.producers _ pr hpr).2)
  simp [PrevQueue.machine, act, hfree]

theorem Stuck.no_producer (h : Stuck d s) (p : ℕ) : (s.queues p).producers = [] := by
  cases hproducers : (s.queues p).producers with
  | nil => rfl
  | cons pr rest =>
    have hnone := h.access p (.produce 0)
    simp [Access.action, PrevQueue.machine, act, hproducers] at hnone

theorem Stuck.no_thread (h : Stuck d s) (haccounts : Accounts d s) (hcpus : 0 < d.cpus) :
    s.threads = [] := by
  cases hthreads : s.threads with
  | nil => rfl
  | cons t rest =>
    have hzero : s.threads[0]? = some t := by rw [hthreads]; rfl
    have hmem : t ∈ s.threads := List.mem_of_getElem? hzero
    have hnone := h.advance hzero ⟨0, true⟩
    exfalso
    cases t with
    | alive id =>
      simp only [Pipeline.advance] at hnone
      split at hnone <;> cases hnone
    | enqueue id =>
      simp only [Pipeline.advance] at hnone
      split at hnone
      · cases hnone
      · have haccess := Option.map_eq_none_iff.mp (Option.map_eq_none_iff.mp hnone)
        exact haccounts.enqueue_enabled hmem haccess
    | entering id =>
      simp only [Pipeline.advance] at hnone
      split at hnone
      · next hbusy =>
        obtain ⟨pr, hpr, -⟩ := hbusy
        rw [h.no_producer] at hpr
        cases hpr
      · cases hnone
    | produce id =>
      simp only [Pipeline.advance] at hnone
      split at hnone <;> cases hnone
    | kick => simp [Pipeline.advance, hcpus] at hnone
    | consume cpu =>
      simp only [Pipeline.advance] at hnone
      split at hnone <;> cases hnone
    | _ => cases hnone

/-- The dequeue of a call in progress can go on. -/
theorem Stuck.consumer_idle (h : Stuck d s) (p : ℕ) : (s.queues p).consumer = .idle := by
  by_contra hbusy
  obtain ⟨t, hconsume, -⟩ := consume_left hbusy
  have hnone := h.access p .consume
  simp [Access.action, PrevQueue.machine, act, hconsume] at hnone

theorem Stuck.no_serial (h : Stuck d s) (haccounts : Accounts d s) (p : ℕ) :
    s.serial p = ⟨false, none⟩ := by
  have hidle := h.consumer_idle p
  have hrun : (s.serial p).run = none := by
    cases hrun : (s.serial p).run with
    | none => rfl
    | some pc =>
      have hnone := h (.poll p) rfl
      simp only [step, hrun, Option.bind_some] at hnone
      exfalso
      cases pc with
      | peek n =>
        simp only [poll, State.access, Option.map_eq_none_iff, PrevQueue.machine, act,
          if_pos hidle] at hnone
        split at hnone <;> cases hnone
      | wait n =>
        simp only [poll, if_pos hidle] at hnone
        split at hnone
        · cases hnone
        · cases hnone
        · next hstub =>
          -- the stub is never returned
          have hreturned := (haccounts.sound p).inv.peeked _ hstub
          exact (haccounts.sound p).fifo.noStub hreturned
      | read n id =>
        simp only [poll] at hnone
        split at hnone <;> cases hnone
      | drop n id ok =>
        simp [poll, State.access, PrevQueue.machine, act, hidle] at hnone
      | finish n id ok =>
        simp only [poll] at hnone
        split at hnone <;> cases hnone
      | leave => cases hnone
  have hpending : (s.serial p).pending = false := by
    have hnone := h (.runSerial p) rfl
    simp only [step] at hnone
    split at hnone
    · cases hnone
    · next hnot => exact Bool.eq_false_iff.mpr fun hpending => hnot ⟨hpending, hrun⟩
  rw [← hrun, ← hpending]

theorem Stuck.no_kick (h : Stuck d s) (hthreads : s.threads = []) (cpu : ℕ) :
    s.kicked cpu = false := by
  have hnone := h (.run cpu) rfl
  simp only [step] at hnone
  split at hnone
  · cases hnone
  · next hnot =>
    refine Bool.eq_false_iff.mpr fun hkicked => hnot ⟨hkicked, ?_⟩
    rw [hthreads]
    intro t ht
    cases ht

/-- When nothing can go on, the ring is empty and every packet of the queues is processed. -/
theorem Stuck.idle (h : Stuck d s) (haccounts : Accounts d s) (hserving : AllServing s)
    (hawake : Awake d s) (hfed : Fed d s) (hcpus : 0 < d.cpus) :
    s.threads = [] ∧ s.ring = [] ∧ ∀ p, s.processed p = (s.queues p).exchanged := by
  have hthreads := h.no_thread haccounts hcpus
  have hring : s.ring = [] := by
    by_contra hne
    rcases hfed hne with ⟨t, ht, -⟩ | ⟨cpu, -, hkicked⟩
    · rw [hthreads] at ht
      cases ht
    · rw [h.no_kick hthreads cpu] at hkicked
      cases hkicked
  refine ⟨hthreads, hring, fun p => ?_⟩
  have hserial := h.no_serial haccounts p
  have hsettled : Settled s p := by
    rcases hawake p (by rw [hserial]; exact .inl rfl) with hpending | hsettled | hpromised
    · rw [hserial] at hpending
      cases hpending
    · exact hsettled
    · exfalso
      rcases hpromised with ⟨t, ht, -⟩ | ⟨id, hid, -⟩
      · rw [hthreads] at ht
        cases ht
      · rw [hring] at hid
        cases hid
  exact (processed_initial_segment haccounts hserving p).eq_of_length hsettled.symm

end Progress

end AmneziaWg.Pipeline
