import AmneziaWg.Timers.Machine

/-!
# What holds of the timers over all runs

* **Steps**: `apply_armed` and `apply_kept`, what a step can do to the timers.
* **Invariants**: `Paced` for the initiations, `Due` for the timers, `Erased` for the keys, each
  with its step lemma.
* **Safety**: `initiations_paced`, `timers_due`, `keys_erased`.
-/

namespace AmneziaWg.Timers

/-! ## Initiations -/

/-- Initiations are apart, and after a while they end. -/
structure Paced (h : Handshakes) (now : ℤ) : Prop where
  past : h.lastSentHandshake ≤ now
  sent : ∀ t ∈ h.initiations, t ≤ h.lastSentHandshake
  apart : h.initiations.Pairwise fun later earlier => earlier + rekeyTimeout * nsecPerSec ≤ later
  begun : ∀ b, h.initiating = some b →
    b ≤ now ∧ ∀ t ∈ h.initiations, t + rekeyTimeout * nsecPerSec ≤ b
  attempts : h.timerHandshakeAttempts ≤ maxTimerHandshakes + 1
  tries : h.tries + h.initiating.toList.length + h.transmitHandshakeWork.toNat ≤
    h.timerHandshakeAttempts + 1 + h.carried.toNat

section Paced

variable {hz : ℕ} {s s' : State} {a : Action}

theorem toList_length_isSome (o : Option ℤ) : o.toList.length = o.isSome.toNat := by
  cases o <;> rfl

variable {h : Handshakes} {now : ℤ}

/-- The attempts start anew. -/
theorem Paced.reset (hpaced : Paced h now) :
    Paced { h with timerHandshakeAttempts := 0, tries := 0, carried := h.initiating.isSome }
      now where
  past := hpaced.past
  sent := hpaced.sent
  apart := hpaced.apart
  begun := hpaced.begun
  attempts := Nat.zero_le _
  tries := by
    have hwork := Bool.toNat_le h.transmitHandshakeWork
    show 0 + h.initiating.toList.length + h.transmitHandshakeWork.toNat ≤
      0 + 1 + h.initiating.isSome.toNat
    rw [toList_length_isSome]
    omega

/-- The work is queued, where there is room for one more initiation. -/
theorem Paced.queue (hpaced : Paced h now)
    (hroom : h.tries + h.initiating.toList.length ≤ h.timerHandshakeAttempts + h.carried.toNat) :
    Paced { h with transmitHandshakeWork := true } now where
  past := hpaced.past
  sent := hpaced.sent
  apart := hpaced.apart
  begun := hpaced.begun
  attempts := hpaced.attempts
  tries := by
    show h.tries + h.initiating.toList.length + 1 ≤
      h.timerHandshakeAttempts + 1 + h.carried.toNat
    omega

/-- Time passes. -/
theorem Paced.later (hpaced : Paced h now) (ns : ℕ) : Paced h (now + ns) :=
  { hpaced with
    past := by
      have hpast := hpaced.past
      omega
    begun := fun b hb => by
      obtain ⟨hle, hbefore⟩ := hpaced.begun b hb
      exact ⟨by omega, hbefore⟩ }

end Paced

/-! ## Timers -/

/-- A timer that is armed now expires soon enough. -/
def InTime (hz now e : ℕ) : Timer → Prop
  | .retransmitHandshake => e ≤ now + (rekeyTimeout * hz + hz / 3)
  | .sendKeepalive => e ≤ now + keepaliveTimeout * hz
  | .newHandshake => e ≤ now + ((keepaliveTimeout + rekeyTimeout) * hz + hz / 3)
  | .zeroKeyMaterial => e ≤ now + rejectAfterTime * 3 * hz
  | .persistentKeepalive => True

/-- Timers that are pending were pending before, or are armed now. -/
def Armed (hz : ℕ) (w : World) (p p' : Pending) : Prop :=
  ∀ timer, ∀ e ∈ p'.get timer, e ∈ p.get timer ∨ (w.mayArm = true ∧ InTime hz w.jiffies e timer)

variable {e : ℕ}

section Armed

variable {hz : ℕ} {p p' p'' : Pending} {w : World} {s s' : State} {a : Action}

theorem Armed.refl : Armed hz w p p := fun _ _ he => .inl he

theorem Armed.trans (h : Armed hz w p p') (h' : Armed hz w p' p'') : Armed hz w p p'' :=
  fun timer e he => (h' timer e he).elim (h timer e) .inr

/-- What is pending after `mod_peer_timer` was pending before, or was armed. -/
theorem mem_modPeerTimer {timer : Option ℕ} {x : ℕ} (h : e ∈ w.modPeerTimer timer x) :
    e ∈ timer ∨ (w.mayArm = true ∧ e = x) := by
  unfold World.modPeerTimer at h
  split at h
  · next hmay => exact .inr ⟨hmay, (Option.some.inj h).symm⟩
  · exact .inl h

theorem modPeerTimer_of_mayArm {timer : Option ℕ} {x : ℕ} (h : w.mayArm = true) :
    w.modPeerTimer timer x = some x := if_pos h

theorem armed_deleteRetransmit (p : Pending) :
    Armed hz w p { p with retransmitHandshake := none } := by
  intro timer e he
  cases timer <;> first | exact .inl he | cases he

theorem armed_deleteKeepalive (p : Pending) : Armed hz w p { p with sendKeepalive := none } := by
  intro timer e he
  cases timer <;> first | exact .inl he | cases he

theorem armed_deleteNewHandshake (p : Pending) : Armed hz w p { p with newHandshake := none } := by
  intro timer e he
  cases timer <;> first | exact .inl he | cases he

theorem armed_deleteZero (p : Pending) : Armed hz w p { p with zeroKeyMaterial := none } := by
  intro timer e he
  cases timer <;> first | exact .inl he | cases he

/-- A timer goes through `mod_peer_timer`. -/
theorem armed_modPeerTimer {timer : Timer} {x : ℕ} (he : e ∈ w.modPeerTimer (p.get timer) x)
    (hx : InTime hz w.jiffies x timer) :
    e ∈ p.get timer ∨ (w.mayArm = true ∧ InTime hz w.jiffies e timer) := by
  rcases mem_modPeerTimer he with hold | ⟨hmay, rfl⟩
  · exact .inl hold
  · exact .inr ⟨hmay, hx⟩

theorem armed_keepalive (p : Pending) :
    Armed hz w p { p with
      sendKeepalive := w.modPeerTimer p.sendKeepalive (w.jiffies + keepaliveTimeout * hz) } := by
  intro timer e he
  cases timer <;> first | exact .inl he | exact armed_modPeerTimer he (le_refl (_ + _))

theorem armed_zero (p : Pending) :
    Armed hz w p { p with
      zeroKeyMaterial :=
        w.modPeerTimer p.zeroKeyMaterial (w.jiffies + rejectAfterTime * 3 * hz) } := by
  intro timer e he
  cases timer <;> first | exact .inl he | exact armed_modPeerTimer he (le_refl (_ + _))

theorem jitter_le (hhz : 3 ≤ hz) (rand : ℕ) : jitter hz rand ≤ hz / 3 :=
  (Nat.mod_lt _ (by omega)).le

/-- The delay of a timer with jitter. -/
theorem add_jitter_le (hhz : 3 ≤ hz) (rand now delay : ℕ) :
    now + delay + jitter hz rand ≤ now + (delay + hz / 3) := by
  have hjitter := jitter_le hhz rand
  omega

theorem armed_initiated (hhz : 3 ≤ hz) (rand : ℕ) (p : Pending) :
    Armed hz w p { p with
      retransmitHandshake := w.modPeerTimer p.retransmitHandshake
        (w.jiffies + rekeyTimeout * hz + jitter hz rand) } := by
  intro timer e he
  cases timer <;> first | exact .inl he | exact armed_modPeerTimer he (add_jitter_le hhz rand ..)

theorem dataSent_armed (hhz : 3 ≤ hz) (rand : ℕ) :
    Armed hz s.toWorld s.toPending (wgTimersDataSent hz rand s).toPending := by
  unfold wgTimersDataSent
  split
  · intro timer e he
    cases timer <;> first | exact .inl he | exact armed_modPeerTimer he (add_jitter_le hhz rand ..)
  · exact .refl

theorem dataReceived_armed :
    Armed hz s.toWorld s.toPending (wgTimersDataReceived hz s).toPending := by
  unfold wgTimersDataReceived
  split
  · split
    · exact armed_keepalive s.toPending
    · exact .refl
  · exact .refl

theorem traversal_armed (hz : ℕ) (s : State) :
    Armed hz s.toWorld s.toPending (wgTimersAnyAuthenticatedPacketTraversal hz s).toPending := by
  unfold wgTimersAnyAuthenticatedPacketTraversal
  split
  · intro timer e he
    cases timer <;> first | exact .inl he | exact armed_modPeerTimer he trivial
  · exact .refl

theorem finishInitiation_armed (hhz : 3 ≤ hz) (created : Bool) (rand : ℕ) :
    Armed hz s.toWorld s.toPending (finishInitiation hz created rand s).toPending := by
  unfold finishInitiation
  cases created with
  | false => exact .refl
  | true =>
    have htraversal := traversal_armed hz { s with initiating := none }
    obtain ⟨timer, heq⟩ := traversal_eq hz { s with initiating := none }
    dsimp only
    rw [if_pos rfl]
    rw [heq] at htraversal ⊢
    exact (htraversal.trans (armed_deleteKeepalive _)).trans (armed_initiated hhz rand _)

theorem finishDerivation_armed (responder : Bool) :
    Armed hz s.toWorld s.toPending (finishDerivation hz responder s).toPending := by
  unfold finishDerivation
  cases responder with
  | false => exact armed_zero s.toPending
  | true =>
    exact ((armed_zero s.toPending).trans (traversal_armed hz (wgTimersSessionDerived hz { s with
      derivations := s.derivations - 1
      orphaned := s.orphaned || (!s.mayArm && s.zeroKeyMaterial.isNone)
      derivedAt := s.jiffies }))).trans (armed_deleteKeepalive _)

theorem retransmit_armed :
    Armed hz s.toWorld s.toPending (wgExpiredRetransmitHandshake hz s).toPending := by
  unfold wgExpiredRetransmitHandshake
  split
  · dsimp only
    split
    · exact (armed_deleteKeepalive s.toPending).trans (armed_zero _)
    · exact armed_deleteKeepalive s.toPending
  · obtain ⟨h, hq⟩ := queued_eq
      { s with timerHandshakeAttempts := s.timerHandshakeAttempts + 1 } true
    rw [hq]
    exact .refl

theorem keepalive_armed (alloc key : Bool) :
    Armed hz s.toWorld s.toPending (wgExpiredSendKeepalive hz alloc key s).toPending := by
  obtain ⟨h, n, hs⟩ := sendKeepalive_eq s alloc key
  unfold wgExpiredSendKeepalive
  rw [hs]
  dsimp only
  split
  · exact armed_keepalive s.toPending
  · exact .refl

theorem stop_armed (s : State) : Armed hz w p (wgTimersStop s).toPending := by
  intro timer e he
  cases timer <;> cases he

theorem expire_armed (alloc key : Bool) (timer : Timer) :
    Armed hz s.toWorld s.toPending (expire hz alloc key s timer).toPending := by
  cases timer with
  | retransmitHandshake =>
    exact (armed_deleteRetransmit s.toPending).trans
      (retransmit_armed (s := { s with retransmitHandshake := none }))
  | sendKeepalive =>
    exact (armed_deleteKeepalive s.toPending).trans
      (keepalive_armed (s := { s with sendKeepalive := none }) alloc key)
  | newHandshake =>
    obtain ⟨h, heq⟩ := queued_eq { s with newHandshake := none } false
    rw [expire, wgExpiredNewHandshake, heq]
    exact armed_deleteNewHandshake s.toPending
  | zeroKeyMaterial =>
    rw [expire, wgExpiredZeroKeyMaterial]
    split <;> exact armed_deleteZero s.toPending
  | persistentKeepalive =>
    obtain ⟨h, n, heq⟩ := persistent_eq { s with persistentKeepalive := none } alloc key
    rw [expire, heq]
    intro timer e he
    cases timer <;> first | exact .inl he | cases he

/-- What a step can do to the timers. -/
theorem apply_armed (hhz : 3 ≤ hz) (s : State) (a : Action) :
    Armed hz s.toWorld s.toPending (a.apply hz s).toPending := by
  cases hasks : a.asks with
  | true =>
    obtain ⟨h, n, b, heq⟩ := apply_of_asks hz s hasks
    rw [heq]
    exact .refl
  | false =>
    cases a with
    | dataSent rand => exact dataSent_armed hhz rand
    | dataReceived => exact dataReceived_armed
    | packetSent => exact armed_deleteKeepalive s.toPending
    | packetReceived => exact armed_deleteNewHandshake s.toPending
    | traversal => exact traversal_armed hz s
    | handshakeComplete => exact armed_deleteRetransmit s.toPending
    | finishInitiation created rand => exact finishInitiation_armed hhz created rand
    | finishDerivation responder => exact finishDerivation_armed responder
    | expire timer alloc key => exact expire_armed alloc key timer
    | stop => exact stop_armed { s with stagedPackets := 0 }
    | remove => exact stop_armed (clearKeys s)
    | suspend => exact armed_deleteZero s.toPending
    | _ => first | exact .refl | cases hasks

end Armed

/-- The steps after which `timer_new_handshake` need not be pending: something is received, the
timer has expired, or the timers are stopped. -/
def Action.endsNewHandshake : Action → Bool
  | .packetReceived => true
  | .expire .newHandshake _ _ => true
  | .stop => true
  | .remove => true
  | _ => false

/-- The steps after which `timer_send_keepalive` need not be pending: something is sent, the
timer has expired, handshakes are given up, or the timers are stopped. -/
def EndsKeepalive (s : State) : Action → Prop
  | .packetSent => True
  | .finishInitiation created _ => created = true
  | .finishDerivation responder => responder = true
  | .expire .sendKeepalive _ _ => True
  | .expire .retransmitHandshake _ _ => maxTimerHandshakes < s.timerHandshakeAttempts
  | .stop => True
  | .remove => True
  | _ => False

/-- Timers that are pending expire soon enough. -/
def Due (hz : ℕ) (p : Pending) (now : ℕ) : Prop := ∀ timer, ∀ e ∈ p.get timer, InTime hz now e timer

/-- No timer is pending, and none may be armed. -/
def Stopped (s : State) : Prop := s.mayArm = false ∧ ∀ timer, s.toPending.get timer = none

section Due

variable {hz : ℕ} {s : State} {a : Action} {e : ℕ}

/-- The timers stay as they are when another one expires, and handshakes are not given up. -/
theorem expire_kept (hz : ℕ) (s : State) (alloc key : Bool) (timer : Timer) :
    (timer ≠ .newHandshake → (expire hz alloc key s timer).newHandshake = s.newHandshake) ∧
      (¬ EndsKeepalive s (.expire timer alloc key) →
        (expire hz alloc key s timer).sendKeepalive = s.sendKeepalive) := by
  cases timer with
  | retransmitHandshake =>
    rw [expire, wgExpiredRetransmitHandshake]
    split
    · next hmax =>
      dsimp only
      split <;> exact ⟨fun _ => rfl, fun h => absurd hmax h⟩
    · obtain ⟨h, hq⟩ := queued_eq { s with
        retransmitHandshake := none
        timerHandshakeAttempts := s.timerHandshakeAttempts + 1 } true
      rw [hq]
      exact ⟨fun _ => rfl, fun _ => rfl⟩
  | sendKeepalive =>
    obtain ⟨h, timer, n, another, heq⟩ := keepalive_eq hz { s with sendKeepalive := none } alloc key
    rw [expire, heq]
    exact ⟨fun _ => rfl, fun h => absurd trivial h⟩
  | newHandshake =>
    obtain ⟨h, heq⟩ := queued_eq { s with newHandshake := none } false
    rw [expire, wgExpiredNewHandshake, heq]
    exact ⟨fun h => absurd rfl h, fun _ => rfl⟩
  | zeroKeyMaterial =>
    rw [expire, wgExpiredZeroKeyMaterial]
    split <;> exact ⟨fun _ => rfl, fun _ => rfl⟩
  | persistentKeepalive =>
    obtain ⟨h, n, heq⟩ := persistent_eq { s with persistentKeepalive := none } alloc key
    rw [expire, heq]
    exact ⟨fun _ => rfl, fun _ => rfl⟩

/-- Until such a step the two timers stay as they are. -/
theorem apply_kept (hz : ℕ) (s : State) (a : Action) :
    (a.endsNewHandshake = false → s.newHandshake = some e → (a.apply hz s).newHandshake = some e) ∧
      (¬ EndsKeepalive s a → s.sendKeepalive = some e →
        (a.apply hz s).sendKeepalive = some e) := by
  cases hasks : a.asks with
  | true =>
    obtain ⟨h, n, b, heq⟩ := apply_of_asks hz s hasks
    rw [heq]
    exact ⟨fun _ => id, fun _ => id⟩
  | false =>
    cases a with
    | dataSent rand =>
      -- a timer that is pending is not armed again
      rw [Action.apply, wgTimersDataSent]
      split
      · next hnone => exact ⟨fun _ h => (by rw [h] at hnone; cases hnone), fun _ => id⟩
      · exact ⟨fun _ => id, fun _ => id⟩
    | dataReceived =>
      rw [Action.apply, wgTimersDataReceived]
      split
      · split
        · next hnone => exact ⟨fun _ => id, fun _ h => by rw [h] at hnone; cases hnone⟩
        · exact ⟨fun _ => id, fun _ => id⟩
      · exact ⟨fun _ => id, fun _ => id⟩
    | traversal =>
      obtain ⟨timer, heq⟩ := traversal_eq hz s
      rw [Action.apply, heq]
      exact ⟨fun _ => id, fun _ => id⟩
    | finishInitiation created rand =>
      cases created with
      | false => exact ⟨fun _ => id, fun _ => id⟩
      | true =>
        obtain ⟨h, persistent, keepalive, retransmit, heq, -⟩ :=
          finishInitiation_eq hz s true rand
        rw [Action.apply, heq]
        exact ⟨fun _ => id, fun h => absurd rfl h⟩
    | finishDerivation responder =>
      cases responder with
      | false => exact ⟨fun _ => id, fun _ => id⟩
      | true =>
        obtain ⟨h, persistent, keepalive, heq, -⟩ := finishDerivation_eq hz s true
        rw [Action.apply, heq]
        exact ⟨fun _ => id, fun h => absurd rfl h⟩
    | expire timer alloc key =>
      obtain ⟨hnew, hkeepalive⟩ := expire_kept hz s alloc key timer
      refine ⟨fun hends h => (hnew ?_).trans h, fun hends h => (hkeepalive hends).trans h⟩
      rintro rfl
      cases hends
    | packetSent => exact ⟨fun _ => id, fun h => absurd trivial h⟩
    | packetReceived => exact ⟨fun h => (by cases h), fun _ => id⟩
    | stop => exact ⟨fun h => (by cases h), fun h => absurd trivial h⟩
    | remove => exact ⟨fun h => (by cases h), fun h => absurd trivial h⟩
    | _ => first | exact ⟨fun _ => id, fun _ => id⟩ | cases hasks

theorem InTime.later {now now' : ℕ} (hle : now ≤ now') {timer : Timer} (h : InTime hz now e timer) :
    InTime hz now' e timer := by
  cases timer with
  | persistentKeepalive => trivial
  | _ => exact h.trans (Nat.add_le_add_right hle _)

/-- Time does not go back. -/
theorem apply_jiffies_le (hz : ℕ) (s : State) (a : Action) : s.jiffies ≤ (a.apply hz s).jiffies := by
  rw [apply_toWorld]
  cases a with
  | tick jiffies ns => exact Nat.le_add_right _ _
  | _ => exact le_refl _

/-- The step lemma for the timers. -/
theorem apply_due (hhz : 3 ≤ hz) (hdue : Due hz s.toPending s.jiffies) (a : Action) :
    Due hz (a.apply hz s).toPending (a.apply hz s).jiffies := by
  intro timer e he
  refine InTime.later (apply_jiffies_le hz s a) ?_
  rcases apply_armed hhz s a timer e he with hold | ⟨-, harmed⟩
  · exact hdue timer e hold
  · exact harmed

/-- Stopped timers stay so, unless the interface of a peer that is alive comes up. -/
theorem apply_stopped (hhz : 3 ≤ hz) (hstopped : Stopped s) (hup : a = .up → s.isDead = true) :
    Stopped (a.apply hz s) := by
  obtain ⟨hmay, hnone⟩ := hstopped
  constructor
  · rw [apply_toWorld]
    cases a with
    | down => rfl
    | die => exact Bool.and_false _
    | up =>
      show (true && !s.isDead) = false
      rw [hup rfl]
      rfl
    | _ => exact hmay
  · intro timer
    refine Option.eq_none_iff_forall_not_mem.mpr fun e he => ?_
    rcases apply_armed hhz s a timer e he with hold | ⟨harm, -⟩
    · rw [hnone timer] at hold
      cases hold
    · rw [hmay] at harm
      cases harm

/-- `wg_stop` and `peer_remove_after_dead` stop the timers. -/
theorem stopped_of_stop (henabled : a.enabled s = true) (ha : a = .stop ∨ a = .remove) :
    Stopped (a.apply hz s) := by
  rcases ha with rfl | rfl
  · refine ⟨?_, fun timer => by cases timer <;> rfl⟩
    show (s.netifRunning && _) = false
    rw [(Bool.not_eq_true' _).mp henabled]
    rfl
  · refine ⟨?_, fun timer => by cases timer <;> rfl⟩
    show (_ && !s.isDead) = false
    rw [show s.isDead = true from henabled]
    exact Bool.and_false _

/-- Data that is sent finds the timer pending, or arms it. -/
theorem dataSent_pending (hhz : 3 ≤ hz) (hdue : Due hz s.toPending s.jiffies)
    (hmay : s.mayArm = true) (rand : ℕ) :
    ∃ e, (wgTimersDataSent hz rand s).newHandshake = some e ∧
      InTime hz s.jiffies e .newHandshake := by
  have hpending : ∃ e, (wgTimersDataSent hz rand s).newHandshake = some e := by
    unfold wgTimersDataSent
    cases hnew : s.newHandshake with
    | none => exact ⟨_, modPeerTimer_of_mayArm hmay⟩
    | some e => exact ⟨e, hnew⟩
  obtain ⟨e, he⟩ := hpending
  refine ⟨e, he, ?_⟩
  rcases dataSent_armed hhz rand .newHandshake e he with hold | ⟨-, harmed⟩
  · exact hdue .newHandshake e hold
  · exact harmed

theorem dataReceived_pending (hdue : Due hz s.toPending s.jiffies) (hmay : s.mayArm = true) :
    ∃ e, (wgTimersDataReceived hz s).sendKeepalive = some e ∧
      InTime hz s.jiffies e .sendKeepalive := by
  have hpending : ∃ e, (wgTimersDataReceived hz s).sendKeepalive = some e := by
    unfold wgTimersDataReceived
    rw [if_pos (Bool.and_eq_true_iff.mp hmay).1]
    cases hkeepalive : s.sendKeepalive with
    | none => exact ⟨_, modPeerTimer_of_mayArm hmay⟩
    | some e => exact ⟨e, hkeepalive⟩
  obtain ⟨e, he⟩ := hpending
  refine ⟨e, he, ?_⟩
  rcases dataReceived_armed .sendKeepalive e he with hold | ⟨-, harmed⟩
  · exact hdue .sendKeepalive e hold
  · exact harmed

end Due

/-! ## Keys -/

/-- While there are keys, something is on its way that erases them. -/
def Erased (hz : ℕ) (k : Keys) (zeroKeyMaterial : Option ℕ) : Prop :=
  k.keypairs = true →
    (∃ e ∈ zeroKeyMaterial, e ≤ k.derivedAt + rejectAfterTime * 3 * hz) ∨
      k.clearPeerWork = true ∨ 0 < k.derivations ∨ k.suspending = true ∨ k.orphaned = true

section Erased

variable {hz : ℕ} {s : State} {a : Action}

/-- The timer is armed when a session was derived, or the keys are orphaned. -/
theorem finishDerivation_erased (responder : Bool) (hdue : Due hz s.toPending s.jiffies) :
    Erased hz (finishDerivation hz responder s).toKeys
      (finishDerivation hz responder s).zeroKeyMaterial := by
  obtain ⟨h, persistent, keepalive, heq, -⟩ := finishDerivation_eq hz s responder
  rw [heq]
  intro _
  dsimp only
  cases hmay : s.mayArm with
  | true => exact .inl ⟨_, modPeerTimer_of_mayArm hmay, le_refl _⟩
  | false =>
    cases hzero : s.zeroKeyMaterial with
    | none => exact .inr (.inr (.inr (.inr (Bool.or_true _))))
    | some e =>
      refine .inl ⟨e, ?_, hdue .zeroKeyMaterial e hzero⟩
      rw [World.modPeerTimer, hmay]
      rfl

/-- Giving up arms the timer where it is not pending. -/
theorem retransmit_erased (herased : Erased hz s.toKeys s.zeroKeyMaterial) :
    Erased hz (wgExpiredRetransmitHandshake hz s).toKeys
      (wgExpiredRetransmitHandshake hz s).zeroKeyMaterial := by
  unfold wgExpiredRetransmitHandshake
  split
  · dsimp only
    split
    · next hnone =>
      intro hkeys
      rcases herased hkeys with ⟨e, he, -⟩ | hrest
      · rw [show s.zeroKeyMaterial = some e from he] at hnone
        cases hnone
      · exact .inr hrest
    · exact herased
  · obtain ⟨h, hq⟩ := queued_eq
      { s with timerHandshakeAttempts := s.timerHandshakeAttempts + 1 } true
    rw [hq]
    exact herased

/-- The step lemma for the keys. -/
theorem apply_erased (hdue : Due hz s.toPending s.jiffies)
    (herased : Erased hz s.toKeys s.zeroKeyMaterial) (a : Action) :
    Erased hz (a.apply hz s).toKeys (a.apply hz s).zeroKeyMaterial := by
  cases htouches : a.touchesKeys with
  | false =>
    obtain ⟨hkeys, hzero⟩ := (apply_frame hz s a).2 htouches
    rw [hkeys, hzero]
    exact herased
  | true =>
    cases a with
    | beginSession => exact fun _ => .inr (.inr (.inl (Nat.succ_pos _)))
    | finishDerivation responder => exact finishDerivation_erased responder hdue
    | expire timer alloc key =>
      cases timer with
      | retransmitHandshake =>
        exact retransmit_erased (s := { s with retransmitHandshake := none }) herased
      | zeroKeyMaterial =>
        -- the work that erases the keys takes the timer's place
        rw [Action.apply, expire, wgExpiredZeroKeyMaterial]
        split
        · exact fun _ => .inr (.inr (.inr (.inr rfl)))
        · exact fun _ => .inr (.inl rfl)
      | _ => cases htouches
    | suspend => exact fun _ => .inr (.inr (.inr (.inl rfl)))
    | clear => exact fun h => by cases h
    | stop => exact fun h => by cases h
    | remove => exact fun h => by cases h
    | suspended => exact fun h => by cases h
    | _ => cases htouches

/-- No keys are orphaned: the peer is alive, and sessions are derived while the interface is
up. -/
structure Kept (s : State) : Prop where
  orphaned : s.orphaned = false
  alive : s.isDead = false
  derivations : s.netifRunning = false → s.derivations = 0

/-- The step lemma for this. -/
theorem apply_orphaned (hz : ℕ) (h : Kept s) (henabled : a.enabled s = true) (hdown : a ≠ .down)
    (hdie : a ≠ .die) (hbegin : a = .beginSession → s.netifRunning = true) :
    Kept (a.apply hz s) ∧ (s.netifRunning = true → (a.apply hz s).netifRunning = true) := by
  have hworld := apply_toWorld hz s a
  have hrunning : s.netifRunning = true → (a.apply hz s).netifRunning = true := by
    intro hup
    rw [hworld]
    cases a with
    | down => exact absurd rfl hdown
    | up => rfl
    | _ => exact hup
  have halive : (a.apply hz s).isDead = false := by
    rw [hworld]
    cases a with
    | die => exact absurd rfl hdie
    | _ => exact h.alive
  have hderivations : (a.apply hz s).netifRunning = false → s.derivations = 0 := by
    intro hnot
    cases hup : s.netifRunning with
    | false => exact h.derivations hup
    | true => cases (hrunning hup).symm.trans hnot
  suffices horphaned : (a.apply hz s).orphaned = false ∧
      ((a.apply hz s).netifRunning = false → (a.apply hz s).derivations = 0) from
    ⟨⟨horphaned.1, halive, horphaned.2⟩, hrunning⟩
  cases htouches : a.touchesKeys with
  | false =>
    rw [((apply_frame hz s a).2 htouches).1]
    exact ⟨h.orphaned, hderivations⟩
  | true =>
    cases a with
    | finishDerivation responder =>
      -- a call in progress means that the interface is up
      have hmay : s.mayArm = true := by
        refine Bool.and_eq_true_iff.mpr ⟨?_, by rw [h.alive]; rfl⟩
        cases hup : s.netifRunning with
        | true => rfl
        | false => exact absurd (h.derivations hup) (Nat.ne_of_gt (of_decide_eq_true henabled))
      obtain ⟨h', persistent, keepalive, heq, -⟩ := finishDerivation_eq hz s responder
      rw [Action.apply, heq] at hderivations ⊢
      dsimp only
      rw [h.orphaned, hmay]
      exact ⟨rfl, fun hnot => by rw [hderivations hnot]⟩
    | expire timer alloc key =>
      cases timer with
      | retransmitHandshake =>
        obtain ⟨h', keepalive, zero, n, heq⟩ :=
          retransmit_eq hz { s with retransmitHandshake := none }
        rw [Action.apply, expire, heq]
        exact ⟨h.orphaned, h.derivations⟩
      | zeroKeyMaterial =>
        rw [Action.apply, expire, wgExpiredZeroKeyMaterial]
        dsimp only
        rw [h.alive]
        exact ⟨h.orphaned, h.derivations⟩
      | _ => cases htouches
    | remove => cases h.alive.symm.trans henabled
    | beginSession =>
      exact ⟨h.orphaned, fun hnot => by cases (hbegin rfl).symm.trans hnot⟩
    | suspend => exact ⟨h.orphaned, h.derivations⟩
    | stop => exact ⟨rfl, h.derivations⟩
    | clear => exact ⟨rfl, h.derivations⟩
    | suspended => exact ⟨rfl, h.derivations⟩
    | _ => cases htouches

end Erased

/-! ## Runs -/

section Runs

variable {hz : ℕ} {jiffies : ℕ} {boottime : ℤ} {running : Bool} {actions : List Action} {s : State}

theorem run_due (hhz : 3 ≤ hz)
    (hrun : (machine hz).run (init jiffies boottime running) actions = some s) :
    Due hz s.toPending s.jiffies ∧ Erased hz s.toKeys s.zeroKeyMaterial := by
  have hinit : Due hz (init jiffies boottime running).toPending jiffies := by
    intro timer e he
    cases timer <;> cases he
  have hsteps : ∀ s a s', Due hz s.toPending s.jiffies ∧ Erased hz s.toKeys s.zeroKeyMaterial →
      (machine hz).step s a = some s' →
      Due hz s'.toPending s'.jiffies ∧ Erased hz s'.toKeys s'.zeroKeyMaterial := by
    intro s a s' hinv hstep
    obtain ⟨-, rfl⟩ := step_eq_some hstep
    exact ⟨apply_due hhz hinv.1 a, apply_erased hinv.1 hinv.2 a⟩
  exact (machine hz).run_invariant hsteps ⟨hinit, nofun⟩ hrun

/-- A run that a side condition holds of keeps a timer. -/
theorem run_kept {s₀ : State} (hrun : (machine hz).run s₀ actions = some s) :
    ((∀ a ∈ actions, a.endsNewHandshake = false) → s₀.newHandshake = some e →
      s.newHandshake = some e) ∧
    ((machine hz).AllSteps (fun s a => ¬ EndsKeepalive s a) s₀ actions →
      s₀.sendKeepalive = some e → s.sendKeepalive = some e) := by
  constructor
  · intro hends hpending
    have hsteps : ∀ s a s', s.newHandshake = some e → a.endsNewHandshake = false →
        (machine hz).step s a = some s' → s'.newHandshake = some e :=
      fun s a s' h hok hstep => (step_eq_some hstep).2 ▸ (apply_kept hz s a).1 hok h
    exact (machine hz).runs_invariant hsteps hpending
      ((machine hz).allSteps_of_forall s₀ hends) hrun
  · intro hends hpending
    have hsteps : ∀ s a s', s.sendKeepalive = some e → ¬ EndsKeepalive s a →
        (machine hz).step s a = some s' → s'.sendKeepalive = some e :=
      fun s a s' h hok hstep => (step_eq_some hstep).2 ▸ (apply_kept hz s a).2 hok h
    exact (machine hz).runs_invariant hsteps hpending hends hrun

/-- From when the interface is up, as long as it stays up and the peer alive. -/
theorem run_running {s₀ : State} (h : Kept s₀) (hrunning : s₀.netifRunning = true)
    (hrun : (machine hz).run s₀ actions = some s) (hup : ∀ a ∈ actions, a ≠ .down ∧ a ≠ .die) :
    s.orphaned = false := by
  have hsteps : ∀ s a s', Kept s ∧ s.netifRunning = true → a ≠ .down ∧ a ≠ .die →
      (machine hz).step s a = some s' → Kept s' ∧ s'.netifRunning = true := by
    intro s a s' hinv hok hstep
    obtain ⟨henabled, rfl⟩ := step_eq_some hstep
    obtain ⟨hkept, hrunning⟩ := apply_orphaned hz hinv.1 henabled hok.1 hok.2 fun _ => hinv.2
    exact ⟨hkept, hrunning hinv.2⟩
  exact ((machine hz).runs_invariant hsteps ⟨h, hrunning⟩
    ((machine hz).allSteps_of_forall s₀ hup) hrun).1.orphaned

/-- No session is begun before the interface is up, and then it stays up and the peer alive. -/
theorem run_orphaned (hrun : (machine hz).run (init jiffies boottime running) actions = some s)
    (hup : ∀ a ∈ actions, a ≠ .down ∧ a ≠ .die)
    (hopen : running = true ∨
      ∃ before after, actions = before ++ .up :: after ∧ .beginSession ∉ before) :
    s.orphaned = false := by
  have hinit : Kept (init jiffies boottime running) := ⟨rfl, rfl, fun _ => rfl⟩
  rcases hopen with rfl | ⟨before, after, rfl, hbegin⟩
  · exact run_running hinit rfl hrun hup
  obtain ⟨t, hbefore, hafter⟩ := (machine hz).run_append_some hrun
  have hkept : Kept t := by
    have hsteps : ∀ s a s', Kept s → (a ≠ .down ∧ a ≠ .die) ∧ a ≠ .beginSession →
        (machine hz).step s a = some s' → Kept s' := by
      intro s a s' h hok hstep
      obtain ⟨henabled, rfl⟩ := step_eq_some hstep
      exact (apply_orphaned hz h henabled hok.1.1 hok.1.2 fun ha => absurd ha hok.2).1
    refine (machine hz).runs_invariant hsteps hinit
      ((machine hz).allSteps_of_forall _ fun a ha => ?_) hbefore
    exact ⟨hup a (List.mem_append_left _ ha), fun heq => hbegin (heq ▸ ha)⟩
  obtain ⟨u, hstep, hrest⟩ := (machine hz).run_cons_some hafter
  obtain ⟨-, rfl⟩ := step_eq_some hstep
  have hopened : Kept { t with netifRunning := true } := ⟨hkept.orphaned, hkept.alive, nofun⟩
  exact run_running hopened rfl hrest fun a ha =>
    hup a (List.mem_append_right _ (List.mem_cons_of_mem _ ha))

/-- After data was sent to a peer that is alive, with the interface up, the timer of a new
handshake is pending and expires in time, until something is received, the timer expires or the
timers are stopped. After data was received so is the timer of the keepalive, until something is
sent, the timer expires, handshakes are given up or the timers are stopped. After
`wg_timers_stop` no timer is pending until the interface comes up, nor then if the peer is
dead. -/
theorem timers_due (hhz : 3 ≤ hz) {s₀ : State}
    (hrun : (machine hz).run (init jiffies boottime running) actions = some s₀) :
    (∀ rand later s, (machine hz).run s₀ (.dataSent rand :: later) = some s → s₀.mayArm = true →
      (∀ a ∈ later, a.endsNewHandshake = false) → ∃ e ∈ s.newHandshake,
        e ≤ s₀.jiffies + ((keepaliveTimeout + rekeyTimeout) * hz + hz / 3)) ∧
    (∀ later s, (machine hz).run s₀ (.dataReceived :: later) = some s → s₀.mayArm = true →
      (machine hz).AllSteps (fun s a => ¬ EndsKeepalive s a) s₀ (.dataReceived :: later) →
        ∃ e ∈ s.sendKeepalive, e ≤ s₀.jiffies + keepaliveTimeout * hz) ∧
    (∀ a later s, (machine hz).run s₀ (a :: later) = some s → a = .stop ∨ a = .remove →
      (machine hz).AllSteps (fun s a => a = .up → s.isDead = true) s₀ (a :: later) →
        s.retransmitHandshake = none ∧ s.sendKeepalive = none ∧ s.newHandshake = none ∧
          s.zeroKeyMaterial = none ∧ s.persistentKeepalive = none) := by
  have hdue := (run_due hhz hrun).1
  refine ⟨?_, ?_, ?_⟩
  · intro rand later s hlater hmay hends
    obtain ⟨t, hstep, hrest⟩ := (machine hz).run_cons_some hlater
    obtain ⟨-, rfl⟩ := step_eq_some hstep
    obtain ⟨e, he, htime⟩ := dataSent_pending hhz hdue hmay rand
    exact ⟨e, (run_kept hrest).1 hends he, htime⟩
  · intro later s hlater hmay hends
    obtain ⟨t, hstep, hrest⟩ := (machine hz).run_cons_some hlater
    obtain ⟨e, he, htime⟩ := dataReceived_pending hdue hmay
    have hends' := hends.2 t hstep
    obtain ⟨-, rfl⟩ := step_eq_some hstep
    exact ⟨e, (run_kept hrest).2 hends' he, htime⟩
  · intro a later s hlater ha hup
    obtain ⟨t, hstep, hrest⟩ := (machine hz).run_cons_some hlater
    have hup' := hup.2 t hstep
    obtain ⟨henabled, rfl⟩ := step_eq_some hstep
    have hstopped : Stopped s := (machine hz).runs_invariant
      (fun s a s' h hok hstep => (step_eq_some hstep).2 ▸ apply_stopped hhz h hok)
      (stopped_of_stop henabled ha) hup' hrest
    exact ⟨hstopped.2 .retransmitHandshake, hstopped.2 .sendKeepalive, hstopped.2 .newHandshake,
      hstopped.2 .zeroKeyMaterial, hstopped.2 .persistentKeepalive⟩

/-- Data goes back and forth until nothing comes back any more. -/
def quiet : List Action :=
  [.dataReceived, .packetReceived, .tick 300 3000000000]

theorem timers_due_quiet :
    ∃ s₀ s, (machine 100).run (init 0 0 true) quiet = some s₀ ∧
      (machine 100).run s₀ [.dataSent 5, .packetSent, .tick 200 2000000000, .dataReceived] =
        some s ∧
      ∃ e ∈ s.newHandshake,
        e ≤ s₀.jiffies + ((keepaliveTimeout + rekeyTimeout) * 100 + 100 / 3) := by
  have hrun : ∃ s₀ s, (machine 100).run (init 0 0 true) quiet = some s₀ ∧
      (machine 100).run s₀ [.dataSent 5, .packetSent, .tick 200 2000000000, .dataReceived] =
        some s ∧ s₀.mayArm = true := ⟨_, _, rfl, rfl, rfl⟩
  obtain ⟨s₀, s, hbefore, hlater, hmay⟩ := hrun
  have hends : ∀ a ∈ [Action.packetSent, .tick 200 2000000000, .dataReceived],
      a.endsNewHandshake = false := by simp [Action.endsNewHandshake]
  exact ⟨s₀, s, hbefore, hlater, (timers_due (by decide) hbefore).1 5 _ s hlater hmay hends⟩

/-- The keys of a peer are erased, `REJECT_AFTER_TIME * 3` after the last session was derived: as
long as the interface stays up and the peer alive, where there are keys the timer is pending that
erases them by then, or they are being erased, or a session is being derived. The peer was
created with the interface up, or before, and then no session is begun until it is. -/
theorem keys_erased (hhz : 3 ≤ hz)
    (hrun : (machine hz).run (init jiffies boottime running) actions = some s)
    (hup : ∀ a ∈ actions, a ≠ .down ∧ a ≠ .die)
    (hopen : running = true ∨
      ∃ before after, actions = before ++ .up :: after ∧ .beginSession ∉ before)
    (hkeys : s.keypairs = true) :
    (∃ e ∈ s.zeroKeyMaterial, e ≤ s.derivedAt + rejectAfterTime * 3 * hz) ∨
      s.clearPeerWork = true ∨ 0 < s.derivations ∨ s.suspending = true := by
  have horphaned := run_orphaned hrun hup hopen
  rcases (run_due hhz hrun).2 hkeys with htimer | hwork | hderiving | hsuspending | h
  · exact .inl htimer
  · exact .inr (.inl hwork)
  · exact .inr (.inr (.inl hderiving))
  · exact .inr (.inr (.inr hsuspending))
  · rw [horphaned] at h
    cases h

/-- A session is derived and then left alone. -/
def left : List Action :=
  [.beginSession, .finishDerivation false, .handshakeComplete, .tick 1000 10000000000]

theorem keys_erased_left :
    ∃ s, (machine 100).run (init 0 0 true) left = some s ∧ s.keypairs = true ∧
      ((∃ e ∈ s.zeroKeyMaterial, e ≤ s.derivedAt + rejectAfterTime * 3 * 100) ∨
        s.clearPeerWork = true ∨ 0 < s.derivations ∨ s.suspending = true) := by
  have hrun : ∃ s, (machine 100).run (init 0 0 true) left = some s ∧ s.keypairs = true :=
    ⟨_, rfl, rfl⟩
  obtain ⟨s, hrun, hkeys⟩ := hrun
  exact ⟨s, hrun, hkeys, keys_erased (by decide) hrun (by simp [left]) (.inl rfl) hkeys⟩

end Runs

end AmneziaWg.Timers
