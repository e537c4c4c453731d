import AmneziaWg.Lib.Machine
import Mathlib.Algebra.Order.Ring.Int

/-!
# The timers of a peer

Five timers and two work items carry a peer from one handshake to the next: they repeat
handshakes that are not answered and give up after a while, answer data with a keepalive, start
a handshake when nothing comes back, and erase the keys of a session that is not renewed. All
of this is driven by calls from sending, receiving and configuration, in any order.

* **Model**: every function of `timers.c`, the sending of handshakes and keepalives, and what
  opening, stopping and suspending the interface does to a peer, one step each.
* **Steps**: `Action.enabled` and `Action.apply`; the lemmas after them say what each action
  leaves alone.

Times are numbers that do not wrap: jiffies since boot, and nanoseconds of boot time.
-/

namespace AmneziaWg.Timers

/-! ## Model layer -/

/-- `enum limits`, in seconds. -/
def rekeyTimeout : ℕ := 5
def keepaliveTimeout : ℕ := 10
def rejectAfterTime : ℕ := 180

def maxTimerHandshakes : ℕ := 90 / rekeyTimeout

def nsecPerSec : ℤ := 1000000000

/-- What the sending of initiations reads and writes. -/
structure Handshakes where
  timerHandshakeAttempts : ℕ
  lastSentHandshake : ℤ
  /-- The work item is queued. -/
  transmitHandshakeWork : Bool
  /-- When the worker began that is in `wg_packet_send_handshake_initiation`. -/
  initiating : Option ℤ
  /-- When initiations were sent, since `last_sent_handshake` was reset; the latest first. -/
  initiations : List ℤ
  /-- Initiations sent since `timer_handshake_attempts` was set to 0, and whether one was on its
  way then. -/
  tries : ℕ
  carried : Bool

/-- The timers of `struct wg_peer`: when they expire, if they are pending. -/
structure Pending where
  retransmitHandshake : Option ℕ
  sendKeepalive : Option ℕ
  newHandshake : Option ℕ
  zeroKeyMaterial : Option ℕ
  persistentKeepalive : Option ℕ

/-- The clocks, and whether timers may be armed. -/
structure World where
  jiffies : ℕ
  /-- `ktime_get_coarse_boottime_ns`. -/
  boottime : ℤ
  /-- `netif_running`. -/
  netifRunning : Bool
  isDead : Bool

/-- The keys of the peer, and who is about to erase them. -/
structure Keys where
  /-- The work item is queued. -/
  clearPeerWork : Bool
  /-- There are keypairs. -/
  keypairs : Bool
  /-- Calls between `wg_noise_handshake_begin_session` and `wg_timers_session_derived`. -/
  derivations : ℕ
  /-- `wg_pm_notification` has deleted the timer and not cleared the keys yet. -/
  suspending : Bool
  /-- The timer that erases the keys was refused, or was deleted with the others. -/
  orphaned : Bool
  /-- When `wg_timers_session_derived` was last called. -/
  derivedAt : ℕ

structure State extends Handshakes, Pending, World, Keys where
  sentLastminuteHandshake : Bool
  timerNeedAnotherKeepalive : Bool
  persistentKeepaliveInterval : ℕ
  /-- The length of `staged_packet_queue`. -/
  stagedPackets : ℕ

/-- `wg_peer_create` and `wg_timers_init`, of a device that is up or not. -/
def init (jiffies : ℕ) (boottime : ℤ) (netifRunning : Bool) : State where
  timerHandshakeAttempts := 0
  lastSentHandshake := boottime - (rekeyTimeout + 1) * nsecPerSec
  transmitHandshakeWork := false
  initiating := none
  initiations := []
  tries := 0
  carried := false
  retransmitHandshake := none
  sendKeepalive := none
  newHandshake := none
  zeroKeyMaterial := none
  persistentKeepalive := none
  jiffies := jiffies
  boottime := boottime
  netifRunning := netifRunning
  isDead := false
  sentLastminuteHandshake := false
  timerNeedAnotherKeepalive := false
  persistentKeepaliveInterval := 0
  stagedPackets := 0
  clearPeerWork := false
  keypairs := false
  derivations := 0
  suspending := false
  orphaned := false
  derivedAt := jiffies

/-- `mod_peer_timer` arms timers only then. -/
def World.mayArm (w : World) : Bool := w.netifRunning && !w.isDead

section Functions

variable (hz : ℕ)

/-- `get_random_u32_below(REKEY_TIMEOUT_JITTER_MAX_JIFFIES)`, from a random number. -/
def jitter (rand : ℕ) : ℕ := rand % (hz / 3)

/-- `mod_peer_timer`: what becomes of a timer. -/
def World.modPeerTimer (w : World) (timer : Option ℕ) (expires : ℕ) : Option ℕ :=
  if w.mayArm then some expires else timer

def wgTimersDataSent (rand : ℕ) (s : State) : State :=
  if s.newHandshake.isNone then
    { s with
      newHandshake := s.modPeerTimer s.newHandshake
        (s.jiffies + (keepaliveTimeout + rekeyTimeout) * hz + jitter hz rand) }
  else s

def wgTimersDataReceived (s : State) : State :=
  if s.netifRunning then
    if s.sendKeepalive.isNone then
      { s with
        sendKeepalive := s.modPeerTimer s.sendKeepalive (s.jiffies + keepaliveTimeout * hz) }
    else { s with timerNeedAnotherKeepalive := true }
  else s

def wgTimersAnyAuthenticatedPacketSent (s : State) : State := { s with sendKeepalive := none }

def wgTimersAnyAuthenticatedPacketReceived (s : State) : State := { s with newHandshake := none }

def wgTimersHandshakeInitiated (rand : ℕ) (s : State) : State :=
  { s with
    retransmitHandshake := s.modPeerTimer s.retransmitHandshake
      (s.jiffies + rekeyTimeout * hz + jitter hz rand) }

def wgTimersHandshakeComplete (s : State) : State :=
  { s with
    retransmitHandshake := none
    timerHandshakeAttempts := 0
    sentLastminuteHandshake := false
    tries := 0
    carried := s.initiating.isSome }

def wgTimersSessionDerived (s : State) : State :=
  { s with
    zeroKeyMaterial := s.modPeerTimer s.zeroKeyMaterial (s.jiffies + rejectAfterTime * 3 * hz) }

def wgTimersAnyAuthenticatedPacketTraversal (s : State) : State :=
  if s.persistentKeepaliveInterval ≠ 0 then
    { s with
      persistentKeepalive := s.modPeerTimer s.persistentKeepalive
        (s.jiffies + s.persistentKeepaliveInterval * hz) }
  else s

/-- `wg_timers_stop`. Flushing the work runs it, if it is queued. -/
def wgTimersStop (s : State) : State :=
  { s with
    retransmitHandshake := none
    sendKeepalive := none
    newHandshake := none
    zeroKeyMaterial := none
    persistentKeepalive := none
    clearPeerWork := false
    keypairs := s.keypairs && !s.clearPeerWork
    orphaned := true }

/-- `wg_birthdate_has_expired` of the last handshake. -/
def State.mayInitiate (s : State) : Bool :=
  s.lastSentHandshake + rekeyTimeout * nsecPerSec ≤ s.boottime

def wgPacketSendQueuedHandshakeInitiation (isRetry : Bool) (s : State) : State :=
  let s :=
    if isRetry then s
    else { s with timerHandshakeAttempts := 0, tries := 0, carried := s.initiating.isSome }
  if !s.mayInitiate || s.isDead then s else { s with transmitHandshakeWork := true }

/-- `wg_packet_send_staged_packets`, with a valid key or without one. -/
def wgPacketSendStagedPackets (key : Bool) (s : State) : State :=
  if s.stagedPackets = 0 then s
  else if key then { s with stagedPackets := 0 }
  else wgPacketSendQueuedHandshakeInitiation false s

def wgPacketSendKeepalive (alloc key : Bool) (s : State) : State :=
  if s.stagedPackets = 0 then
    if alloc then wgPacketSendStagedPackets key { s with stagedPackets := 1 } else s
  else wgPacketSendStagedPackets key s

/-- `keep_key_fresh` of the receiving side, by whether the key nears its end. -/
def keepKeyFreshReceived (nearsEnd : Bool) (s : State) : State :=
  if s.sentLastminuteHandshake then s
  else if nearsEnd then
    wgPacketSendQueuedHandshakeInitiation false { s with sentLastminuteHandshake := true }
  else s

/-- `keep_key_fresh` of the sending side, by whether the key is to be renewed. -/
def keepKeyFreshSent (renew : Bool) (s : State) : State :=
  if renew then wgPacketSendQueuedHandshakeInitiation false s else s

def wgExpiredRetransmitHandshake (s : State) : State :=
  if maxTimerHandshakes < s.timerHandshakeAttempts then
    let s := { s with sendKeepalive := none, stagedPackets := 0 }
    if s.zeroKeyMaterial.isNone then
      { s with
        zeroKeyMaterial := s.modPeerTimer s.zeroKeyMaterial
          (s.jiffies + rejectAfterTime * 3 * hz) }
    else s
  else
    wgPacketSendQueuedHandshakeInitiation true
      { s with timerHandshakeAttempts := s.timerHandshakeAttempts + 1 }

def wgExpiredSendKeepalive (alloc key : Bool) (s : State) : State :=
  let s := wgPacketSendKeepalive alloc key s
  if s.timerNeedAnotherKeepalive then
    { s with
      timerNeedAnotherKeepalive := false
      sendKeepalive := s.modPeerTimer s.sendKeepalive (s.jiffies + keepaliveTimeout * hz) }
  else s

def wgExpiredNewHandshake (s : State) : State := wgPacketSendQueuedHandshakeInitiation false s

/-- A peer that is dead keeps its keys until it is removed. -/
def wgExpiredZeroKeyMaterial (s : State) : State :=
  if s.isDead then { s with orphaned := true } else { s with clearPeerWork := true }

def wgExpiredSendPersistentKeepalive (alloc key : Bool) (s : State) : State :=
  if s.persistentKeepaliveInterval ≠ 0 then wgPacketSendKeepalive alloc key s else s

/-- `wg_noise_handshake_clear` and `wg_noise_keypairs_clear`. -/
def clearKeys (s : State) : State := { s with keypairs := false, orphaned := false }

/-- `wg_noise_reset_last_sent_handshake`. -/
def wgNoiseResetLastSentHandshake (s : State) : State :=
  { s with
    lastSentHandshake := s.boottime - (rekeyTimeout + 1) * nsecPerSec
    initiations := [] }

/-- The worker begins: `wg_packet_send_handshake_initiation` up to its message. -/
def beginInitiation (s : State) : State :=
  if s.mayInitiate then
    { s with
      transmitHandshakeWork := false
      lastSentHandshake := s.boottime
      initiating := some s.boottime }
  else { s with transmitHandshakeWork := false }

/-- The rest of it, if the message could be created. -/
def finishInitiation (created : Bool) (rand : ℕ) (s : State) : State :=
  let s := { s with initiating := none }
  if created then
    let s := wgTimersAnyAuthenticatedPacketTraversal hz s
    let s := wgTimersAnyAuthenticatedPacketSent s
    let s := { s with
      lastSentHandshake := s.boottime
      initiations := s.boottime :: s.initiations
      tries := s.tries + 1 }
    wgTimersHandshakeInitiated hz rand s
  else s

/-- A session was derived: `wg_timers_session_derived`, and for the responder the rest of
`wg_packet_send_handshake_response`. -/
def finishDerivation (responder : Bool) (s : State) : State :=
  let s := { s with
    derivations := s.derivations - 1
    orphaned := s.orphaned || (!s.mayArm && s.zeroKeyMaterial.isNone)
    derivedAt := s.jiffies }
  let s := wgTimersSessionDerived hz s
  if responder then
    let s := wgTimersAnyAuthenticatedPacketTraversal hz s
    let s := wgTimersAnyAuthenticatedPacketSent s
    { s with lastSentHandshake := s.boottime }
  else s

/-- The timers. -/
inductive Timer where
  | retransmitHandshake
  | sendKeepalive
  | newHandshake
  | zeroKeyMaterial
  | persistentKeepalive
deriving DecidableEq, Repr

/-- When the timer expires. -/
def Pending.get (p : Pending) : Timer → Option ℕ
  | .retransmitHandshake => p.retransmitHandshake
  | .sendKeepalive => p.sendKeepalive
  | .newHandshake => p.newHandshake
  | .zeroKeyMaterial => p.zeroKeyMaterial
  | .persistentKeepalive => p.persistentKeepalive

/-- The timer is pending and its time has come. -/
def due (timer : Option ℕ) (now : ℕ) : Bool := timer.any (· ≤ now)

/-- A timer expires: it is no longer pending, and its function is called. -/
def expire (alloc key : Bool) (s : State) : Timer → State
  | .retransmitHandshake => wgExpiredRetransmitHandshake hz { s with retransmitHandshake := none }
  | .sendKeepalive => wgExpiredSendKeepalive hz alloc key { s with sendKeepalive := none }
  | .newHandshake => wgExpiredNewHandshake { s with newHandshake := none }
  | .zeroKeyMaterial => wgExpiredZeroKeyMaterial { s with zeroKeyMaterial := none }
  | .persistentKeepalive =>
    wgExpiredSendPersistentKeepalive alloc key { s with persistentKeepalive := none }

inductive Action where
  /-- Time passes. -/
  | tick (jiffies ns : ℕ)
  /-- `wg_xmit` stages a packet. -/
  | stage
  | sendStaged (key : Bool)
  | sendKeepalive (alloc key : Bool)
  | dataSent (rand : ℕ)
  | dataReceived
  | packetSent
  | packetReceived
  | traversal
  | handshakeComplete
  | keepKeyFreshSent (renew : Bool)
  | keepKeyFreshReceived (nearsEnd : Bool)
  /-- `transmit_handshake_work` is run. -/
  | beginInitiation
  | finishInitiation (created : Bool) (rand : ℕ)
  /-- The first statement of `wg_packet_send_handshake_response`. -/
  | respond
  /-- `wg_noise_handshake_begin_session` adds a keypair. -/
  | beginSession
  | finishDerivation (responder : Bool)
  | expire (timer : Timer) (alloc key : Bool)
  /-- `clear_peer_work` is run. -/
  | clear
  | setInterval (seconds : ℕ)
  /-- The interface goes down, is stopped by `wg_stop`, and comes up. -/
  | down
  | stop
  | up
  /-- `peer_make_dead` and `peer_remove_after_dead`. -/
  | die
  | remove
  /-- `wg_pm_notification`, in two steps. -/
  | suspend
  | suspended
  /-- `wg_vm_notification`. -/
  | vmNotification

/-- What may happen in a state. -/
def Action.enabled (s : State) : Action → Bool
  | .beginInitiation => s.transmitHandshakeWork && s.initiating.isNone
  | .finishInitiation _ _ => s.initiating.isSome
  | .beginSession => !s.isDead
  | .finishDerivation _ => 0 < s.derivations
  | .expire timer _ _ => due (s.toPending.get timer) s.jiffies
  | .clear => s.clearPeerWork
  | .setInterval seconds => seconds < 2 ^ 16
  | .stop => !s.netifRunning
  | .remove => s.isDead
  | .suspended => s.suspending
  | _ => true

def Action.apply (s : State) : Action → State
  | .tick jiffies ns => { s with jiffies := s.jiffies + jiffies, boottime := s.boottime + ns }
  | .stage => { s with stagedPackets := s.stagedPackets + 1 }
  | .sendStaged key => wgPacketSendStagedPackets key s
  | .sendKeepalive alloc key => wgPacketSendKeepalive alloc key s
  | .dataSent rand => wgTimersDataSent hz rand s
  | .dataReceived => wgTimersDataReceived hz s
  | .packetSent => wgTimersAnyAuthenticatedPacketSent s
  | .packetReceived => wgTimersAnyAuthenticatedPacketReceived s
  | .traversal => wgTimersAnyAuthenticatedPacketTraversal hz s
  | .handshakeComplete => wgTimersHandshakeComplete s
  | .keepKeyFreshSent renew => Timers.keepKeyFreshSent renew s
  | .keepKeyFreshReceived nearsEnd => Timers.keepKeyFreshReceived nearsEnd s
  | .beginInitiation => Timers.beginInitiation s
  | .finishInitiation created rand => Timers.finishInitiation hz created rand s
  | .respond => { s with lastSentHandshake := s.boottime }
  | .beginSession => { s with keypairs := true, derivations := s.derivations + 1 }
  | .finishDerivation responder => Timers.finishDerivation hz responder s
  | .expire timer alloc key => Timers.expire hz alloc key s timer
  | .clear => clearKeys { s with clearPeerWork := false }
  | .setInterval seconds => { s with persistentKeepaliveInterval := seconds }
  | .down => { s with netifRunning := false }
  | .stop => wgNoiseResetLastSentHandshake (clearKeys (wgTimersStop { s with stagedPackets := 0 }))
  | .up => { s with netifRunning := true }
  | .die => { s with isDead := true }
  | .remove => wgTimersStop (clearKeys s)
  | .suspend => { s with zeroKeyMaterial := none, suspending := true }
  | .suspended => clearKeys { s with suspending := false }
  | .vmNotification => wgNoiseResetLastSentHandshake s

def step (s : State) (a : Action) : Option State :=
  if a.enabled s then some (a.apply hz s) else none

def machine : Machine State Action := ⟨step hz⟩

end Functions

theorem step_eq_some {hz : ℕ} {s s' : State} {a : Action} (h : (machine hz).step s a = some s') :
    a.enabled s = true ∧ a.apply hz s = s' := by
  dsimp only [machine, step] at h
  split at h
  · next henabled => exact ⟨henabled, Option.some.inj h⟩
  · cases h

/-! ## What the functions leave alone -/

section Frame

variable (hz : ℕ) (s : State)

theorem dataSent_eq (rand : ℕ) :
    ∃ timer, wgTimersDataSent hz rand s = { s with newHandshake := timer } := by
  unfold wgTimersDataSent
  split <;> exact ⟨_, rfl⟩

theorem dataReceived_eq :
    ∃ timer another, wgTimersDataReceived hz s =
      { s with sendKeepalive := timer, timerNeedAnotherKeepalive := another } := by
  unfold wgTimersDataReceived
  split
  · split <;> exact ⟨_, _, rfl⟩
  · exact ⟨_, _, rfl⟩

theorem traversal_eq :
    ∃ timer, wgTimersAnyAuthenticatedPacketTraversal hz s =
      { s with persistentKeepalive := timer } := by
  unfold wgTimersAnyAuthenticatedPacketTraversal
  split <;> exact ⟨_, rfl⟩

theorem beginInitiation_eq : ∃ h : Handshakes, beginInitiation s = { s with toHandshakes := h } := by
  unfold beginInitiation
  split <;> exact ⟨_, rfl⟩

/-- An initiation is sent, or could not be created. -/
theorem finishInitiation_eq (created : Bool) (rand : ℕ) :
    ∃ (h : Handshakes) (persistent keepalive retransmit : Option ℕ),
      finishInitiation hz created rand s =
        { s with
          toHandshakes := h
          persistentKeepalive := persistent
          sendKeepalive := keepalive
          retransmitHandshake := retransmit } ∧
      h =
        if created then
          { s.toHandshakes with
            initiating := none
            lastSentHandshake := s.boottime
            initiations := s.boottime :: s.initiations
            tries := s.tries + 1 }
        else { s.toHandshakes with initiating := none } := by
  unfold finishInitiation
  cases created with
  | false => exact ⟨_, _, _, _, rfl, rfl⟩
  | true =>
    obtain ⟨timer, heq⟩ := traversal_eq hz { s with initiating := none }
    dsimp only
    rw [if_pos rfl, heq]
    exact ⟨_, _, _, _, rfl, rfl⟩

theorem finishDerivation_eq (responder : Bool) :
    ∃ (h : Handshakes) (persistent keepalive : Option ℕ),
      finishDerivation hz responder s =
        { s with
          toHandshakes := h
          persistentKeepalive := persistent
          sendKeepalive := keepalive
          zeroKeyMaterial :=
            s.modPeerTimer s.zeroKeyMaterial (s.jiffies + rejectAfterTime * 3 * hz)
          derivations := s.derivations - 1
          orphaned := s.orphaned || (!s.mayArm && s.zeroKeyMaterial.isNone)
          derivedAt := s.jiffies } ∧
      h =
        if responder then { s.toHandshakes with lastSentHandshake := s.boottime }
        else s.toHandshakes := by
  unfold finishDerivation
  cases responder with
  | false => exact ⟨_, _, _, rfl, rfl⟩
  | true =>
    obtain ⟨timer, heq⟩ := traversal_eq hz (wgTimersSessionDerived hz { s with
      derivations := s.derivations - 1
      orphaned := s.orphaned || (!s.mayArm && s.zeroKeyMaterial.isNone)
      derivedAt := s.jiffies })
    dsimp only
    rw [if_pos rfl, heq]
    exact ⟨_, _, _, rfl, rfl⟩

/-- Asking for an initiation leaves everything but the handshakes alone. -/
theorem queued_eq (isRetry : Bool) :
    ∃ h : Handshakes, wgPacketSendQueuedHandshakeInitiation isRetry s =
      { s with toHandshakes := h } := by
  unfold wgPacketSendQueuedHandshakeInitiation
  dsimp only
  split <;> split <;> exact ⟨_, rfl⟩

theorem sendStaged_eq (key : Bool) :
    ∃ (h : Handshakes) (n : ℕ), wgPacketSendStagedPackets key s =
      { s with toHandshakes := h, stagedPackets := n } := by
  unfold wgPacketSendStagedPackets
  split
  · exact ⟨_, _, rfl⟩
  · split
    · exact ⟨_, _, rfl⟩
    · obtain ⟨h, hq⟩ := queued_eq s false
      rw [hq]
      exact ⟨h, _, rfl⟩

theorem sendKeepalive_eq (alloc key : Bool) :
    ∃ (h : Handshakes) (n : ℕ), wgPacketSendKeepalive alloc key s =
      { s with toHandshakes := h, stagedPackets := n } := by
  unfold wgPacketSendKeepalive
  split
  · split
    · obtain ⟨h, n, hs⟩ := sendStaged_eq { s with stagedPackets := 1 } key
      rw [hs]
      exact ⟨h, n, rfl⟩
    · exact ⟨_, _, rfl⟩
  · exact sendStaged_eq s key

theorem keepKeyFreshSent_eq (renew : Bool) :
    ∃ h : Handshakes, keepKeyFreshSent renew s = { s with toHandshakes := h } := by
  unfold keepKeyFreshSent
  split
  · exact queued_eq s false
  · exact ⟨_, rfl⟩

theorem keepKeyFreshReceived_eq (nearsEnd : Bool) :
    ∃ (h : Handshakes) (b : Bool), keepKeyFreshReceived nearsEnd s =
      { s with toHandshakes := h, sentLastminuteHandshake := b } := by
  unfold keepKeyFreshReceived
  split
  · exact ⟨_, _, rfl⟩
  · split
    · obtain ⟨h, hq⟩ := queued_eq { s with sentLastminuteHandshake := true } false
      rw [hq]
      exact ⟨h, true, rfl⟩
    · exact ⟨_, _, rfl⟩

theorem retransmit_eq :
    ∃ (h : Handshakes) (keepalive zero : Option ℕ) (n : ℕ),
      wgExpiredRetransmitHandshake hz s =
        { s with
          toHandshakes := h
          sendKeepalive := keepalive
          zeroKeyMaterial := zero
          stagedPackets := n } := by
  unfold wgExpiredRetransmitHandshake
  split
  · dsimp only
    split <;> exact ⟨_, _, _, _, rfl⟩
  · obtain ⟨h, hq⟩ := queued_eq
      { s with timerHandshakeAttempts := s.timerHandshakeAttempts + 1 } true
    rw [hq]
    exact ⟨h, _, _, _, rfl⟩

theorem keepalive_eq (alloc key : Bool) :
    ∃ (h : Handshakes) (timer : Option ℕ) (n : ℕ) (another : Bool),
      wgExpiredSendKeepalive hz alloc key s =
        { s with
          toHandshakes := h
          sendKeepalive := timer
          stagedPackets := n
          timerNeedAnotherKeepalive := another } := by
  obtain ⟨h, n, hs⟩ := sendKeepalive_eq s alloc key
  unfold wgExpiredSendKeepalive
  rw [hs]
  dsimp only
  split <;> exact ⟨_, _, _, _, rfl⟩

theorem persistent_eq (alloc key : Bool) :
    ∃ (h : Handshakes) (n : ℕ), wgExpiredSendPersistentKeepalive alloc key s =
      { s with toHandshakes := h, stagedPackets := n } := by
  unfold wgExpiredSendPersistentKeepalive
  split
  · exact sendKeepalive_eq s alloc key
  · exact ⟨_, _, rfl⟩

end Frame

/-- What an action does to the clocks and the interface. -/
def Action.world (w : World) : Action → World
  | .tick jiffies ns => { w with jiffies := w.jiffies + jiffies, boottime := w.boottime + ns }
  | .down => { w with netifRunning := false }
  | .up => { w with netifRunning := true }
  | .die => { w with isDead := true }
  | _ => w

/-- The actions that touch the keys or the timer that erases them. -/
def Action.touchesKeys : Action → Bool
  | .beginSession => true
  | .finishDerivation _ => true
  | .expire .retransmitHandshake _ _ => true
  | .expire .zeroKeyMaterial _ _ => true
  | .clear => true
  | .stop => true
  | .remove => true
  | .suspend => true
  | .suspended => true
  | _ => false

/-- The actions that may ask for a handshake, and do nothing else that timers depend on. -/
def Action.asks : Action → Bool
  | .sendStaged _ => true
  | .sendKeepalive _ _ => true
  | .keepKeyFreshSent _ => true
  | .keepKeyFreshReceived _ => true
  | .beginInitiation => true
  | _ => false

theorem apply_of_asks (hz : ℕ) (s : State) {a : Action} (h : a.asks = true) :
    ∃ (h : Handshakes) (n : ℕ) (b : Bool), a.apply hz s =
      { s with toHandshakes := h, stagedPackets := n, sentLastminuteHandshake := b } := by
  cases a with
  | sendStaged key =>
    obtain ⟨h, n, heq⟩ := sendStaged_eq s key
    exact ⟨h, n, _, heq⟩
  | sendKeepalive alloc key =>
    obtain ⟨h, n, heq⟩ := sendKeepalive_eq s alloc key
    exact ⟨h, n, _, heq⟩
  | keepKeyFreshSent renew =>
    obtain ⟨h, heq⟩ := keepKeyFreshSent_eq s renew
    exact ⟨h, _, _, heq⟩
  | keepKeyFreshReceived nearsEnd =>
    obtain ⟨h, b, heq⟩ := keepKeyFreshReceived_eq s nearsEnd
    exact ⟨h, _, b, heq⟩
  | beginInitiation =>
    obtain ⟨h, heq⟩ := beginInitiation_eq s
    exact ⟨h, _, _, heq⟩
  | _ => cases h

theorem expire_frame (hz : ℕ) (s : State) (alloc key : Bool) (timer : Timer) :
    (expire hz alloc key s timer).toWorld = s.toWorld ∧
      ((Action.expire timer alloc key).touchesKeys = false →
        (expire hz alloc key s timer).toKeys = s.toKeys ∧
        (expire hz alloc key s timer).zeroKeyMaterial = s.zeroKeyMaterial) := by
  cases timer with
  | retransmitHandshake =>
    obtain ⟨h, keepalive, zero, n, heq⟩ := retransmit_eq hz { s with retransmitHandshake := none }
    rw [expire, heq]
    exact ⟨rfl, nofun⟩
  | sendKeepalive =>
    obtain ⟨h, timer, n, another, heq⟩ := keepalive_eq hz { s with sendKeepalive := none } alloc key
    rw [expire, heq]
    exact ⟨rfl, fun _ => ⟨rfl, rfl⟩⟩
  | newHandshake =>
    obtain ⟨h, heq⟩ := queued_eq { s with newHandshake := none } false
    rw [expire, wgExpiredNewHandshake, heq]
    exact ⟨rfl, fun _ => ⟨rfl, rfl⟩⟩
  | zeroKeyMaterial =>
    rw [expire, wgExpiredZeroKeyMaterial]
    split <;> exact ⟨rfl, nofun⟩
  | persistentKeepalive =>
    obtain ⟨h, n, heq⟩ := persistent_eq { s with persistentKeepalive := none } alloc key
    rw [expire, heq]
    exact ⟨rfl, fun _ => ⟨rfl, rfl⟩⟩

/-- The frame of a step, said once for all steps. -/
theorem apply_frame (hz : ℕ) (s : State) (a : Action) :
    (a.apply hz s).toWorld = a.world s.toWorld ∧
      (a.touchesKeys = false → (a.apply hz s).toKeys = s.toKeys ∧
        (a.apply hz s).zeroKeyMaterial = s.zeroKeyMaterial) := by
  cases hasks : a.asks with
  | true =>
    obtain ⟨h, n, b, heq⟩ := apply_of_asks hz s hasks
    rw [heq]
    cases a <;> first | exact ⟨rfl, fun _ => ⟨rfl, rfl⟩⟩ | cases hasks
  | false =>
    cases a with
    | dataSent rand =>
      obtain ⟨timer, heq⟩ := dataSent_eq hz s rand
      rw [Action.apply, heq]
      exact ⟨rfl, fun _ => ⟨rfl, rfl⟩⟩
    | dataReceived =>
      obtain ⟨timer, another, heq⟩ := dataReceived_eq hz s
      rw [Action.apply, heq]
      exact ⟨rfl, fun _ => ⟨rfl, rfl⟩⟩
    | traversal =>
      obtain ⟨timer, heq⟩ := traversal_eq hz s
      rw [Action.apply, heq]
      exact ⟨rfl, fun _ => ⟨rfl, rfl⟩⟩
    | finishInitiation created rand =>
      obtain ⟨h, persistent, keepalive, retransmit, heq, -⟩ :=
        finishInitiation_eq hz s created rand
      rw [Action.apply, heq]
      exact ⟨rfl, fun _ => ⟨rfl, rfl⟩⟩
    | finishDerivation responder =>
      obtain ⟨h, persistent, keepalive, heq, -⟩ := finishDerivation_eq hz s responder
      rw [Action.apply, heq]
      exact ⟨rfl, nofun⟩
    | expire timer alloc key => exact expire_frame hz s alloc key timer
    | _ =>
      first
      | exact ⟨rfl, fun _ => ⟨rfl, rfl⟩⟩
      | exact ⟨rfl, fun h => by cases h⟩
      | cases hasks

theorem apply_toWorld (hz : ℕ) (s : State) (a : Action) :
    (a.apply hz s).toWorld = a.world s.toWorld := (apply_frame hz s a).1

end AmneziaWg.Timers
