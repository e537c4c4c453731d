import AmneziaWg.Noise.Handshake
import AmneziaWg.Lib.Machine
import Mathlib.Data.List.Basic

/-!
# Replayed initiations and concurrent workers

`wg_noise_handshake_consume_initiation` compares the timestamp of an initiation with the
latest one under the read lock, and commits under the write lock later. Workers run side
by side, so other workers may check and commit in between. The commit compares again, but
only to decide whether the timestamp is stored: the initiation is accepted anyway.

* **Model**: `checkStep` and `commitStep`, the two critical sections, and the machine of
  any number of workers.
* **Order**: `latest_never_decreases`, over all runs.
* **Safety**: `accepted_once`: a timestamp is accepted once in every run in which no
  worker checks a timestamp that another worker is about to commit; and wherever a
  worker does, two commits accept it twice.
-/

namespace AmneziaWg.Noise.Replay

open Linux
open scoped List

/-! ## Model layer -/

/-- An initiation that was decrypted. -/
structure Authentic where
  src : MessageHandshakeInitiation
  read : ReadInitiation
  timestamp_length : read.timestamp.length = noiseTimestampLen

def Authentic.timestamp (m : Authentic) : Bytes := m.read.timestamp

/-- The handshake of the peer, the workers between check and commit, and the timestamps of
the initiations that were accepted, the last one first. -/
structure State where
  handshake : NoiseHandshake
  pending : List Authentic
  accepted : List Bytes

inductive Label where
  | check (m : Authentic) (now : U64)
  | commit (n : ℕ) (now : U64)

/-- The read-locked section: a worker goes on, or drops the initiation. -/
def checkStep (m : Authentic) (now : U64) (s : State) : State :=
  if Rejected s.handshake m.timestamp now then s else { s with pending := s.pending ++ [m] }

/-- The write-locked section of the `n`-th worker, which returns the peer. -/
def commitStep (n : ℕ) (now : U64) (s : State) : Option State :=
  match s.pending[n]? with
  | none => none
  | some m =>
    some { s with
      handshake := commitInitiation m.src m.read now s.handshake
      pending := s.pending.eraseIdx n
      accepted := m.timestamp :: s.accepted }

def machine : Machine State Label where
  step s
    | .check m now => some (checkStep m now s)
    | .commit n now => commitStep n now s

/-- No worker yet, on a handshake with any timestamp. -/
def start (h : NoiseHandshake) : State := ⟨h, [], []⟩

/-- Undisturbed, the two sections are `wg_noise_handshake_consume_initiation`. -/
theorem consumeInitiation_eq (P : Primitives) (src : MessageHandshakeInitiation)
    (checked committed : U64) (host host' : Host) (r : ReadInitiation)
    (hread : readInitiation P src host = (host', some r)) :
    wgNoiseHandshakeConsumeInitiation P src checked committed host =
      if Rejected (host'.handshake r.peer) r.timestamp checked then (host', none)
      else
        (host'.setHandshake r.peer (commitInitiation src r committed (host'.handshake r.peer)),
          some r.peer) := by
  unfold wgNoiseHandshakeConsumeInitiation
  rw [hread]

/-! ## The latest timestamp -/

theorem memcmp_gt_iff {a b : Bytes} (h : a.length = b.length) :
    memcmp a b = .gt ↔ beValue b < beValue a := by
  rw [memcmp_eq_compare h, Nat.compare_eq_gt]

variable {m : Authentic}

/-- A commit leaves the later one of the two timestamps. -/
theorem commit_latest {h : NoiseHandshake} (hlen : h.latestTimestamp.length = noiseTimestampLen)
    (now : U64) :
    (commitInitiation m.src m.read now h).latestTimestamp.length = noiseTimestampLen ∧
      beValue (commitInitiation m.src m.read now h).latestTimestamp =
        max (beValue h.latestTimestamp) (beValue m.timestamp) := by
  have hcmp : memcmp m.timestamp h.latestTimestamp = .gt ↔
      beValue h.latestTimestamp < beValue m.timestamp :=
    memcmp_gt_iff (m.timestamp_length.trans hlen.symm)
  show (if memcmp m.timestamp h.latestTimestamp = .gt then m.timestamp
      else h.latestTimestamp).length = _ ∧
    beValue (if memcmp m.timestamp h.latestTimestamp = .gt then m.timestamp
      else h.latestTimestamp) = _
  by_cases hgt : memcmp m.timestamp h.latestTimestamp = .gt
  · rw [if_pos hgt, Nat.max_eq_right (Nat.le_of_lt (hcmp.mp hgt))]
    exact ⟨m.timestamp_length, rfl⟩
  · rw [if_neg hgt, Nat.max_eq_left (Nat.not_lt.mp (fun hlt => hgt (hcmp.mpr hlt)))]
    exact ⟨hlen, rfl⟩

/-- What a step can do: drop an initiation, let a worker past the check, or commit one. -/
inductive Step (s : State) : Label → State → Prop
  | dropped (m : Authentic) (now : U64) : Step s (.check m now) s
  | checked (m : Authentic) (now : U64)
      (hnewer : memcmp m.timestamp s.handshake.latestTimestamp = .gt) :
      Step s (.check m now) { s with pending := s.pending ++ [m] }
  | committed (n : ℕ) (now : U64) (m : Authentic) (rest : List Authentic)
      (hperm : m :: rest ~ s.pending) :
      Step s (.commit n now)
        ⟨commitInitiation m.src m.read now s.handshake, rest, m.timestamp :: s.accepted⟩

theorem checkStep_step (m : Authentic) (now : U64) (s : State) :
    Step s (.check m now) (checkStep m now s) := by
  unfold checkStep
  by_cases hrejected : Rejected s.handshake m.timestamp now
  · rw [if_pos hrejected]
    exact .dropped m now
  · rw [if_neg hrejected]
    refine .checked m now ?_
    by_contra hreplay
    exact hrejected (Or.inl hreplay)

variable {s s' : State}

theorem commitStep_step {n : ℕ} {now : U64} (h : commitStep n now s = some s') :
    Step s (.commit n now) s' := by
  unfold commitStep at h
  split at h
  · cases h
  next m hm =>
  cases h
  rcases List.getElem?_eq_some_iff.mp hm with ⟨hn, rfl⟩
  exact .committed n now _ _ (List.getElem_cons_eraseIdx_perm hn)

theorem step_cases {l : Label} (h : machine.step s l = some s') : Step s l s' := by
  cases l with
  | check m now =>
    cases h
    exact checkStep_step m now s
  | commit n now => exact commitStep_step h

/-- The latest timestamp of the second state is that of the first, or later. -/
structure NotBefore (s s' : State) : Prop where
  length : s'.handshake.latestTimestamp.length = noiseTimestampLen
  le : beValue s.handshake.latestTimestamp ≤ beValue s'.handshake.latestTimestamp

theorem notBefore_step {r : State} {l : Label} (h : NotBefore r s)
    (hstep : machine.step s l = some s') : NotBefore r s' := by
  cases step_cases hstep with
  | dropped m now => exact h
  | checked m now hnewer => exact ⟨h.length, h.le⟩
  | committed n now m rest hperm =>
    rcases commit_latest (m := m) h.length now with ⟨hlen, hmax⟩
    refine ⟨hlen, le_trans h.le ?_⟩
    rw [hmax]
    exact Nat.le_max_left ..

/-- Over any run, from any state, the latest timestamp never decreases. -/
theorem latest_never_decreases {ls : List Label}
    (hlen : s.handshake.latestTimestamp.length = noiseTimestampLen)
    (hrun : machine.run s ls = some s') :
    memcmp s'.handshake.latestTimestamp s.handshake.latestTimestamp ≠ .lt := by
  have hafter : NotBefore s s' :=
    machine.run_invariant (fun _ _ _ h hstep => notBefore_step h hstep) ⟨hlen, le_refl _⟩ hrun
  rw [memcmp_eq_compare (hafter.length.trans hlen.symm), ne_eq, Nat.compare_eq_lt]
  exact Nat.not_lt.mpr hafter.le

/-! ## Safety -/

/-- The condition on a check: no worker that is past its own check has the timestamp. -/
def Alone (s : State) : Label → Prop
  | .check m _ => m.timestamp ∉ s.pending.map Authentic.timestamp
  | .commit _ _ => True

structure Inv (s : State) : Prop where
  length : s.handshake.latestTimestamp.length = noiseTimestampLen
  bounded : ∀ t ∈ s.accepted, beValue t ≤ beValue s.handshake.latestTimestamp
  /-- What was accepted and what will be is all different. -/
  nodup : (s.pending.map Authentic.timestamp ++ s.accepted).Nodup

theorem start_inv {h : NoiseHandshake} (hlen : h.latestTimestamp.length = noiseTimestampLen) :
    Inv (start h) := by
  constructor
  · exact hlen
  · intro t ht
    cases ht
  · exact List.nodup_nil

theorem checked_inv (hinv : Inv s) (hnewer : memcmp m.timestamp s.handshake.latestTimestamp = .gt)
    (halone : m.timestamp ∉ s.pending.map Authentic.timestamp) :
    Inv { s with pending := s.pending ++ [m] } := by
  -- a timestamp that passes the check is later than all that were accepted
  have hnew : m.timestamp ∉ s.accepted := by
    intro hmem
    have hlater : beValue s.handshake.latestTimestamp < beValue m.timestamp :=
      (memcmp_gt_iff (m.timestamp_length.trans hinv.length.symm)).mp hnewer
    exact absurd (hinv.bounded _ hmem) (Nat.not_le.mpr hlater)
  refine ⟨hinv.length, hinv.bounded, ?_⟩
  show ((s.pending ++ [m]).map Authentic.timestamp ++ s.accepted).Nodup
  have hperm : (s.pending ++ [m]).map Authentic.timestamp ++ s.accepted ~
      m.timestamp :: (s.pending.map Authentic.timestamp ++ s.accepted) := by
    rw [List.map_append, List.append_assoc]
    exact List.perm_middle
  rw [hperm.nodup_iff, List.nodup_cons]
  refine ⟨?_, hinv.nodup⟩
  rw [List.mem_append]
  rintro (hmem | hmem)
  · exact halone hmem
  · exact hnew hmem

theorem committed_inv (hinv : Inv s) (now : U64) {rest : List Authentic}
    (hperm : m :: rest ~ s.pending) :
    Inv ⟨commitInitiation m.src m.read now s.handshake, rest, m.timestamp :: s.accepted⟩ := by
  rcases commit_latest (m := m) hinv.length now with ⟨hlen, hmax⟩
  constructor
  · exact hlen
  · intro t ht
    show beValue t ≤ beValue (commitInitiation m.src m.read now s.handshake).latestTimestamp
    rw [hmax]
    rcases List.mem_cons.mp ht with rfl | ht
    · exact Nat.le_max_right ..
    · exact le_trans (hinv.bounded t ht) (Nat.le_max_left ..)
  · -- the timestamp only moves over
    have hmove : rest.map Authentic.timestamp ++ m.timestamp :: s.accepted ~
        s.pending.map Authentic.timestamp ++ s.accepted :=
      List.perm_middle.trans ((hperm.map Authentic.timestamp).append_right s.accepted)
    exact hmove.nodup_iff.mpr hinv.nodup

theorem step_inv : ∀ s l s', Inv s → Alone s l → machine.step s l = some s' → Inv s' := by
  intro s l s' hinv halone hstep
  cases step_cases hstep with
  | dropped m now => exact hinv
  | checked m now hnewer => exact checked_inv hinv hnewer halone
  | committed n now m rest hperm => exact committed_inv hinv now hperm

/-- Two workers past the check with one timestamp both commit it. -/
theorem accepted_again {now : U64} (hpass : ¬ Rejected s.handshake m.timestamp now)
    (halone : ¬ Alone s (.check m now)) :
    ∃ i s', machine.run s [.check m now, .commit s.pending.length now, .commit i now] = some s' ∧
      ¬ s'.accepted.Nodup := by
  rcases List.mem_map.mp (not_not.mp halone) with ⟨q, hq, hsame⟩
  rcases List.getElem?_of_mem hq with ⟨i, hi⟩
  have hcheck : checkStep m now s = { s with pending := s.pending ++ [m] } := by
    unfold checkStep
    rw [if_neg hpass]
  -- the newcomer commits first, then the worker that was there before
  have hfirst : commitStep s.pending.length now { s with pending := s.pending ++ [m] } =
      some ⟨commitInitiation m.src m.read now s.handshake, s.pending,
        m.timestamp :: s.accepted⟩ := by
    simp [commitStep, List.eraseIdx_append_of_length_le]
  refine ⟨i, ⟨commitInitiation q.src q.read now (commitInitiation m.src m.read now s.handshake),
    s.pending.eraseIdx i, q.timestamp :: m.timestamp :: s.accepted⟩, ?_, ?_⟩
  · rw [machine.run_cons]
    show machine.run (checkStep m now s) _ = _
    rw [hcheck, machine.run_cons]
    show (commitStep s.pending.length now _).bind _ = _
    rw [hfirst]
    show machine.run _ [.commit i now] = _
    rw [machine.run_cons]
    show (commitStep i now _).bind _ = _
    unfold commitStep
    dsimp only
    rw [hi]
    rfl
  · rw [hsame]
    simp

/-- Acceptance, over any number of workers and any interleaving.
* From any handshake, a run in which no worker passes the check with a timestamp that
  another worker is about to commit accepts no timestamp twice.
* In any state in which a worker does, two commits accept it twice.
* In every run, the latest timestamp never decreases. -/
theorem accepted_once (h : NoiseHandshake) (hlen : h.latestTimestamp.length = noiseTimestampLen) :
    (∀ ls s, machine.AllSteps Alone (start h) ls → machine.run (start h) ls = some s →
      s.accepted.Nodup) ∧
    (∀ s m now, ¬ Rejected s.handshake m.timestamp now → ¬ Alone s (.check m now) →
      ∃ i s', machine.run s [.check m now, .commit s.pending.length now, .commit i now] = some s' ∧
        ¬ s'.accepted.Nodup) ∧
    (∀ s ls s', s.handshake.latestTimestamp.length = noiseTimestampLen →
      machine.run s ls = some s' →
      memcmp s'.handshake.latestTimestamp s.handshake.latestTimestamp ≠ .lt) := by
  refine ⟨?_, ?_, ?_⟩
  · intro ls s halone hrun
    have hinv : Inv s := machine.runs_invariant step_inv (start_inv hlen) halone hrun
    exact (List.nodup_append.mp hinv.nodup).2.1
  · intro s m now hpass halone
    exact accepted_again hpass halone
  · intro s ls s' hlen hrun
    exact latest_never_decreases hlen hrun

/-! ## Runs -/

instance decidableAlone (s : State) : (l : Label) → Decidable (Alone s l)
  | .check m _ => inferInstanceAs (Decidable (m.timestamp ∉ s.pending.map Authentic.timestamp))
  | .commit _ _ => .isTrue trivial

instance (s : State) (ls : List Label) : Decidable (machine.AllSteps Alone s ls) :=
  machine.decidableAllSteps decidableAlone s ls

/-- A handshake with the timestamp of a new peer. -/
def newHandshake : NoiseHandshake where
  index := 0
  state := .zeroed
  lastInitiationConsumption := 0
  ephemeralPrivate := []
  remoteStatic := []
  remoteEphemeral := []
  precomputedStaticStatic := []
  presharedKey := []
  sym := ⟨[], []⟩
  latestTimestamp := List.replicate noiseTimestampLen 0
  remoteIndex := 0

/-- An initiation with a timestamp that ends in `b`. -/
def initiation (b : U8) : Authentic where
  src := ⟨1, 0, [], [], []⟩
  read := ⟨0, [], List.replicate 11 0 ++ [b], ⟨[], []⟩⟩
  timestamp_length := rfl

/-- A copy of one initiation in each of two workers: both check before one commits, and
the timestamp is accepted twice. -/
theorem accepted_twice :
    (machine.run (start newHandshake) [.check (initiation 1) 1000000000,
        .check (initiation 1) 1000000000, .commit 0 1000000000, .commit 0 1000000000]).map
          State.accepted = some [(initiation 1).timestamp, (initiation 1).timestamp] ∧
      ¬ [(initiation 1).timestamp, (initiation 1).timestamp].Nodup := by
  constructor
  · decide +kernel
  · simp

/-- Two workers with different initiations, and a copy that comes late. -/
theorem accepted_once_overlapping :
    ∃ s, machine.run (start newHandshake) [.check (initiation 1) 1000000000,
        .check (initiation 2) 1000000000, .commit 1 1000000000, .commit 0 1000000000,
        .check (initiation 1) 2000000000] = some s ∧
      s.accepted = [(initiation 1).timestamp, (initiation 2).timestamp] ∧ s.accepted.Nodup := by
  have halone : machine.AllSteps Alone (start newHandshake) [.check (initiation 1) 1000000000,
      .check (initiation 2) 1000000000, .commit 1 1000000000, .commit 0 1000000000,
      .check (initiation 1) 2000000000] := by
    decide +kernel
  refine ⟨_, rfl, ?_, (accepted_once newHandshake rfl).1 _ _ halone rfl⟩
  decide +kernel

end AmneziaWg.Noise.Replay
