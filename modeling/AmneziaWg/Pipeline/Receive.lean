import AmneziaWg.Pipeline.Drain
import AmneziaWg.Counter

/-!
# Receiving in order, and once

`wg_packet_rx_poll` checks the counters of the packets that were decrypted, in the order in
which the packets came and not in the order in which the workers decrypted them. A packet is
handed on when its keypair has not seen its counter.

* **Model**: `receiving`, the direction of `decrypt_queue` and `rx_queue`.
* **Safety**: `receive_in_order`, over all runs.
-/

namespace AmneziaWg.Pipeline

open Counter Linux

/-- `decrypt_queue`, `rx_queue` and `wg_packet_rx_poll`. The serial work validates the counter of
a decrypted packet, and hands the packet on if its endpoint can be read. -/
def receiving (keypair owner : ℕ → ℕ) (nonce : ℕ → U64) (endpoint : ℕ → Bool) (cpus budget : ℕ) :
    Direction (ℕ → NoiseReplayCounter) where
  keypair := keypair
  owner := owner
  cpus := cpus
  budget := some budget
  start := fun _ => zeroed
  accept := fun counters id =>
    let r := counterValidate (counters (keypair id)) (nonce id)
    (Function.update counters (keypair id) r.1, r.2 && endpoint id)

section Receiving

variable {keypair owner : ℕ → ℕ} {nonce : ℕ → U64} {endpoint : ℕ → Bool} {cpus budget : ℕ}

theorem after_append_singleton (counter : NoiseReplayCounter) (cs : List U64) (c : U64) :
    Counter.machine.after counter (cs ++ [c]) =
      (counterValidate (Counter.machine.after counter cs) c).1 := by
  induction cs generalizing counter with
  | nil => rfl
  | cons c' cs ih => exact ih _

theorem accepted_append_singleton (counter : NoiseReplayCounter) (cs : List U64) (c : U64) :
    accepted counter (cs ++ [c]) = accepted counter cs ++
      if (counterValidate (Counter.machine.after counter cs) c).2 then [c.toNat] else [] := by
  induction cs generalizing counter with
  | nil =>
    rw [List.nil_append]
    rfl
  | cons c' cs ih =>
    simp only [List.cons_append, accepted, ih]
    split <;> rfl

/-- The counters of the packets of a keypair. -/
def noncesOf (keypair : ℕ → ℕ) (nonce : ℕ → U64) (k : ℕ) (ids : List ℕ) : List U64 :=
  (ids.filter (keypair · = k)).map nonce

theorem noncesOf_append_singleton (k : ℕ) (ids : List ℕ) (id : ℕ) :
    noncesOf keypair nonce k (ids ++ [id]) =
      noncesOf keypair nonce k ids ++ if keypair id = k then [nonce id] else [] := by
  unfold noncesOf
  rw [List.filter_append, List.map_append]
  by_cases hk : keypair id = k <;> simp [hk]

/-- The packets that pass their counter, of those that are offered. -/
def validated (keypair owner : ℕ → ℕ) (nonce : ℕ → U64) (cpus budget : ℕ) (ids : List ℕ) :
    List ℕ :=
  (replay (receiving keypair owner nonce (fun _ => true) cpus budget) ids).2

/-- Each keypair validates the counters of its own packets, in the order they are offered. -/
theorem replay_counters (ids : List ℕ) (k : ℕ) :
    (replay (receiving keypair owner nonce endpoint cpus budget) ids).1 k =
      Counter.machine.after zeroed (noncesOf keypair nonce k ids) := by
  induction ids using List.reverseRecOn with
  | nil => rfl
  | append_singleton ids id ih =>
    rw [replay_append_singleton, noncesOf_append_singleton]
    show Function.update _ (keypair id) _ k = _
    by_cases hk : keypair id = k
    · subst hk
      rw [Function.update_self, if_pos rfl, after_append_singleton, ← ih]
    · rw [Function.update_of_ne fun heq => hk heq.symm, if_neg hk, List.append_nil]
      exact ih

theorem receiving_accept (counters : ℕ → NoiseReplayCounter) (id : ℕ) :
    ((receiving keypair owner nonce endpoint cpus budget).accept counters id).2 =
      ((counterValidate (counters (keypair id)) (nonce id)).2 && endpoint id) := rfl

/-- Of those, the packets with an endpoint are handed on. -/
theorem replay_endpoint (ids : List ℕ) :
    (replay (receiving keypair owner nonce endpoint cpus budget) ids).2 =
      (validated keypair owner nonce cpus budget ids).filter endpoint := by
  unfold validated
  induction ids using List.reverseRecOn with
  | nil => rfl
  | append_singleton ids id ih =>
    rw [replay_append_singleton, replay_append_singleton, ih, receiving_accept,
      receiving_accept, replay_counters, replay_counters, Bool.and_true]
    cases (counterValidate _ (nonce id)).2 with
    | false => rfl
    | true =>
      rw [Bool.true_and, if_pos rfl, List.filter_append]
      cases hid : endpoint id <;> simp [hid]

/-- A keypair lets those packets pass that its replay counter accepts. -/
theorem validated_accepted (ids : List ℕ) (k : ℕ) :
    (noncesOf keypair nonce k (validated keypair owner nonce cpus budget ids)).map BitVec.toNat =
      accepted zeroed (noncesOf keypair nonce k ids) := by
  unfold validated
  induction ids using List.reverseRecOn with
  | nil => rfl
  | append_singleton ids id ih =>
    rw [replay_append_singleton, noncesOf_append_singleton]
    by_cases hk : keypair id = k
    · subst hk
      rw [if_pos rfl, accepted_append_singleton, receiving_accept, replay_counters,
        Bool.and_true, ← ih]
      dsimp only
      split
      · rw [noncesOf_append_singleton, if_pos rfl, List.map_append]
        rfl
      · rw [List.append_nil]
    · rw [if_neg hk, List.append_nil, ← ih]
      dsimp only
      split
      · rw [noncesOf_append_singleton, if_neg hk, List.append_nil]
      · rfl

/-- Whatever the order in which workers decrypt: the packets of a peer are handed on in the
order in which they came, each after its decryption succeeded, and no keypair hands on two
packets with one counter. Of the packets that were decrypted, in the order in which they came,
those are handed on that have an endpoint and a counter that their keypair accepts. -/
theorem receive_in_order {refs : Ref → ℕ} {as : List Action} {s : State (ℕ → NoiseReplayCounter)}
    (hrun : (machine (receiving keypair owner nonce endpoint cpus budget)).run
      (init (receiving keypair owner nonce endpoint cpus budget) refs) as = some s) :
    (∀ p, (s.delivered.filter fun id => owner (keypair id) = p).Sublist (s.queues p).exchanged) ∧
      (∀ id ∈ s.delivered, s.cb id = .crypted) ∧
      (∀ k, (noncesOf keypair nonce k s.delivered).Nodup) ∧
      (∀ p, (s.offered.filter fun id => owner (keypair id) = p) =
        (s.processed p).filter fun id => s.cb id = .crypted) ∧
      s.delivered = (validated keypair owner nonce cpus budget s.offered).filter endpoint ∧
      (∀ k, (noncesOf keypair nonce k
          (validated keypair owner nonce cpus budget s.offered)).map BitVec.toNat =
        accepted zeroed (noncesOf keypair nonce k s.offered)) := by
  have h := (run_inv hrun).orderly
  have hsub := replay_sublist (d := receiving keypair owner nonce endpoint cpus budget) s.offered
  rw [← h.delivered] at hsub
  refine ⟨fun p => ?_, fun id hid => ?_, fun k => ?_, h.offered,
    h.delivered.trans (replay_endpoint s.offered), validated_accepted s.offered⟩
  · have hoffered := hsub.filter fun id => decide (owner (keypair id) = p)
    have hprocessed : (s.offered.filter fun id => owner (keypair id) = p) = _ := h.offered p
    rw [hprocessed] at hoffered
    exact (hoffered.trans List.filter_sublist).trans (h.order p).sublist
  · have hprocessed : (s.offered.filter fun x => owner (keypair x) = owner (keypair id)) = _ :=
      h.offered _
    have hmem : id ∈ s.offered.filter fun x => owner (keypair x) = owner (keypair id) :=
      List.mem_filter.mpr ⟨hsub.mem hid, by simp⟩
    rw [hprocessed] at hmem
    exact of_decide_eq_true (List.mem_filter.mp hmem).2
  · have hnodup := accepted_nodup tracked_zeroed List.nodup_nil (noncesOf keypair nonce k s.offered)
    have haccepted : (noncesOf keypair nonce k
        (validated keypair owner nonce cpus budget s.offered)).map BitVec.toNat = _ :=
      validated_accepted s.offered k
    rw [List.nil_append, ← haccepted] at hnodup
    rw [h.delivered, replay_endpoint]
    exact hnodup.of_map.sublist ((List.filter_sublist.filter _).map _)

/-- Two copies of one packet, decrypted on two CPUs, the second first: one is handed on. -/
theorem receive_in_order_copies :
    ∃ s, (machine (receiving (fun _ => 0) (fun _ => 0) (fun _ => 7) (fun _ => true) 2 64)).run
        (init (receiving (fun _ => 0) (fun _ => 0) (fun _ => 7) (fun _ => true) 2 64) fun _ => 1)
        catchingUp = some s ∧
      s.processed 0 = [0, 1] ∧
      (noncesOf (fun _ => 0) (fun _ => 7) 0 s.delivered).Nodup := by
  have hrun : ∃ s,
      (machine (receiving (fun _ => 0) (fun _ => 0) (fun _ => 7) (fun _ => true) 2 64)).run
        (init (receiving (fun _ => 0) (fun _ => 0) (fun _ => 7) (fun _ => true) 2 64) fun _ => 1)
        catchingUp = some s ∧ s.processed 0 = [0, 1] := ⟨_, rfl, rfl⟩
  obtain ⟨s, hs, hprocessed⟩ := hrun
  exact ⟨s, hs, hprocessed, (receive_in_order hs).2.2.1 0⟩

end Receiving

end AmneziaWg.Pipeline
