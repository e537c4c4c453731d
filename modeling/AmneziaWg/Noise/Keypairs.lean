import AmneziaWg.Noise.Handshake
import AmneziaWg.Lib.Machine
import Mathlib.Data.List.Nodup
import Mathlib.Data.List.ReduceOption
import Mathlib.Data.List.Perm.Basic

/-!
# The keypair slots of a peer

A peer has three slots for keypairs, and each slot holds a reference. New keypairs
come in, `wg_noise_received_with_keypair` confirms the one in the `next` slot, and
`wg_noise_keypairs_clear` empties all three.

* **Model**: `SlotStep`, what a transition leaves in the slots and the puts that it
  makes; the three functions on a host, which are these transitions followed by these
  puts (`addNewKeypair_eq` and its siblings); the machine. The references are the
  signed `refcount` that `wgNoiseKeypairPut` takes one off.
* **Conservation**: every transition moves references, `SlotStep.Conserves`.
* **Safety**: `slots_safe`, over all runs from empty slots.
-/

namespace AmneziaWg.Noise

open Linux
open scoped List

/-! ## Model layer -/

/-- The slots after a transition, and the puts that it makes, in order; a put of `NULL`
does nothing. -/
structure SlotStep where
  slots : NoiseKeypairs
  puts : List (Option ℕ)

/-- `add_new_keypair`. -/
def addSlots (initiator : Bool) (id : ℕ) (s : NoiseKeypairs) : SlotStep :=
  if initiator then
    match s.next with
    | some next => ⟨⟨some id, some next, none⟩, [s.current, s.previous]⟩
    | none => ⟨⟨some id, s.current, none⟩, [s.previous]⟩
  else ⟨⟨s.current, none, some id⟩, [s.next, s.previous]⟩

/-- `wg_noise_received_with_keypair`, once the keypair is known to be the next one. -/
def confirmSlots (received : ℕ) (s : NoiseKeypairs) : SlotStep :=
  ⟨⟨some received, s.current, none⟩, [s.previous]⟩

/-- `wg_noise_keypairs_clear`. -/
def clearSlots (s : NoiseKeypairs) : SlotStep :=
  ⟨⟨none, none, none⟩, [s.next, s.previous, s.current]⟩

/-- Make the puts, unreferencing at once. -/
def putAll (puts : List (Option ℕ)) (host : Host) : Host :=
  puts.foldl (fun host keypair => wgNoiseKeypairPut keypair true host) host

/-- Perform a transition on the slots of a peer. -/
def perform (p : ℕ) (step : NoiseKeypairs → SlotStep) (host : Host) : Host :=
  putAll (step (host.peers p).keypairs).puts
    (host.setKeypairs p (step (host.peers p).keypairs).slots)

/-- `wg_noise_received_with_keypair`. The slot is looked at without the lock first, and
again with it. -/
def wgNoiseReceivedWithKeypair (p received : ℕ) (host : Host) : Host × Bool :=
  if (host.peers p).keypairs.next ≠ some received then (host, false)
  else if (host.peers p).keypairs.next ≠ some received then (host, false)
  else
    let slots := (host.peers p).keypairs
    let host := host.setKeypairs p { slots with previous := slots.current }
    let host := wgNoiseKeypairPut slots.previous true host
    (host.setKeypairs p ⟨some received, slots.current, none⟩, true)

/-- `wg_noise_keypairs_clear`. -/
def wgNoiseKeypairsClear (p : ℕ) (host : Host) : Host :=
  let slots := (host.peers p).keypairs
  let host := host.setKeypairs p { slots with next := none }
  let host := wgNoiseKeypairPut slots.next true host
  let host := host.setKeypairs p { slots with next := none, previous := none }
  let host := wgNoiseKeypairPut slots.previous true host
  let host := host.setKeypairs p ⟨none, none, none⟩
  wgNoiseKeypairPut slots.current true host

/-- `keypair_create`: a keypair with a new `internal_id` and one reference. -/
def keypairCreate (keypair : NoiseKeypair) (host : Host) : Host :=
  { host with
    keypairs := Function.update host.keypairs (host.keypairCounter + 1)
      { keypair with refcount := 1 }
    keypairCounter := host.keypairCounter + 1 }

/-- A host, with the keypairs that were added and those that
`wg_noise_received_with_keypair` returned true for. -/
structure Slots where
  host : Host
  added : List ℕ
  confirmed : List ℕ

inductive SlotLabel where
  | add (keypair : NoiseKeypair)
  | received (id : ℕ)
  | clear

def slotsOf (p : ℕ) (host : Host) : NoiseKeypairs := (host.peers p).keypairs

/-- Empty slots, on any host. -/
def startSlots (p : ℕ) (host : Host) : Slots :=
  ⟨host.setKeypairs p ⟨none, none, none⟩, [], []⟩

/-- The functions on the slots of peer `p`. The answer is what
`wg_noise_received_with_keypair` returns; the others return nothing. -/
def slotMachine (p : ℕ) : Mealy Slots SlotLabel (Option Bool) where
  step s
    | .add keypair =>
      let host := keypairCreate keypair s.host
      let id := host.keypairCounter
      ({ s with host := addNewKeypair p id host, added := id :: s.added }, none)
    | .received id =>
      match wgNoiseReceivedWithKeypair p id s.host with
      | (host, false) => ({ s with host := host }, some false)
      | (host, true) => ({ s with host := host, confirmed := id :: s.confirmed }, some true)
    | .clear => ({ s with host := wgNoiseKeypairsClear p s.host }, none)

/-! ## Transitions on a host -/

theorem put_setKeypairs (keypair : Option ℕ) (p : ℕ) (slots : NoiseKeypairs) (host : Host) :
    wgNoiseKeypairPut keypair true (host.setKeypairs p slots) =
      (wgNoiseKeypairPut keypair true host).setKeypairs p slots := by
  cases keypair with
  | none => rfl
  | some id => rfl

theorem setKeypairs_setKeypairs (p : ℕ) (slots slots' : NoiseKeypairs) (host : Host) :
    (host.setKeypairs p slots).setKeypairs p slots' = host.setKeypairs p slots' := by
  unfold Host.setKeypairs Host.setPeer
  simp

theorem addNewKeypair_eq (p id : ℕ) (host : Host) :
    addNewKeypair p id host = perform p (addSlots (host.keypairs id).iAmTheInitiator id) host := by
  unfold addNewKeypair perform addSlots
  dsimp only
  split
  · cases (host.peers p).keypairs.next with
    | some next => rfl
    | none => rfl
  · rfl

theorem receivedWithKeypair_eq (p received : ℕ) (host : Host) :
    wgNoiseReceivedWithKeypair p received host =
      if (slotsOf p host).next = some received then (perform p (confirmSlots received) host, true)
      else (host, false) := by
  unfold wgNoiseReceivedWithKeypair
  by_cases hnext : (slotsOf p host).next = some received
  · have hnext' : ¬ (host.peers p).keypairs.next ≠ some received := not_not.mpr hnext
    rw [if_neg hnext', if_neg hnext', if_pos hnext]
    dsimp only
    rw [← put_setKeypairs, setKeypairs_setKeypairs]
    rfl
  · have hnext' : (host.peers p).keypairs.next ≠ some received := hnext
    rw [if_pos hnext', if_neg hnext]

theorem keypairsClear_eq (p : ℕ) (host : Host) :
    wgNoiseKeypairsClear p host = perform p clearSlots host := by
  unfold wgNoiseKeypairsClear
  dsimp only
  simp only [← put_setKeypairs, setKeypairs_setKeypairs]
  rfl

theorem released_putAll (puts : List (Option ℕ)) (host : Host) :
    Released host (putAll puts host) := by
  induction puts generalizing host with
  | nil => exact ⟨rfl, fun _ _ => Iff.rfl, fun _ => ⟨rfl, rfl, rfl, rfl⟩⟩
  | cons keypair puts ih => exact (released_put keypair true host).trans (ih _)

theorem counter_putAll (puts : List (Option ℕ)) (host : Host) :
    (putAll puts host).keypairCounter = host.keypairCounter := by
  induction puts generalizing host with
  | nil => rfl
  | cons keypair puts ih =>
    refine (ih _).trans ?_
    cases keypair <;> rfl

/-- Each put takes one reference. -/
theorem refcount_putAll (puts : List (Option ℕ)) (host : Host) (id : ℕ) :
    ((putAll puts host).keypairs id).refcount =
      (host.keypairs id).refcount - puts.reduceOption.count id := by
  induction puts generalizing host with
  | nil => simp [putAll]
  | cons keypair puts ih =>
    refine (ih _).trans ?_
    cases keypair with
    | none => rfl
    | some id' =>
      rw [List.reduceOption_cons_of_some, List.count_cons]
      by_cases hid : id = id'
      · subst hid
        simp [wgNoiseKeypairPut]
        omega
      · have hne : ¬ id' = id := fun h => hid h.symm
        simp [wgNoiseKeypairPut, Function.update_of_ne hid, hne]

/-- A transition leaves its slots, the roles and the counter, and its puts in the
reference counts. -/
theorem perform_spec (p : ℕ) (step : NoiseKeypairs → SlotStep) (host : Host) :
    slotsOf p (perform p step host) = (step (slotsOf p host)).slots ∧
      (perform p step host).keypairCounter = host.keypairCounter ∧
      ∀ id, ((perform p step host).keypairs id).iAmTheInitiator =
          (host.keypairs id).iAmTheInitiator ∧
        ((perform p step host).keypairs id).refcount =
          (host.keypairs id).refcount - (step (slotsOf p host)).puts.reduceOption.count id := by
  unfold perform
  refine ⟨?_, counter_putAll .., ?_⟩
  · rw [slotsOf, (released_putAll ..).peers, Host.setKeypairs, Host.setPeer_peers_self]
    rfl
  · intro id
    exact ⟨((released_putAll ..).keys id).iAmTheInitiator, refcount_putAll ..⟩

/-! ## Conservation -/

/-- The keypairs in the slots. -/
def held (s : NoiseKeypairs) : List ℕ := [s.current, s.previous, s.next].reduceOption

/-- The references held before, and the new ones, are held after or put. -/
def SlotStep.Conserves (step : SlotStep) (s : NoiseKeypairs) (new : List ℕ) : Prop :=
  held step.slots ++ step.puts.reduceOption ~ new ++ held s

/-- A list of optional entries, entry by entry. -/
theorem count_reduceOption_cons (id : ℕ) (keypair : Option ℕ) (l : List (Option ℕ)) :
    (keypair :: l).reduceOption.count id = keypair.toList.count id + l.reduceOption.count id := by
  cases keypair with
  | none => simp
  | some id' => simp [List.count_cons, Nat.add_comm]

theorem addSlots_conserves (initiator : Bool) (id : ℕ) (s : NoiseKeypairs) :
    (addSlots initiator id s).Conserves s [id] := by
  refine List.perm_iff_count.mpr ?_
  intro a
  unfold addSlots held
  cases initiator with
  | true =>
    cases hnext : s.next with
    | some next =>
      simp only [if_true, List.count_append, count_reduceOption_cons, List.reduceOption_nil,
        List.count_nil, Option.toList_some, Option.toList_none]
      omega
    | none =>
      simp only [if_true, List.count_append, count_reduceOption_cons, List.reduceOption_nil,
        List.count_nil, Option.toList_some, Option.toList_none]
      omega
  | false =>
    simp only [Bool.false_eq_true, if_false, List.count_append, count_reduceOption_cons,
      List.reduceOption_nil, List.count_nil, Option.toList_some, Option.toList_none]
    omega

theorem confirmSlots_conserves {received : ℕ} {s : NoiseKeypairs} (h : s.next = some received) :
    (confirmSlots received s).Conserves s [] := by
  refine List.perm_iff_count.mpr ?_
  intro a
  simp only [confirmSlots, held, h, List.count_append, count_reduceOption_cons,
    List.reduceOption_nil, List.count_nil, Option.toList_some, Option.toList_none]
  omega

theorem clearSlots_conserves (s : NoiseKeypairs) : (clearSlots s).Conserves s [] := by
  refine List.perm_iff_count.mpr ?_
  intro a
  simp only [clearSlots, held, List.count_append, count_reduceOption_cons, List.reduceOption_nil,
    List.count_nil, Option.toList_none]
  omega

/-! ## Safety -/

/-- The books of the references, from the counts `start` on: every keypair in a slot, or in
`new` and about to enter one, has one reference, every other one that was added has
none, and no other count has changed. -/
structure Ledger (p : ℕ) (start : ℕ → ℤ) (new : List ℕ) (host : Host) (added : List ℕ) : Prop where
  nodup : (new ++ held (slotsOf p host)).Nodup
  known : ∀ id ∈ new ++ held (slotsOf p host), id ∈ added
  counted : ∀ id, (host.keypairs id).refcount =
    (new ++ held (slotsOf p host)).count id + (if id ∈ added then 0 else start id)

/-- A transition that conserves references keeps the books. -/
theorem Ledger.perform {p : ℕ} {start : ℕ → ℤ} {new added : List ℕ} {host : Host}
    {step : NoiseKeypairs → SlotStep} (h : Ledger p start new host added)
    (hstep : (step (slotsOf p host)).Conserves (slotsOf p host) new) :
    Ledger p start [] (perform p step host) added := by
  rcases perform_spec p step host with ⟨hslots, -, hkeypairs⟩
  constructor
  · rw [hslots]
    exact (List.nodup_append.mp (hstep.nodup_iff.mpr h.nodup)).1
  · rw [hslots]
    intro id hid
    exact h.known id (hstep.mem_iff.mp (List.mem_append_left _ hid))
  · -- what is put has left the slots, and what has left them is put
    intro id
    have hcount := hstep.count_eq id
    rw [List.count_append] at hcount
    rw [(hkeypairs id).2, h.counted id, hslots, List.nil_append]
    omega

structure SlotInv (p : ℕ) (start : ℕ → ℤ) (s : Slots) : Prop where
  ledger : Ledger p start [] s.host s.added
  old : ∀ id ∈ s.added, id ≤ s.host.keypairCounter
  next : ∀ id, (slotsOf p s.host).next = some id →
    (s.host.keypairs id).iAmTheInitiator = false
  current : ∀ id, (slotsOf p s.host).current = some id →
    (s.host.keypairs id).iAmTheInitiator = true ∨ id ∈ s.confirmed

theorem start_slotInv (p : ℕ) (host : Host) :
    SlotInv p (fun id => (host.keypairs id).refcount) (startSlots p host) := by
  have hslots : slotsOf p (startSlots p host).host = ⟨none, none, none⟩ := by
    simp [slotsOf, startSlots, Host.setKeypairs]
  constructor
  · constructor
    · rw [hslots]
      exact List.nodup_nil
    · rw [hslots]
      intro id hid
      cases hid
    · rw [hslots]
      intro id
      exact (Int.zero_add _).symm
  · intro id hid
    cases hid
  · intro id hid
    rw [hslots] at hid
    cases hid
  · intro id hid
    rw [hslots] at hid
    cases hid

section Steps

variable {p : ℕ} {start : ℕ → ℤ} {s : Slots}

/-- A keypair in a slot was added. -/
theorem SlotInv.mem_added (hinv : SlotInv p start s) {id : ℕ}
    (h : id ∈ held (slotsOf p s.host)) : id ∈ s.added :=
  hinv.ledger.known id h

theorem mem_held {slots : NoiseKeypairs} {id : ℕ} :
    id ∈ held slots ↔
      slots.current = some id ∨ slots.previous = some id ∨ slots.next = some id := by
  simp [held, List.reduceOption_mem_iff, eq_comm]

/-- A new keypair is in the books, but in no slot. -/
theorem create_ledger (hinv : SlotInv p start s) (keypair : NoiseKeypair) :
    Ledger p start [s.host.keypairCounter + 1] (keypairCreate keypair s.host)
      ((s.host.keypairCounter + 1) :: s.added) := by
  have hfresh : s.host.keypairCounter + 1 ∉ s.added := by
    intro hmem
    have := hinv.old _ hmem
    omega
  have hslot : s.host.keypairCounter + 1 ∉ held (slotsOf p s.host) :=
    fun hmem => hfresh (hinv.mem_added hmem)
  constructor
  · exact List.nodup_cons.mpr ⟨hslot, hinv.ledger.nodup⟩
  · intro id hid
    rcases List.mem_cons.mp hid with rfl | hid
    · exact List.mem_cons_self ..
    · exact List.mem_cons_of_mem _ (hinv.mem_added hid)
  · intro id
    by_cases hid : id = s.host.keypairCounter + 1
    · -- its one reference is the one it was created with
      subst hid
      have hzero : (held (slotsOf p (keypairCreate keypair s.host))).count
          (s.host.keypairCounter + 1) = 0 := List.count_eq_zero_of_not_mem hslot
      rw [List.singleton_append, List.count_cons_self, hzero, if_pos (List.mem_cons_self ..)]
      simp [keypairCreate]
    · have hsame : ((keypairCreate keypair s.host).keypairs id).refcount =
          (s.host.keypairs id).refcount := by
        simp [keypairCreate, Function.update_of_ne hid]
      have hcount : ([s.host.keypairCounter + 1] ++
          held (slotsOf p (keypairCreate keypair s.host))).count id =
          (held (slotsOf p s.host)).count id := List.count_cons_of_ne (Ne.symm hid)
      have hadded : id ∈ (s.host.keypairCounter + 1) :: s.added ↔ id ∈ s.added :=
        List.mem_cons.trans (or_iff_right hid)
      rw [hsame, hcount, hinv.ledger.counted id]
      simp only [hadded, List.nil_append]

/-- What a transition leaves of the invariant, if its slots are as they should be. -/
theorem SlotInv.perform {new added confirmed : List ℕ} {host : Host}
    {step : NoiseKeypairs → SlotStep} (hledger : Ledger p start new host added)
    (hstep : (step (slotsOf p host)).Conserves (slotsOf p host) new)
    (hold : ∀ id ∈ added, id ≤ host.keypairCounter)
    (hnext : ∀ id, (step (slotsOf p host)).slots.next = some id →
      (host.keypairs id).iAmTheInitiator = false)
    (hcurrent : ∀ id, (step (slotsOf p host)).slots.current = some id →
      (host.keypairs id).iAmTheInitiator = true ∨ id ∈ confirmed) :
    SlotInv p start ⟨Noise.perform p step host, added, confirmed⟩ := by
  rcases perform_spec p step host with ⟨hslots, hcounter, hkeypairs⟩
  constructor
  · exact hledger.perform hstep
  · intro id hid
    rw [hcounter]
    exact hold id hid
  · intro id hid
    rw [hslots] at hid
    rw [(hkeypairs id).1]
    exact hnext id hid
  · intro id hid
    rw [hslots] at hid
    rw [(hkeypairs id).1]
    exact hcurrent id hid

theorem add_slotInv (hinv : SlotInv p start s) (keypair : NoiseKeypair) :
    SlotInv p start ((slotMachine p).step s (.add keypair)).1 := by
  have hrole : ∀ id, id ∈ s.added → ((keypairCreate keypair s.host).keypairs id).iAmTheInitiator =
      (s.host.keypairs id).iAmTheInitiator := by
    intro id hid
    have hne : id ≠ s.host.keypairCounter + 1 := by
      have := hinv.old id hid
      omega
    simp [keypairCreate, Function.update_of_ne hne]
  dsimp only [slotMachine]
  rw [addNewKeypair_eq]
  refine SlotInv.perform (create_ledger hinv keypair) (addSlots_conserves ..) ?_ ?_ ?_
  · intro id hid
    rcases List.mem_cons.mp hid with rfl | hid
    · exact le_refl _
    · exact le_trans (hinv.old id hid) (Nat.le_succ _)
  · -- only a responder enters the next slot
    intro id hid
    unfold addSlots at hid
    split at hid
    · split at hid <;> cases hid
    · next hresponder =>
      cases hid
      exact Bool.eq_false_iff.mpr hresponder
  · intro id hid
    unfold addSlots at hid
    split at hid
    · next hinitiator =>
      left
      split at hid
      · cases hid
        exact hinitiator
      · cases hid
        exact hinitiator
    · -- a responder leaves the current keypair alone
      have hmem : id ∈ s.added := hinv.mem_added (mem_held.mpr (Or.inl hid))
      rw [hrole id hmem]
      exact hinv.current id hid

theorem received_slotInv (hinv : SlotInv p start s) (id : ℕ) :
    SlotInv p start ((slotMachine p).step s (.received id)).1 := by
  dsimp only [slotMachine]
  rw [receivedWithKeypair_eq]
  by_cases hnext : (slotsOf p s.host).next = some id
  · rw [if_pos hnext]
    refine SlotInv.perform hinv.ledger (confirmSlots_conserves hnext) hinv.old ?_ ?_
    · intro id' hid'
      cases hid'
    · intro id' hid'
      cases hid'
      exact Or.inr (List.mem_cons_self ..)
  · rw [if_neg hnext]
    exact ⟨hinv.ledger, hinv.old, hinv.next, hinv.current⟩

theorem clear_slotInv (hinv : SlotInv p start s) :
    SlotInv p start ((slotMachine p).step s .clear).1 := by
  dsimp only [slotMachine]
  rw [keypairsClear_eq]
  refine SlotInv.perform hinv.ledger (clearSlots_conserves _) hinv.old ?_ ?_
  · intro id hid
    cases hid
  · intro id hid
    cases hid

end Steps

theorem step_slotInv {p : ℕ} {start : ℕ → ℤ} :
    ∀ s l, SlotInv p start s → SlotInv p start ((slotMachine p).step s l).1 := by
  intro s l hinv
  cases l with
  | add keypair => exact add_slotInv hinv keypair
  | received id => exact received_slotInv hinv id
  | clear => exact clear_slotInv hinv

/-- From empty slots, after any sequence of the three functions: no keypair is in two
slots; a keypair that was added, with one reference, is in a slot and has it still, or
is in no slot and its count is zero, not less: the reference was put, once; only those
that were added are in a slot, and no other count has changed; the next slot holds a
responder's keypair, and the current one an initiator's or a confirmed one. -/
theorem slots_safe (p : ℕ) (host : Host) (ls : List SlotLabel) :
    let s := (slotMachine p).after (startSlots p host) ls
    (held (slotsOf p s.host)).Nodup ∧
      (∀ id ∈ s.added, (s.host.keypairs id).refcount =
        if id ∈ held (slotsOf p s.host) then 1 else 0) ∧
      (∀ id ∈ held (slotsOf p s.host), id ∈ s.added) ∧
      (∀ id, id ∉ s.added → (s.host.keypairs id).refcount = (host.keypairs id).refcount) ∧
      (∀ id, (slotsOf p s.host).next = some id →
        (s.host.keypairs id).iAmTheInitiator = false) ∧
      (∀ id, (slotsOf p s.host).current = some id →
        (s.host.keypairs id).iAmTheInitiator = true ∨ id ∈ s.confirmed) := by
  intro s
  have hinv : SlotInv p (fun id => (host.keypairs id).refcount) s :=
    (slotMachine p).after_invariant step_slotInv (start_slotInv p host) ls
  have hcounted : ∀ id, (s.host.keypairs id).refcount = (held (slotsOf p s.host)).count id +
        (if id ∈ s.added then 0 else (host.keypairs id).refcount) := hinv.ledger.counted
  have hnodup : (held (slotsOf p s.host)).Nodup := hinv.ledger.nodup
  refine ⟨hnodup, ?_, hinv.ledger.known, ?_, hinv.next, hinv.current⟩
  · intro id hid
    rw [hcounted id, if_pos hid, Int.add_zero]
    by_cases hheld : id ∈ held (slotsOf p s.host)
    · rw [if_pos hheld, List.count_eq_one_of_mem hnodup hheld]
      rfl
    · rw [if_neg hheld, List.count_eq_zero_of_not_mem hheld]
      rfl
  · intro id hid
    have hheld : id ∉ held (slotsOf p s.host) := fun hmem => hid (hinv.mem_added hmem)
    rw [hcounted id, if_neg hid, List.count_eq_zero_of_not_mem hheld]
    exact Int.zero_add _

end AmneziaWg.Noise
