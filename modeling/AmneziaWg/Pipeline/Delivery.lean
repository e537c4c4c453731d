import AmneziaWg.Pipeline.Wakeup

/-!
# What becomes of the packets

A packet holds a reference to its keypair and to its peer from its submission until it is
refused or processed; whoever sets its state holds one more to the peer, because the packet may
be processed at once. The packets whose cipher succeeded are offered in order.

* **References**: `Balanced`, the counts are those of the packets on their way, and others.
* **Log**: `Logged`, what was delivered.
* **Safety**: `Orderly` over all runs.
-/

namespace AmneziaWg.Pipeline

open Threads PrevQueue

/-! ## References -/

section References

variable {σ : Type} {d : Direction σ} {s s' u : State σ} {r : Ref}

/-- The packet holds the reference. -/
def uses (d : Direction σ) : Ref → ℕ → Bool
  | .peer p, id => d.peer id = p
  | .keypair k, id => d.keypair id = k

/-- The peer in whose queue the packets stand that hold the reference. -/
def Ref.home (d : Direction σ) : Ref → ℕ
  | .peer p => p
  | .keypair k => d.owner k

theorem home_of_uses {id : ℕ} (h : uses d r id = true) : d.peer id = r.home d := by
  cases r with
  | peer p => exact of_decide_eq_true h
  | keypair k => exact congrArg d.owner (of_decide_eq_true h)

/-- The reference of a call that has set the state of a packet. -/
def Thread.puts : Thread → List Ref
  | .notify _ p => [.peer p]
  | .put _ p => [.peer p]
  | _ => []

/-- The packets whose reference has been put. -/
def released (d : Direction σ) (s : State σ) (r : Ref) : ℕ :=
  s.refused.countP (uses d r) + (s.processed (r.home d)).countP (uses d r)

def Balanced (d : Direction σ) (s : State σ) : Prop :=
  ∀ r, s.refs r + released d s r =
    s.others r + (List.range s.next).countP (uses d r) + (s.threads.flatMap Thread.puts).count r

theorem init_balanced (refs : Ref → ℕ) : Balanced d (init d refs) := fun r => by
  simp [init, released]

/-- Packets that have been refused or processed have come, once. -/
theorem released_subperm (haccounts : Accounts d s) (hserving : AllServing s) (p : ℕ) :
    List.Subperm (s.refused ++ s.processed p) (List.range s.next) := by
  rw [List.subperm_ext_iff]
  intro id hid
  have honce := haccounts.once id
  have hsub := (processed_initial_segment haccounts hserving p).sublist
  have hcount : (s.processed p).count id ≤ (s.queues (d.peer id)).admitted.count id := by
    by_cases hmem : id ∈ s.processed p
    · rw [haccounts.own p id (mem_admitted_of_exchanged (haccounts.sound p) (hsub.mem hmem)),
        (haccounts.sound p).inv.admitted.count_eq, List.count_append]
      exact (hsub.count_le id).trans (Nat.le_add_left _ _)
    · rw [List.count_eq_zero_of_not_mem hmem]
      exact Nat.zero_le _
  have hpos := List.count_pos_iff.mpr hid
  rw [List.count_append] at hpos ⊢
  have hlt : id < s.next := by
    by_contra hge
    rw [if_neg hge] at honce
    omega
  rw [if_pos hlt] at honce
  rw [List.count_eq_one_of_mem List.nodup_range (List.mem_range.mpr hlt)]
  omega

theorem released_le (haccounts : Accounts d s) (hserving : AllServing s) (r : Ref) :
    released d s r ≤ (List.range s.next).countP (uses d r) := by
  have hle := (released_subperm haccounts hserving (r.home d)).countP_le (uses d r)
  rwa [List.countP_append] at hle

theorem put_refs (r' : Ref) : (s.put r').refs r = s.refs r - [r'].count r := by
  by_cases hr : r = r'
  · simp [State.put, hr]
  · have hne : r' ≠ r := fun heq => hr heq.symm
    simp [State.put, hr, hne]

theorem get_refs (r' : Ref) : (s.get r').refs r = s.refs r + [r'].count r := by
  by_cases hr : r = r'
  · simp [State.get, hr]
  · have hne : r' ≠ r := fun heq => hr heq.symm
    simp [State.get, hr, hne]

/-- The two references of a packet. -/
theorem countP_uses (id : ℕ) :
    [id].countP (uses d r) =
      [Ref.keypair (d.keypair id)].count r + [Ref.peer (d.peer id)].count r := by
  cases r with
  | peer p => by_cases hp : d.peer id = p <;> simp [uses, hp]
  | keypair k => by_cases hk : d.keypair id = k <;> simp [uses, hk]

theorem putBoth_refs (id : ℕ) : (s.putBoth d id).refs r = s.refs r - [id].countP (uses d r) := by
  unfold State.putBoth
  rw [put_refs, put_refs, countP_uses, Nat.sub_sub]

theorem getBoth_refs (id : ℕ) : (s.getBoth d id).refs r = s.refs r + [id].countP (uses d r) := by
  unfold State.getBoth
  rw [get_refs, get_refs, countP_uses, Nat.add_assoc]

/-- A step of a call takes and puts the references that it accounts for. -/
theorem Advanced.balance {t : Thread} {o : Option Thread} (hadvanced : Advanced d s t u o)
    (hheld : t.puts.count r + released d u r ≤ s.refs r + released d s r) :
    u.others r = s.others r ∧ u.next = s.next ∧
      u.refs r + released d u r + t.puts.count r =
        s.refs r + released d s r + (o.toList.flatMap Thread.puts).count r := by
  cases hadvanced with
  | refuse id =>
    refine ⟨rfl, rfl, ?_⟩
    have hreleased : released d { s.putBoth d id with refused := s.refused ++ [id] } r =
        released d s r + [id].countP (uses d r) := by
      unfold released
      rw [List.countP_append]
      show _ + (s.processed (r.home d)).countP (uses d r) = _
      omega
    rw [hreleased] at hheld ⊢
    have hrefs := putBoth_refs (d := d) (s := s) (r := r) id
    simp only [Thread.puts, Option.toList_none, List.flatMap_nil, List.count_nil] at hheld ⊢
    omega
  | set cpu id ok =>
    refine ⟨rfl, rfl, ?_⟩
    have hrefs := get_refs (s := s) (r := r) (.peer (d.peer id))
    show (s.get _).refs r + released d s r + _ = _
    simp only [Thread.puts, Option.toList_some, List.flatMap_singleton, List.count_nil]
    omega
  | put cpu p =>
    refine ⟨rfl, rfl, ?_⟩
    have hrefs := put_refs (s := s) (r := r) (.peer p)
    have hnone : ((cpu.map Thread.consume).toList.flatMap Thread.puts).count r = 0 := by
      cases cpu <;> rfl
    have hreleased : released d (s.put (.peer p)) r = released d s r := rfl
    rw [hnone, hreleased]
    rw [hreleased] at hheld
    simp only [Thread.puts] at hheld ⊢
    omega
  | _ => exact ⟨rfl, rfl, rfl⟩

theorem thread_balanced {i : ℕ} {t : Thread} {o : Option Thread} (h : Balanced d s)
    (ht : s.threads[i]? = some t) (hadvanced : Advanced d s t u o)
    (haccounts : Accounts d { u with threads := resume s.threads i o })
    (hserving : AllServing { u with threads := resume s.threads i o }) :
    Balanced d { u with threads := resume s.threads i o } := by
  intro r
  have hbefore := h r
  have hcount := count_flatMap_resume Thread.puts ht o r
  have hthread := (flatMap_thread_perm Thread.puts ht).count_eq r
  rw [List.count_append] at hthread
  have hnext := hadvanced.once.1
  have hreleased : released d u r ≤ (List.range u.next).countP (uses d r) :=
    released_le haccounts hserving r
  rw [hnext] at hreleased
  obtain ⟨hothers, -, hbalance⟩ := hadvanced.balance (r := r) (by omega)
  show u.refs r + released d u r = u.others r + (List.range u.next).countP (uses d r) +
    ((resume s.threads i o).flatMap Thread.puts).count r
  rw [hothers, hnext]
  omega

/-- The end of the loop's body puts the references of its packet. -/
theorem settle_balanced {p n id : ℕ} {ok : Bool} (h : Balanced d s) (haccounts : Accounts d s)
    (hserving : AllServing s) (hrun : (s.serial p).run = some (.finish n id ok)) (w : Serial)
    (haccounts' : Accounts d { s.settle d p id ok with serial := Function.update s.serial p w })
    (hserving' : AllServing { s.settle d p id ok with serial := Function.update s.serial p w }) :
    Balanced d { s.settle d p id ok with serial := Function.update s.serial p w } := by
  intro r
  have hpeer := peer_of_inHand haccounts hserving hrun
  have hbefore := h r
  have hle := released_le haccounts' hserving' r
  have hreleased : released d { s.settle d p id ok with serial := Function.update s.serial p w } r =
      released d s r + [id].countP (uses d r) := by
    unfold released
    have hrefused : (s.settle d p id ok).refused = s.refused := by cases ok <;> rfl
    simp only [settle_processed, hrefused]
    by_cases hhome : r.home d = p
    · rw [hhome, Function.update_self, List.countP_append]
      omega
    · rw [Function.update_of_ne hhome]
      have hnot : uses d r id = false := by
        refine Bool.eq_false_iff.mpr fun huses => hhome ?_
        rw [← home_of_uses huses, hpeer]
      simp [hnot]
  have hrest : (s.settle d p id ok).next = s.next ∧ (s.settle d p id ok).others = s.others ∧
      (s.settle d p id ok).threads = s.threads ∧
      (s.settle d p id ok).refs r = s.refs r - [id].countP (uses d r) := by
    cases ok
    · exact ⟨rfl, rfl, rfl, putBoth_refs id⟩
    · exact ⟨rfl, rfl, rfl, putBoth_refs (s := s.offer d id) id⟩
  obtain ⟨hnext, hothers, hthreads, hrefs⟩ := hrest
  rw [hreleased] at hle ⊢
  dsimp only at hle ⊢
  rw [hnext] at hle
  rw [hnext, hothers, hthreads, hrefs]
  omega

theorem poll_balanced {p : ℕ} {pc : Poll} (h : Balanced d s) (haccounts : Accounts d s)
    (hserving : AllServing s) (hrun : (s.serial p).run = some pc) (hpolled : Polled d s p pc s')
    (haccounts' : Accounts d s') (hserving' : AllServing s') : Balanced d s' := by
  cases hpolled with
  | finish n id ok w hw =>
    exact settle_balanced h haccounts hserving hrun w haccounts' hserving'
  | _ => exact h

theorem step_balanced {a : Action} (h : Balanced d s) (haccounts : Accounts d s) (hserving : AllServing s)
    (hstep : Stepped d s a s') : Balanced d s' := by
  have haccounts' := step_accounts haccounts hstep
  have hserving' := step_serving haccounts hserving hstep
  cases hstep with
  | submit =>
    intro r
    have hbefore := h r
    have hrefs := getBoth_refs (d := d) (s := s) (r := r) s.next
    show (s.getBoth d s.next).refs r + released d s r =
      s.others r + (List.range (s.next + 1)).countP (uses d r) +
        ((s.threads ++ [Thread.alive s.next]).flatMap Thread.puts).count r
    rw [List.range_succ, List.countP_append, List.flatMap_append, List.count_append]
    simp only [List.flatMap_singleton, Thread.puts, List.count_nil]
    omega
  | thread i c t o u ht hadvanced =>
    exact thread_balanced h ht hadvanced haccounts' hserving'
  | run cpu hkicked =>
    intro r
    have hbefore := h r
    show s.refs r + released d s r = s.others r + _ +
      ((s.threads ++ [Thread.consume cpu]).flatMap Thread.puts).count r
    rw [List.flatMap_append, List.count_append]
    exact hbefore
  | poll p pc u hrun hpolled =>
    exact poll_balanced h haccounts hserving hrun hpolled haccounts' hserving'
  | get r' =>
    intro r
    have hbefore := h r
    have hrefs := get_refs (s := s) (r := r) r'
    have hothers : Function.update s.others r' (s.others r' + 1) r = s.others r + [r'].count r := by
      by_cases hr : r = r'
      · simp [hr]
      · have hne : r' ≠ r := fun heq => hr heq.symm
        simp [hr, hne]
    show (s.get r').refs r + released d s r = Function.update s.others r' _ r +
      (List.range s.next).countP (uses d r) + (s.threads.flatMap Thread.puts).count r
    rw [hothers]
    omega
  | put r' hheld =>
    intro r
    have hbefore := h r
    have hle := released_le haccounts hserving r
    have hrefs := put_refs (s := s) (r := r) r'
    have hothers : Function.update s.others r' (s.others r' - 1) r + [r'].count r = s.others r := by
      by_cases hr : r = r'
      · rw [hr, Function.update_self, List.count_singleton_self]
        omega
      · have hne : r' ≠ r := fun heq => hr heq.symm
        simp [hr, hne]
    show (s.put r').refs r + released d s r = Function.update s.others r' (s.others r' - 1) r +
      (List.range s.next).countP (uses d r) + (s.threads.flatMap Thread.puts).count r
    omega
  | _ => exact h

end References

/-! ## Log -/

section Log

variable {σ : Type} {d : Direction σ} {s s' : State σ}

/-- The serial work offers the packets one after the other. -/
def replay (d : Direction σ) (ids : List ℕ) : σ × List ℕ :=
  ids.foldl
    (fun a id =>
      ((d.accept a.1 id).1, if (d.accept a.1 id).2 then a.2 ++ [id] else a.2))
    (d.start, [])

theorem replay_append_singleton (ids : List ℕ) (id : ℕ) :
    replay d (ids ++ [id]) =
      ((d.accept (replay d ids).1 id).1,
        if (d.accept (replay d ids).1 id).2 then (replay d ids).2 ++ [id]
        else (replay d ids).2) := by
  unfold replay
  rw [List.foldl_append]
  rfl

theorem replay_sublist (ids : List ℕ) : (replay d ids).2.Sublist ids := by
  induction ids using List.reverseRecOn with
  | nil => exact List.Sublist.refl _
  | append_singleton ids id ih =>
    rw [replay_append_singleton]
    dsimp only
    split
    · exact ih.append (List.Sublist.refl _)
    · exact ih.trans (List.sublist_append_left _ _)

/-- The packets whose cipher succeeded are offered in the order of each peer's queue. -/
structure Logged (d : Direction σ) (s : State σ) : Prop where
  replayed : (s.env, s.delivered) = replay d s.offered
  offered : ∀ p, s.offered.filter (d.peer · = p) = (s.processed p).filter (s.cb · = .crypted)

theorem init_logged (refs : Ref → ℕ) : Logged d (init d refs) := ⟨rfl, fun _ => rfl⟩

theorem settle_logged {p n id : ℕ} {ok : Bool} (h : Logged d s) (haccounts : Accounts d s)
    (hserving : AllServing s) (hrun : (s.serial p).run = some (.finish n id ok)) (w : Serial) :
    Logged d { s.settle d p id ok with serial := Function.update s.serial p w } := by
  have hpeer := peer_of_inHand haccounts hserving hrun
  obtain ⟨-, hcb⟩ := (hserving p).finishing n id ok hrun
  have hoffered : ∀ p', (s.settle d p id ok).offered.filter (d.peer · = p') =
      s.offered.filter (d.peer · = p') ++ if ok = true ∧ p' = p then [id] else [] := by
    intro p'
    cases ok with
    | false => simp [State.settle, State.putBoth, State.put]
    | true =>
      show (s.offered ++ [id]).filter _ = _
      rw [List.filter_append]
      by_cases hp : p' = p
      · simp [hpeer, hp]
      · have hne : p ≠ p' := fun heq => hp heq.symm
        simp [hpeer, hp, hne]
  constructor
  · cases ok with
    | false => exact h.replayed
    | true =>
      show ((d.accept s.env id).1,
        if (d.accept s.env id).2 then s.delivered ++ [id] else s.delivered) =
        replay d (s.offered ++ [id])
      rw [replay_append_singleton, ← h.replayed]
  · intro p'
    show (s.settle d p id ok).offered.filter _ = ((s.settle d p id ok).processed p').filter
      ((s.settle d p id ok).cb · = .crypted)
    rw [hoffered, settle_cb, settle_processed, h.offered p']
    by_cases hp : p' = p
    · subst hp
      rw [Function.update_self, List.filter_append]
      cases ok <;> simp [hcb, done]
    · rw [Function.update_of_ne hp]
      simp [hp]

theorem step_logged {a : Action} (h : Logged d s) (haccounts : Accounts d s) (hserving : AllServing s)
    (hstep : Stepped d s a s') : Logged d s' := by
  cases hstep with
  | thread i c t o u ht hadvanced =>
    have hmem := List.mem_of_getElem? ht
    -- the state of a processed packet does not change any more
    have hcb : ∀ p, ∀ id ∈ s.processed p, u.cb id = s.cb id := by
      intro p id hid
      have hin := mem_admitted_of_exchanged (haccounts.sound p)
        ((processed_initial_segment haccounts hserving p).mem hid)
      have hne := (hserving p).processed id hid
      cases hadvanced with
      | alive x =>
        have hout := haccounts.not_admitted hmem (List.mem_singleton_self x) p
        have hother : id ≠ x := fun heq => hout (heq ▸ hin)
        exact Function.update_of_ne hother _ _
      | set cpu x ok =>
        have hx := (haccounts.of_token hmem (List.mem_singleton_self x)).1
        have hother : id ≠ x := fun heq => hne (heq ▸ hx)
        exact Function.update_of_ne hother _ _
      | _ => rfl
    have hsame : u.env = s.env ∧ u.delivered = s.delivered ∧ u.offered = s.offered ∧
        u.processed = s.processed := by
      cases hadvanced <;> exact ⟨rfl, rfl, rfl, rfl⟩
    obtain ⟨henv, hdelivered, hoffered, hprocessed⟩ := hsame
    constructor
    · show (u.env, u.delivered) = replay d u.offered
      rw [henv, hdelivered, hoffered]
      exact h.replayed
    · intro p
      show u.offered.filter _ = (u.processed p).filter (u.cb · = .crypted)
      rw [hoffered, hprocessed, h.offered p]
      refine List.filter_congr fun id hid => ?_
      rw [hcb p id hid]
  | poll p pc u hrun hpolled =>
    cases hpolled with
    | finish n id ok w hw => exact settle_logged h haccounts hserving hrun w
    | _ => exact ⟨h.replayed, h.offered⟩
  | _ => exact ⟨h.replayed, h.offered⟩

end Log

end AmneziaWg.Pipeline
