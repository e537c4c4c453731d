import AmneziaWg.Lib.Linux
import AmneziaWg.Lib.Machine
import AmneziaWg.Lib.TokenBucket
import Mathlib.Logic.Function.Basic

/-!
# The handshake rate limiter

`ratelimiter.c` keeps a token bucket for every source, in two hash tables, and sweeps them
once a second. A sweep reads the clock once, at its start, and then takes the buckets of
the tables one after the other; between two of them calls go on.

* **Model**: `wgRatelimiterAllow`, `gcBucket`, and the machine of calls, ticks of the clock
  and sweeps.
* **Accounts**: `available`, the tokens a source could spend. A call pays for itself
  (`charge_available`), and a sweep may only forget full buckets (`gc_available`).
* **Safety**: `allowed_within_rate`, over all runs in which no sweep comes to an entry
  that was used after the sweep began and within the last second.
-/

namespace AmneziaWg.Ratelimiter

open Linux TokenBucket

/-! ## Model layer -/

def nsecPerSec : ℕ := 1000000000
def packetsPerSecond : ℕ := 20
def packetsBurstable : ℕ := 5
def packetCost : ℕ := nsecPerSec / packetsPerSecond
def tokenMax : ℕ := packetCost * packetsBurstable

/-- The two tables. -/
inductive Family where
  | v4
  | v6
deriving DecidableEq, Repr

/-- `struct ratelimiter_entry`; `net` is the address of the network namespace. -/
structure RatelimiterEntry where
  lastTimeNs : U64
  tokens : U64
  ip : U64
  net : U64
deriving DecidableEq, Repr

/-- Where a packet comes from: an IPv4 address, the two halves of an IPv6 address, or
another protocol. -/
inductive Source where
  | ip (saddr : U32)
  | ipv6 (high low : U64)
  | other
deriving DecidableEq, Repr

/-- What an entry is looked up by. Of an IPv6 address only the first half counts. -/
structure Key where
  family : Family
  ip : U64
  net : U64
deriving DecidableEq, Repr

def keyOf (net : U64) : Source → Option Key
  | .ip saddr => some ⟨.v4, saddr.setWidth 64, net⟩
  | .ipv6 high _ => some ⟨.v6, high, net⟩
  | .other => none

def RatelimiterEntry.Has (e : RatelimiterEntry) (k : Key) : Prop := e.net = k.net ∧ e.ip = k.ip

instance (e : RatelimiterEntry) (k : Key) : Decidable (e.Has k) :=
  inferInstanceAs (Decidable (_ ∧ _))

/-- A table: its buckets by number. -/
abbrev Buckets := ℕ → List RatelimiterEntry

/-- What does not change after `wg_ratelimiter_init`. `hash` is the keyed hash, cut to the
size of the tables. -/
structure Config where
  tableSize : ℕ
  maxEntries : ℕ
  hash : Key → ℕ
  hash_lt : ∀ k, hash k < tableSize

/-- A sweep that is under way: the clock at its start, and the next bucket. -/
structure Sweep where
  now : U64
  next : ℕ
deriving DecidableEq, Repr

/-- A call that returned true. -/
structure Grant where
  key : Key
  time : U64
deriving DecidableEq, Repr

/-- An entry that a sweep took out. -/
structure Removal where
  entry : RatelimiterEntry
  time : U64
deriving DecidableEq, Repr

/-- The tables and counters, the clock, and what happened so far. -/
structure State where
  clock : U64
  table : Family → Buckets
  totalEntries : ℕ
  /-- Entries that RCU has not freed yet. -/
  freeing : ℕ
  sweep : Option Sweep
  grants : List Grant
  removals : List Removal

/-- The tokens of an entry, with those earned since it was used. The sum is in 64 bits. -/
def refill (now : U64) (e : RatelimiterEntry) : U64 :=
  let sum := e.tokens + now - e.lastTimeNs
  if BitVec.ofNat 64 tokenMax ≤ sum then BitVec.ofNat 64 tokenMax else sum

/-- A known source: the new entry, and whether the packet passes. -/
def charge (now : U64) (e : RatelimiterEntry) : RatelimiterEntry × Bool :=
  let ret := decide (BitVec.ofNat 64 packetCost ≤ refill now e)
  ({ e with
      lastTimeNs := now
      tokens := if ret then refill now e - BitVec.ofNat 64 packetCost else refill now e }, ret)

/-- The walk over a bucket: the first entry of the source is charged. -/
def chargeFirst (now : U64) (k : Key) : List RatelimiterEntry → Option (List RatelimiterEntry × Bool)
  | [] => none
  | e :: es =>
    if e.Has k then some ((charge now e).1 :: es, (charge now e).2)
    else (chargeFirst now k es).map fun r => (e :: r.1, r.2)

/-- The entry of a source that was not known. -/
def newEntry (now : U64) (k : Key) : RatelimiterEntry :=
  ⟨now, BitVec.ofNat 64 (tokenMax - packetCost), k.ip, k.net⟩

def State.setBucket (s : State) (k : Key) (i : ℕ) (es : List RatelimiterEntry) : State :=
  { s with table := Function.update s.table k.family (Function.update (s.table k.family) i es) }

/-- A call that passes. -/
def State.grant (s : State) (k : Key) : State :=
  { s with grants := ⟨k, s.clock⟩ :: s.grants }

/-- `wg_ratelimiter_allow`; `alloc` is whether memory is there. -/
def wgRatelimiterAllow (cfg : Config) (alloc : Bool) (net : U64) (src : Source) (s : State) :
    State × Bool :=
  match keyOf net src with
  | none => (s, false)
  | some k =>
    match chargeFirst s.clock k (s.table k.family (cfg.hash k)) with
    | some (es, ret) => (s.setBucket k (cfg.hash k) es, ret)
    | none =>
      if s.totalEntries + 1 > cfg.maxEntries then (s, false)
      else if ¬ alloc then (s, false)
      else
        (({ s with totalEntries := s.totalEntries + 1 }).setBucket k (cfg.hash k)
          (newEntry s.clock k :: s.table k.family (cfg.hash k)), true)

/-- The test of a sweep, in 64 bits: with a clock that was read before the entry was used,
the difference wraps. -/
def Stale (now : U64) (e : RatelimiterEntry) : Prop :=
  now - e.lastTimeNs > BitVec.ofNat 64 nsecPerSec

instance (now : U64) (e : RatelimiterEntry) : Decidable (Stale now e) :=
  inferInstanceAs (Decidable (_ > _))

/-- `wg_ratelimiter_gc_entries` on one bucket of one table. Without `work` all entries go. -/
def gcBucket (work : Bool) (now : U64) (es : List RatelimiterEntry) : List RatelimiterEntry :=
  es.filter fun e => work ∧ ¬ Stale now e

/-- The entries that go. -/
def gcRemoved (work : Bool) (now : U64) (es : List RatelimiterEntry) : List RatelimiterEntry :=
  es.filter fun e => ¬ (work ∧ ¬ Stale now e)

/-- The locked section of a sweep: bucket `i` of both tables. -/
def visit (i : ℕ) (now : U64) (s : State) : State :=
  let removed := gcRemoved true now (s.table .v4 i) ++ gcRemoved true now (s.table .v6 i)
  { s with
    table := fun f => Function.update (s.table f) i (gcBucket true now (s.table f i))
    freeing := s.freeing + removed.length
    removals := removed.map (⟨·, s.clock⟩) ++ s.removals }

inductive Label where
  | allow (alloc : Bool) (net : U64) (src : Source)
  | tick (now : U64)
  | sweepBegin
  | sweepVisit
  | rcuFree

def machine (cfg : Config) : Machine State Label where
  step s
    | .allow alloc net src =>
      match wgRatelimiterAllow cfg alloc net src s, keyOf net src with
      | (s, true), some k => some (s.grant k)
      | (s, _), _ => some s
    | .tick now => if s.clock ≤ now then some { s with clock := now } else none
    | .sweepBegin => if s.sweep = none then some { s with sweep := some ⟨s.clock, 0⟩ } else none
    | .sweepVisit =>
      match s.sweep with
      | none => none
      | some sweep =>
        if sweep.next < cfg.tableSize then
          some { visit sweep.next sweep.now s with sweep := some ⟨sweep.now, sweep.next + 1⟩ }
        else some { s with sweep := none }
    | .rcuFree =>
      if s.freeing = 0 then none
      else some { s with freeing := s.freeing - 1, totalEntries := s.totalEntries - 1 }

/-- Empty tables. -/
def start (clock : U64) : State := ⟨clock, fun _ _ => [], 0, 0, none, [], []⟩

/-! ## Charging -/

/-- The tokens that an entry stands for at a time. -/
def tokensAt (clock : U64) (e : RatelimiterEntry) : ℕ :=
  min tokenMax (e.tokens.toNat + (clock.toNat - e.lastTimeNs.toNat))

/-- The tokens of a source: one that is not known has all of them. -/
def available (clock : U64) : Option RatelimiterEntry → ℕ
  | none => tokenMax
  | some e => tokensAt clock e

theorem available_le (clock : U64) (o : Option RatelimiterEntry) :
    available clock o ≤ tokenMax := by
  cases o with
  | none => exact le_refl _
  | some e => exact Nat.min_le_left ..

variable {now : U64} {e : RatelimiterEntry}

/-- In 64 bits the sum may wrap, which only loses tokens. -/
theorem sum_le (h : e.lastTimeNs ≤ now) :
    (e.tokens + now - e.lastTimeNs).toNat ≤
      e.tokens.toNat + (now.toNat - e.lastTimeNs.toNat) := by
  have hle : e.lastTimeNs.toNat ≤ now.toNat := h
  have htokens := e.tokens.isLt
  have hnow := now.isLt
  rw [BitVec.toNat_sub, BitVec.toNat_add]
  omega

theorem refill_le (h : e.lastTimeNs ≤ now) : (refill now e).toNat ≤ tokensAt now e := by
  have hsum := sum_le h
  have hmax : (BitVec.ofNat 64 tokenMax).toNat = tokenMax := rfl
  unfold refill tokensAt
  dsimp only
  split
  · next hfull =>
    have hle : tokenMax ≤ (e.tokens + now - e.lastTimeNs).toNat := hfull
    rw [hmax]
    omega
  · next hfull =>
    have hlt : (e.tokens + now - e.lastTimeNs).toNat < tokenMax := Nat.not_le.mp hfull
    omega

/-- A charge leaves no more than there was, and a packet that passes is paid for. -/
theorem charge_available (h : e.lastTimeNs ≤ now) :
    tokensAt now (charge now e).1 + (if (charge now e).2 then packetCost else 0) ≤
      tokensAt now e := by
  have hcost : (BitVec.ofNat 64 packetCost).toNat = packetCost := rfl
  have hrefill := refill_le h
  have hafter : tokensAt now (charge now e).1 ≤ (charge now e).1.tokens.toNat := by
    unfold tokensAt charge
    dsimp only
    omega
  refine le_trans (Nat.add_le_add_right hafter _) ?_
  unfold charge
  dsimp only
  by_cases hret : BitVec.ofNat 64 packetCost ≤ refill now e
  · have hle : packetCost ≤ (refill now e).toNat := hret
    simp only [hret, decide_true, if_true]
    rw [BitVec.toNat_sub_of_le hret, hcost]
    omega
  · simp only [hret, decide_false, Bool.false_eq_true, if_false]
    exact hrefill

theorem charge_has (now : U64) (e : RatelimiterEntry) (k : Key) :
    (charge now e).1.Has k ↔ e.Has k := Iff.rfl

/-- The first entry of a source. -/
def findEntry (k : Key) (es : List RatelimiterEntry) : Option RatelimiterEntry :=
  es.find? fun e => e.Has k

theorem findEntry_cons (k : Key) (e : RatelimiterEntry) (es : List RatelimiterEntry) :
    findEntry k (e :: es) = if e.Has k then some e else findEntry k es := by
  unfold findEntry
  by_cases hk : e.Has k
  · simp [hk]
  · simp [hk]

variable {k : Key} {es : List RatelimiterEntry}

theorem chargeFirst_none (h : chargeFirst now k es = none) : findEntry k es = none := by
  induction es with
  | nil => rfl
  | cons e es ih =>
    rw [chargeFirst] at h
    rw [findEntry_cons]
    by_cases hk : e.Has k
    · rw [if_pos hk] at h
      cases h
    · rw [if_neg hk, Option.map_eq_none_iff] at h
      rw [if_neg hk]
      exact ih h

/-- What the walk over a bucket does: it charges the entry of the source, and leaves those
of the others. -/
structure Charged (now : U64) (k : Key) (es es' : List RatelimiterEntry) (ret : Bool)
    (e : RatelimiterEntry) : Prop where
  found : findEntry k es = some e
  ret_eq : ret = (charge now e).2
  charged : findEntry k es' = some (charge now e).1
  others : ∀ k' : Key, ¬ (k'.net = k.net ∧ k'.ip = k.ip) → findEntry k' es' = findEntry k' es
  members : ∀ x ∈ es', x ∈ es ∨ x = (charge now e).1

theorem chargeFirst_some {es' : List RatelimiterEntry} {ret : Bool}
    (h : chargeFirst now k es = some (es', ret)) : ∃ e, Charged now k es es' ret e := by
  induction es generalizing es' with
  | nil => cases h
  | cons e es ih =>
    rw [chargeFirst] at h
    by_cases hk : e.Has k
    · -- this is the one
      rw [if_pos hk] at h
      cases h
      refine ⟨e, ?_, rfl, ?_, ?_, ?_⟩
      · rw [findEntry_cons, if_pos hk]
      · rw [findEntry_cons, if_pos ((charge_has now e k).mpr hk)]
      · intro k' hne
        have hk' : ¬ e.Has k' := by
          rintro ⟨hnet, hip⟩
          exact hne ⟨hnet.symm.trans hk.1, hip.symm.trans hk.2⟩
        rw [findEntry_cons, findEntry_cons, if_neg hk',
          if_neg (fun hc => hk' ((charge_has now e k').mp hc))]
      · intro x hx
        rcases List.mem_cons.mp hx with rfl | hx
        · exact Or.inr rfl
        · exact Or.inl (List.mem_cons_of_mem e hx)
    · rw [if_neg hk, Option.map_eq_some_iff] at h
      rcases h with ⟨⟨rest, ret'⟩, hrest, heq⟩
      cases heq
      rcases ih hrest with ⟨e', hc⟩
      refine ⟨e', ?_, hc.ret_eq, ?_, ?_, ?_⟩
      · rw [findEntry_cons, if_neg hk]
        exact hc.found
      · rw [findEntry_cons, if_neg hk]
        exact hc.charged
      · intro k' hne
        rw [findEntry_cons, findEntry_cons, hc.others k' hne]
      · intro x hx
        rcases List.mem_cons.mp hx with rfl | hx
        · exact Or.inl (List.mem_cons_self ..)
        · rcases hc.members x hx with hmem | heq
          · exact Or.inl (List.mem_cons_of_mem e hmem)
          · exact Or.inr heq

/-! ## Sweeping -/

/-- A sweep forgets an entry that is full, or keeps the one that is found. -/
theorem gc_available {clock : U64} (k : Key)
    (h : ∀ e ∈ es, Stale now e → tokensAt clock e = tokenMax) :
    available clock (findEntry k (gcBucket true now es)) ≤ available clock (findEntry k es) := by
  induction es with
  | nil => exact le_refl _
  | cons e es ih =>
    have ih := ih fun x hx => h x (List.mem_cons_of_mem e hx)
    by_cases hstale : Stale now e
    · have hdrop : gcBucket true now (e :: es) = gcBucket true now es := by
        simp [gcBucket, hstale]
      rw [hdrop, findEntry_cons]
      by_cases hk : e.Has k
      · rw [if_pos hk]
        show _ ≤ tokensAt clock e
        rw [h e (List.mem_cons_self ..) hstale]
        exact available_le ..
      · rw [if_neg hk]
        exact ih
    · have hkeep : gcBucket true now (e :: es) = e :: gcBucket true now es := by
        simp [gcBucket, hstale]
      rw [hkeep, findEntry_cons, findEntry_cons]
      by_cases hk : e.Has k
      · rw [if_pos hk, if_pos hk]
      · rw [if_neg hk, if_neg hk]
        exact ih

theorem mem_gcBucket {work : Bool} (h : e ∈ gcBucket work now es) : e ∈ es :=
  (List.mem_filter.mp h).1

theorem mem_gcRemoved : e ∈ gcRemoved true now es ↔ e ∈ es ∧ Stale now e := by
  simp [gcRemoved]

/-- An entry that has not been used for more than a second is full. -/
theorem tokensAt_idle {clock : U64} (h : e.lastTimeNs.toNat + nsecPerSec < clock.toNat) :
    tokensAt clock e = tokenMax := by
  have hmax : tokenMax ≤ nsecPerSec := by decide
  unfold tokensAt
  omega

/-! ## Safety -/

section Safety

variable {cfg : Config}

def lookup (cfg : Config) (s : State) (k : Key) : Option RatelimiterEntry :=
  findEntry k (s.table k.family (cfg.hash k))

/-- The times at which packets of a source passed. -/
def grantsOf (s : State) (k : Key) : List ℕ :=
  (s.grants.filter fun g => g.key = k).map fun g => g.time.toNat

/-- The account of a source. -/
def InOrder (cfg : Config) (s : State) (k : Key) : Prop :=
  Account packetCost tokenMax s.clock.toNat (available s.clock (lookup cfg s k)) (grantsOf s k)

structure Inv (cfg : Config) (s : State) : Prop where
  used : ∀ f i, ∀ e ∈ s.table f i, e.lastTimeNs ≤ s.clock
  sweep : ∀ sweep, s.sweep = some sweep → sweep.now ≤ s.clock
  accounts : ∀ k, InOrder cfg s k
  removals : ∀ r ∈ s.removals, r.entry.lastTimeNs.toNat + nsecPerSec < r.time.toNat

/-- The condition on a step: the entries that a sweep comes to were used before it read the
clock, or are idle for more than a second by now. -/
def Settled (s : State) : Label → Prop
  | .sweepVisit => ∀ sweep, s.sweep = some sweep → ∀ f, ∀ e ∈ s.table f sweep.next,
      e.lastTimeNs ≤ sweep.now ∨ e.lastTimeNs.toNat + nsecPerSec < s.clock.toNat
  | _ => True

theorem start_inv (clock : U64) : Inv cfg (start clock) := by
  constructor
  · intro f i e he
    cases he
  · intro sweep hsweep
    cases hsweep
  · intro k
    exact Account.start (available_le ..) _
  · intro r hr
    cases hr

/-- The bucket of a source is the one that was set, or another. -/
theorem lookup_setBucket (s : State) (k k' : Key) (es : List RatelimiterEntry) :
    lookup cfg (s.setBucket k (cfg.hash k) es) k' =
      if k'.family = k.family ∧ cfg.hash k' = cfg.hash k then findEntry k' es
      else lookup cfg s k' := by
  unfold lookup State.setBucket
  by_cases hfamily : k'.family = k.family
  · by_cases hhash : cfg.hash k' = cfg.hash k
    · simp [hfamily, hhash]
    · simp [hfamily, hhash]
  · simp [hfamily]

variable {s : State}

theorem mem_setBucket {i j : ℕ} {f : Family} (h : e ∈ (s.setBucket k i es).table f j) :
    e ∈ es ∨ e ∈ s.table f j := by
  unfold State.setBucket at h
  by_cases hfamily : f = k.family
  · subst hfamily
    by_cases hij : j = i
    · subst hij
      simp only [Function.update_self] at h
      exact Or.inl h
    · simp only [Function.update_self, Function.update_of_ne hij] at h
      exact Or.inr h
  · simp only [Function.update_of_ne hfamily] at h
    exact Or.inr h

/-- Other sources do not notice what happens to the entry of one. -/
theorem lookup_other {k' : Key} (hne : k' ≠ k)
    (hothers : ∀ j : Key, ¬ (j.net = k.net ∧ j.ip = k.ip) →
      findEntry j es = findEntry j (s.table k.family (cfg.hash k))) :
    lookup cfg (s.setBucket k (cfg.hash k) es) k' = lookup cfg s k' := by
  rw [lookup_setBucket]
  split
  · next hsame =>
    have hdiffers : ¬ (k'.net = k.net ∧ k'.ip = k.ip) := by
      rintro ⟨hnet, hip⟩
      apply hne
      cases k
      cases k'
      simp_all
    rw [hothers k' hdiffers, ← hsame.1, ← hsame.2]
    rfl
  · rfl

theorem lookup_self (s : State) (k : Key) (es : List RatelimiterEntry) :
    lookup cfg (s.setBucket k (cfg.hash k) es) k = findEntry k es := by
  rw [lookup_setBucket, if_pos ⟨rfl, rfl⟩]

/-- The state after the entry of a source was set and its call answered. -/
def answered (cfg : Config) (s : State) (k : Key) (es : List RatelimiterEntry) (ret : Bool) :
    State :=
  if ret then (s.setBucket k (cfg.hash k) es).grant k else s.setBucket k (cfg.hash k) es

/-- A call that pays for itself keeps all accounts in order. -/
theorem answered_inv (hinv : Inv cfg s) {ret : Bool} (hused : ∀ e ∈ es, e.lastTimeNs ≤ s.clock)
    (hothers : ∀ j : Key, ¬ (j.net = k.net ∧ j.ip = k.ip) →
      findEntry j es = findEntry j (s.table k.family (cfg.hash k)))
    (hpaid : available s.clock (findEntry k es) + (if ret then packetCost else 0) ≤
      available s.clock (lookup cfg s k)) : Inv cfg (answered cfg s k es ret) := by
  have hentries : ∀ f i, ∀ e ∈ (s.setBucket k (cfg.hash k) es).table f i,
      e.lastTimeNs ≤ s.clock := by
    intro f i e he
    rcases mem_setBucket he with he | he
    · exact hused e he
    · exact hinv.used f i e he
  have hself := hinv.accounts k
  cases ret with
  | false =>
    refine ⟨hentries, hinv.sweep, ?_, hinv.removals⟩
    intro k'
    show Account _ _ s.clock.toNat
      (available s.clock (lookup cfg (s.setBucket k (cfg.hash k) es) k')) (grantsOf s k')
    by_cases hk : k' = k
    · subst hk
      rw [lookup_self]
      exact hself.lose hpaid
    · rw [lookup_other hk hothers]
      exact hinv.accounts k'
  | true =>
    refine ⟨hentries, hinv.sweep, ?_, hinv.removals⟩
    intro k'
    show Account _ _ s.clock.toNat
      (available s.clock (lookup cfg (s.setBucket k (cfg.hash k) es) k'))
      (grantsOf (answered cfg s k es true) k')
    by_cases hk : k' = k
    · subst hk
      have hgrants : grantsOf (answered cfg s k' es true) k' = s.clock.toNat :: grantsOf s k' := by
        simp [grantsOf, answered, State.grant, State.setBucket]
      rw [lookup_self, hgrants]
      exact hself.spend hpaid
    · have hgrants : grantsOf (answered cfg s k es true) k' = grantsOf s k' := by
        have hk' : ¬ k = k' := fun h => hk h.symm
        simp [grantsOf, answered, State.grant, State.setBucket, hk']
      rw [lookup_other hk hothers, hgrants]
      exact hinv.accounts k'

/-- What a call can do: nothing, charge the entry of the source, or make one. -/
inductive Call (cfg : Config) (s : State) : State → Prop
  | refused : Call cfg s s
  | charged (k : Key) (es : List RatelimiterEntry) (ret : Bool) (e : RatelimiterEntry)
      (h : Charged s.clock k (s.table k.family (cfg.hash k)) es ret e) :
      Call cfg s (answered cfg s k es ret)
  | created (k : Key) (total : ℕ) (h : lookup cfg s k = none) :
      Call cfg s (answered cfg { s with totalEntries := total } k
        (newEntry s.clock k :: s.table k.family (cfg.hash k)) true)

theorem allow_cases {alloc : Bool} {net : U64} {src : Source} {s' : State}
    (h : (machine cfg).step s (.allow alloc net src) = some s') : Call cfg s s' := by
  dsimp only [machine] at h
  unfold wgRatelimiterAllow at h
  cases hkey : keyOf net src with
  | none =>
    rw [hkey] at h
    cases h
    exact .refused
  | some k =>
    rw [hkey] at h
    dsimp only at h
    cases hcharge : chargeFirst s.clock k (s.table k.family (cfg.hash k)) with
    | some r =>
      rcases r with ⟨es, ret⟩
      rw [hcharge] at h
      rcases chargeFirst_some hcharge with ⟨e, he⟩
      have hs' : s' = answered cfg s k es ret := by
        cases ret with
        | false =>
          cases h
          rfl
        | true =>
          cases h
          rfl
      rw [hs']
      exact .charged k es ret e he
    | none =>
      rw [hcharge] at h
      dsimp only at h
      by_cases hfull : s.totalEntries + 1 > cfg.maxEntries
      · rw [if_pos hfull] at h
        cases h
        exact .refused
      · rw [if_neg hfull] at h
        cases alloc with
        | false =>
          cases h
          exact .refused
        | true =>
          cases h
          exact .created k _ (chargeFirst_none hcharge)

theorem call_inv {s' : State} (hinv : Inv cfg s) (h : Call cfg s s') : Inv cfg s' := by
  cases h with
  | refused => exact hinv
  | charged k es ret e h =>
    have he : e ∈ s.table k.family (cfg.hash k) := List.mem_of_find?_eq_some h.found
    refine answered_inv hinv ?_ h.others ?_
    · intro x hx
      rcases h.members x hx with hx | rfl
      · exact hinv.used _ _ x hx
      · exact BitVec.le_refl _
    · rw [h.charged, h.ret_eq]
      show _ ≤ available s.clock (findEntry k (s.table k.family (cfg.hash k)))
      rw [h.found]
      exact charge_available (hinv.used _ _ e he)
  | created k total h =>
    have hinv' : Inv cfg { s with totalEntries := total } :=
      ⟨hinv.used, hinv.sweep, hinv.accounts, hinv.removals⟩
    have hnew : (newEntry s.clock k).Has k := ⟨rfl, rfl⟩
    refine answered_inv hinv' ?_ ?_ ?_
    · intro x hx
      rcases List.mem_cons.mp hx with rfl | hx
      · exact BitVec.le_refl _
      · exact hinv.used _ _ x hx
    · intro j hj
      have hother : ¬ (newEntry s.clock k).Has j := by
        rintro ⟨hnet, hip⟩
        exact hj ⟨hnet.symm, hip.symm⟩
      rw [findEntry_cons, if_neg hother]
    · -- the first packet is paid for from a full bucket
      show available s.clock (findEntry k (newEntry s.clock k :: _)) + packetCost ≤
        available s.clock (lookup cfg s k)
      rw [findEntry_cons, if_pos hnew, h]
      have htokens : (newEntry s.clock k).tokens.toNat + packetCost = tokenMax := rfl
      have hlast : (newEntry s.clock k).lastTimeNs = s.clock := rfl
      show tokensAt s.clock (newEntry s.clock k) + packetCost ≤ tokenMax
      unfold tokensAt
      rw [hlast]
      omega

theorem tick_inv (hinv : Inv cfg s) (h : s.clock ≤ now) : Inv cfg { s with clock := now } := by
  constructor
  · intro f i e he
    exact BitVec.le_trans (hinv.used f i e he) h
  · intro sweep hsweep
    exact BitVec.le_trans (hinv.sweep sweep hsweep) h
  · intro k
    refine (hinv.accounts k).elapse h (available_le ..) ?_
    show available now (lookup cfg s k) ≤
      available s.clock (lookup cfg s k) + (now.toNat - s.clock.toNat)
    cases lookup cfg s k with
    | none => exact Nat.le_add_right ..
    | some e =>
      show tokensAt now e ≤ tokensAt s.clock e + _
      unfold tokensAt
      omega
  · exact hinv.removals

/-- An entry that a sweep takes out was idle for more than a second. -/
theorem idle_of_stale (hinv : Inv cfg s) {sweep : Sweep} (hsweep : s.sweep = some sweep)
    (hstale : Stale sweep.now e)
    (hsettled : e.lastTimeNs ≤ sweep.now ∨ e.lastTimeNs.toNat + nsecPerSec < s.clock.toNat) :
    e.lastTimeNs.toNat + nsecPerSec < s.clock.toNat := by
  rcases hsettled with hbefore | hidle
  · -- the difference does not wrap
    have hnow : sweep.now.toNat ≤ s.clock.toNat := hinv.sweep sweep hsweep
    have hdiff : (sweep.now - e.lastTimeNs).toNat > nsecPerSec := hstale
    rw [BitVec.toNat_sub_of_le hbefore] at hdiff
    omega
  · exact hidle

theorem visit_inv (hinv : Inv cfg s) {sweep : Sweep} (hsweep : s.sweep = some sweep)
    (hsettled : Settled s .sweepVisit) : Inv cfg (visit sweep.next sweep.now s) := by
  have hidle : ∀ f, ∀ e ∈ s.table f sweep.next, Stale sweep.now e →
      e.lastTimeNs.toNat + nsecPerSec < s.clock.toNat := by
    intro f e he hstale
    exact idle_of_stale hinv hsweep hstale (hsettled sweep hsweep f e he)
  constructor
  · intro f i e he
    by_cases hi : i = sweep.next
    · subst hi
      simp only [visit, Function.update_self] at he
      exact hinv.used f _ e (mem_gcBucket he)
    · simp only [visit, Function.update_of_ne hi] at he
      exact hinv.used f i e he
  · exact hinv.sweep
  · intro k
    refine (hinv.accounts k).lose ?_
    show available s.clock (findEntry k (Function.update (s.table k.family) sweep.next
      (gcBucket true sweep.now (s.table k.family sweep.next)) (cfg.hash k))) ≤ _
    by_cases hi : cfg.hash k = sweep.next
    · rw [hi, Function.update_self]
      have hgc : available s.clock (findEntry k (gcBucket true sweep.now
          (s.table k.family sweep.next))) ≤
          available s.clock (findEntry k (s.table k.family sweep.next)) :=
        gc_available k fun e he hstale => tokensAt_idle (hidle k.family e he hstale)
      unfold lookup
      rw [hi]
      exact hgc
    · rw [Function.update_of_ne hi]
      exact le_refl _
  · intro r hr
    rcases List.mem_append.mp hr with hr | hr
    · rcases List.mem_map.mp hr with ⟨e, he, rfl⟩
      rcases List.mem_append.mp he with he | he
      · rcases mem_gcRemoved.mp he with ⟨hmem, hstale⟩
        exact hidle .v4 e hmem hstale
      · rcases mem_gcRemoved.mp he with ⟨hmem, hstale⟩
        exact hidle .v6 e hmem hstale
    · exact hinv.removals r hr

theorem step_inv : ∀ s l s', Inv cfg s → Settled s l → (machine cfg).step s l = some s' →
    Inv cfg s' := by
  intro s l s' hinv hsettled hstep
  cases l with
  | allow alloc net src => exact call_inv hinv (allow_cases hstep)
  | tick now =>
    dsimp only [machine] at hstep
    split at hstep
    · next hle =>
      cases hstep
      exact tick_inv hinv hle
    · cases hstep
  | sweepBegin =>
    dsimp only [machine] at hstep
    split at hstep
    · cases hstep
      refine ⟨hinv.used, ?_, hinv.accounts, hinv.removals⟩
      intro sweep hsweep
      cases hsweep
      exact BitVec.le_refl _
    · cases hstep
  | sweepVisit =>
    dsimp only [machine] at hstep
    split at hstep
    · cases hstep
    next sweep hsweep =>
    split at hstep
    · cases hstep
      have hvisit := visit_inv hinv hsweep hsettled
      refine ⟨hvisit.used, ?_, hvisit.accounts, hvisit.removals⟩
      intro sweep' hsweep'
      cases hsweep'
      exact hinv.sweep sweep hsweep
    · cases hstep
      refine ⟨hinv.used, ?_, hinv.accounts, hinv.removals⟩
      intro sweep' hsweep'
      cases hsweep'
  | rcuFree =>
    dsimp only [machine] at hstep
    split at hstep
    · cases hstep
    · cases hstep
      exact ⟨hinv.used, hinv.sweep, hinv.accounts, hinv.removals⟩

/-- A sweep takes out an entry that was used after it read the clock: the difference
wraps. -/
theorem removed_after_use {sweep : Sweep} (hsweep : s.sweep = some sweep)
    (hnext : sweep.next < cfg.tableSize) {f : Family} (he : e ∈ s.table f sweep.next)
    (hafter : sweep.now < e.lastTimeNs) (hclock : e.lastTimeNs.toNat < 2 ^ 63) :
    ∃ s', (machine cfg).step s .sweepVisit = some s' ∧ ⟨e, s.clock⟩ ∈ s'.removals := by
  have hlt : sweep.now.toNat < e.lastTimeNs.toNat := hafter
  have hstale : Stale sweep.now e := by
    show nsecPerSec < (sweep.now - e.lastTimeNs).toNat
    rw [BitVec.toNat_sub]
    unfold nsecPerSec
    omega
  refine ⟨{ visit sweep.next sweep.now s with sweep := some ⟨sweep.now, sweep.next + 1⟩ }, ?_, ?_⟩
  · dsimp only [machine]
    rw [hsweep]
    dsimp only
    rw [if_pos hnext]
  · refine List.mem_append_left _ (List.mem_map_of_mem (List.mem_append.mpr ?_))
    cases f with
    | v4 => exact Or.inl (mem_gcRemoved.mpr ⟨he, hstale⟩)
    | v6 => exact Or.inr (mem_gcRemoved.mpr ⟨he, hstale⟩)

end Safety

/-- The rate limiter, over any interleaving of calls, ticks and sweeps.
* In a run whose sweeps only come to entries that were used before they read the clock, or
  are idle for more than a second: of the packets of a source, in an interval of any
  length, at most a burst and what the length earns pass; and no entry is taken out within
  a second of its use.
* In any state, an entry that was used after the sweep read the clock, and within the last
  second, is taken out when the sweep comes to it. -/
theorem allowed_within_rate (cfg : Config) :
    (∀ clock ls s, (machine cfg).AllSteps Settled (start clock) ls →
      (machine cfg).run (start clock) ls = some s →
      (∀ net src k, keyOf net src = some k → ∀ a length,
        countIn (grantsOf s k) a (a + length) ≤ packetsBurstable + length / packetCost) ∧
      (∀ r ∈ s.removals, r.entry.lastTimeNs.toNat + nsecPerSec < r.time.toNat)) ∧
    (∀ s sweep f e, s.sweep = some sweep → sweep.next < cfg.tableSize →
      e ∈ s.table f sweep.next → sweep.now < e.lastTimeNs → e.lastTimeNs.toNat < 2 ^ 63 →
      s.clock.toNat ≤ e.lastTimeNs.toNat + nsecPerSec →
      ∃ s' r, (machine cfg).step s .sweepVisit = some s' ∧ r ∈ s'.removals ∧ r.entry = e ∧
        ¬ r.entry.lastTimeNs.toNat + nsecPerSec < r.time.toNat) := by
  constructor
  · intro clock ls s hsettled hrun
    have hinv : Inv cfg s :=
      (machine cfg).runs_invariant step_inv (start_inv clock) hsettled hrun
    refine ⟨?_, hinv.removals⟩
    intro net src k _ a length
    exact (hinv.accounts k).count_le (by decide) rfl a length
  · intro s sweep f e hsweep hnext he hafter hclock hrecent
    rcases removed_after_use hsweep hnext he hafter hclock with ⟨s', hstep, hmem⟩
    exact ⟨s', _, hstep, hmem, rfl, Nat.not_lt.mpr hrecent⟩

/-! ## Runs -/

instance decidableSettled (s : State) : (l : Label) → Decidable (Settled s l)
  | .sweepVisit =>
    match h : s.sweep with
    | none => .isTrue fun _ hsweep => nomatch h.symm.trans hsweep
    | some sweep =>
      decidable_of_iff (∀ f ∈ [Family.v4, Family.v6], ∀ e ∈ s.table f sweep.next,
        e.lastTimeNs ≤ sweep.now ∨ e.lastTimeNs.toNat + nsecPerSec < s.clock.toNat) <| by
        constructor
        · intro hall sweep' hsweep' f
          rw [h] at hsweep'
          cases hsweep'
          exact hall f (by cases f <;> simp)
        · intro hall f _
          exact hall sweep h f
  | .allow _ _ _ => .isTrue trivial
  | .tick _ => .isTrue trivial
  | .sweepBegin => .isTrue trivial
  | .rcuFree => .isTrue trivial

instance (cfg : Config) (s : State) (ls : List Label) :
    Decidable ((machine cfg).AllSteps Settled s ls) :=
  (machine cfg).decidableAllSteps decidableSettled s ls

/-- Tables of one bucket. -/
def oneBucket : Config := ⟨1, 8, fun _ => 0, fun _ => Nat.zero_lt_one⟩

/-- A call for the address 192.0.2.1. -/
def call : Label := .allow true 0 (.ip 0xC0000201)

def callKey : Key := ⟨.v4, 0xC0000201, 0⟩

/-- Five calls, an idle time of two seconds, a sweep that takes the entry out, a call. -/
def quietSweep : List Label :=
  List.replicate 6 call ++ [.tick 12000000000, .sweepBegin, .sweepVisit, call]

theorem allowed_within_rate_quietSweep :
    ∃ s, (machine oneBucket).run (start 10000000000) quietSweep = some s ∧
      grantsOf s callKey = 12000000000 :: List.replicate 5 10000000000 ∧
      (∀ a length, countIn (grantsOf s callKey) a (a + length) ≤
        packetsBurstable + length / packetCost) ∧
      s.removals.length = 1 := by
  have hgrants : ((machine oneBucket).run (start 10000000000) quietSweep).map
      (fun s => (grantsOf s callKey, s.removals.length)) =
        some (12000000000 :: List.replicate 5 10000000000, 1) := by
    decide +kernel
  rcases Option.map_eq_some_iff.mp hgrants with ⟨s, hs, heq⟩
  have hrate := (allowed_within_rate oneBucket).1 10000000000 quietSweep s (by decide +kernel) hs
  exact ⟨s, hs, congrArg Prod.fst heq, hrate.1 0 (.ip 0xC0000201) callKey rfl,
    congrArg Prod.snd heq⟩

/-- A sweep reads the clock; 4 ms later a source is seen for the first time and uses up its
burst; then the sweep comes to its bucket, and another burst passes. -/
def lateSweep : List Label :=
  [.sweepBegin, .tick 10004000000] ++ List.replicate 5 call ++ [.sweepVisit] ++
    List.replicate 5 call

/-- Ten packets of one source pass at one time, and an entry goes that was just used. -/
theorem double_burst :
    ((machine oneBucket).run (start 10000000000) lateSweep).map
        (fun s => (countIn (grantsOf s callKey) 10004000000 (10004000000 + 0), s.removals)) =
      some (10, [⟨⟨10004000000, 0, 0xC0000201, 0⟩, 10004000000⟩]) ∧
    ¬ 10 ≤ packetsBurstable + 0 / packetCost := by
  constructor
  · decide +kernel
  · decide

end AmneziaWg.Ratelimiter
