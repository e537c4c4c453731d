import AmneziaWg.Lib.Hlist
import AmneziaWg.Lib.Linux
import AmneziaWg.Lib.Machine
import AmneziaWg.Lib.Threads
import AmneziaWg.PeerLookup

/-!
# The index table under concurrency

`struct index_hashtable` of `peerlookup.c` with its hash lists, and any number of calls
that insert, replace and remove entries at the same time. An insertion unlinks its entry,
looks for an unused index without the lock, and checks again under the lock before it
links the entry. The sections under the lock consist of single writes, between which
others look entries up.

* **Model**: `Call` with the program points, `stepCall`, `machine`,
  `wgIndexHashtableLookup`.
* **Invariant**: `Inv`, what readers see and what each call has still to write.
* **Refinement**: `sections_refine`, what the sections make of the list of linked entries.
* **Result**: `table_sound`. An entry that takes the place of another one must not be
  linked itself (`replace_linked`).
-/

namespace AmneziaWg.IndexTable

open Linux Hlist Threads

variable {ν : Type} [DecidableEq ν]

/-! ## Model layer -/

/-- `index_bucket`: the number of the bucket. -/
def indexBucket (index : U32) : U32 := index &&& 0x1fff

/-- The lists, and the other fields of `struct index_hashtable_entry`; the type is a bit
of `enum index_hashtable_type`. -/
structure Table (ν : Type) where
  lists : Lists U32 ν
  index : ν → U32
  type : ν → U32
  peer : ν → Option ℕ
  /-- `peer->refcount`. -/
  refcount : ℕ → ℕ

/-- The walk over the bucket of an index, up to an entry that has it. -/
def Table.find (t : Table ν) (index : U32) (fuel : ℕ) : Option (Option ν) :=
  scan t.lists.next (fun e => t.index e = index) fuel (t.lists.first (indexBucket index))

/-- A call in progress. What remains of a section under the lock is the list of its writes. -/
inductive Call (ν : Type) where
  /-- `wg_index_hashtable_insert` or `wg_index_hashtable_remove`, before the first lock. -/
  | unlink (e : ν) (insert : Bool)
  | unlinking (e : ν) (insert : Bool) (ws : List (Write U32 ν))
  /-- The label `search_unused_slot`. -/
  | probe (e : ν)
  | recheck (e : ν)
  | linking (e : ν) (ws : List (Write U32 ν))
  | replace (old new : ν)
  | replacing (old new : ν) (ws : List (Write U32 ν))

/-- The entries that a call is made for. -/
def Call.entries : Call ν → List ν
  | .unlink e _ | .unlinking e _ _ | .probe e | .recheck e | .linking e _ => [e]
  | .replace old new | .replacing old new _ => [old, new]

/-- The call holds `table->lock`. -/
def Call.locked : Call ν → Bool
  | .unlinking .. | .linking .. | .replacing .. => true
  | _ => false

/-- What a call returns. -/
inductive Result where
  | inserted (index : U32)
  | replaced (ret : Bool)
  | removed

/-- What becomes of a call: it goes on, or it returns. -/
abbrev Next (ν : Type) := Except Result (Call ν)

/-- The next step of a call, given whether another one holds the lock, with the word that
`get_random_u32` would give and enough fuel for a walk. -/
def stepCall (t : Table ν) (locked : Bool) (draw : U32) (fuel : ℕ) :
    Call ν → Option (Table ν × Next ν)
  | .unlink e insert =>
    if locked then none else some (t, .ok (.unlinking e insert (delWrites t.lists e)))
  | .unlinking e insert (w :: ws) =>
    some ({ t with lists := w.apply t.lists }, .ok (.unlinking e insert ws))
  | .unlinking e insert [] => some (t, if insert then .ok (.probe e) else .error .removed)
  | .probe e =>
    let t := { t with index := Function.update t.index e draw }
    match t.find draw fuel with
    | none => none
    | some (some _) => some (t, .ok (.probe e))
    | some none => some (t, .ok (.recheck e))
  | .recheck e =>
    if locked then none
    else
      match t.find (t.index e) fuel with
      | none => none
      -- it was stolen
      | some (some _) => some (t, .ok (.probe e))
      | some none =>
        some (t, .ok (.linking e (addHeadWrites t.lists (indexBucket (t.index e)) e)))
  | .linking e (w :: ws) => some ({ t with lists := w.apply t.lists }, .ok (.linking e ws))
  | .linking e [] => some (t, .error (.inserted (t.index e)))
  | .replace old new =>
    if locked then none
    else
      match t.lists.pprev old with
      | none => some (t, .error (.replaced false))
      | some _ =>
        -- nobody reads the index of the new entry yet
        some ({ t with index := Function.update t.index new (t.index old) },
          .ok (.replacing old new (replaceWrites t.lists old new)))
  | .replacing old new (w :: ws) =>
    some ({ t with lists := w.apply t.lists }, .ok (.replacing old new ws))
  | .replacing _ _ [] => some (t, .error (.replaced true))

/-- `wg_index_hashtable_lookup` in one step: the table after it, and the entry with its
peer, on which there is one more reference. -/
def wgIndexHashtableLookup (t : Table ν) (typeMask index : U32) (fuel : ℕ) :
    Option (Table ν × Option (ν × ℕ)) :=
  match t.find index fuel with
  | none => none
  | some none => some (t, none)
  | some (some e) =>
    if t.type e &&& typeMask = 0 then some (t, none)
    else
      match t.peer e with
      | none => some (t, none)
      | some p =>
        -- `wg_peer_get_maybe_zero`
        if t.refcount p = 0 then
          some ({ t with peer := Function.update t.peer e none }, none)
        else
          some ({ t with refcount := Function.update t.refcount p (t.refcount p + 1) },
            some (e, p))

structure State (ν : Type) where
  table : Table ν
  calls : List (Call ν)
  /-- What the calls have returned, the last one first. -/
  returned : List Result

inductive Act (ν : Type) where
  | insert (e : ν)
  | replace (old new : ν)
  | remove (e : ν)
  /-- A step of the `i`-th call in progress. -/
  | step (i : ℕ) (draw : U32) (fuel : ℕ)
  | lookup (typeMask index : U32) (fuel : ℕ)
  /-- Others take and give back references on a peer. -/
  | refs (p n : ℕ)

/-- The start of a call; others on the same entry wait for the lock of its owner. -/
def startCall (s : State ν) (c : Call ν) : Option (State ν) :=
  if ∀ e ∈ c.entries, e ∉ s.calls.flatMap Call.entries then
    some { s with calls := s.calls ++ [c] }
  else none

def step (s : State ν) : Act ν → Option (State ν)
  | .insert e => startCall s (.unlink e true)
  | .replace old new => startCall s (.replace old new)
  | .remove e => startCall s (.unlink e false)
  | .step i draw fuel =>
    match s.calls[i]? with
    | none => none
    | some c =>
      (stepCall s.table (s.calls.any Call.locked) draw fuel c).map fun (t, next) =>
        { table := t
          calls := resume s.calls i next.toOption
          returned := match next with
            | .error r => r :: s.returned
            | .ok _ => s.returned }
  | .lookup typeMask index fuel =>
    (wgIndexHashtableLookup s.table typeMask index fuel).map fun (t, _) => { s with table := t }
  | .refs p n => some { s with table := { s.table with
      refcount := Function.update s.table.refcount p n } }

def machine (ν : Type) [DecidableEq ν] : Machine (State ν) (Act ν) := ⟨step⟩

/-- A new table, and entries that are not linked. -/
def start (index type : ν → U32) (peer : ν → Option ℕ) (refcount : ℕ → ℕ) : State ν where
  table := ⟨⟨fun _ => none, fun _ => none, fun _ => none⟩, index, type, peer, refcount⟩
  calls := []
  returned := []

/-- The entry that is to take the place of another one is not linked. -/
def FreshReplacement (s : State ν) : Act ν → Prop
  | .replace old new => old ≠ new ∧ s.table.lists.pprev new = none
  | _ => True

/-! ## Invariant -/

/-- The entry is on one of the lists. -/
def On (c : U32 → List ν) (e : ν) : Prop := ∃ b, e ∈ c b

/-- Every entry is in the bucket of its index, and has the index alone. -/
structure Good (index : ν → U32) (c : U32 → List ν) : Prop where
  bucket : ∀ {b e}, e ∈ c b → indexBucket (index e) = b
  unique : ∀ {e e'}, On c e → On c e' → index e = index e' → e = e'

/-- A section under the lock: readers see `c` now and `c'` in the end, and what is new then
belongs to the call. -/
structure Pending (t : Table ν) (own : List ν) (ws : List (Write U32 ν)) (c c' : U32 → List ν) :
    Prop where
  settles : Settles c' t.lists ws c
  good : Good t.index c'
  grows : ∀ e, On c' e → On c e ∨ e ∈ own
  unhashes : Unhashes own ws
  hashed : ∀ e ∉ own, On c e → t.lists.pprev e ≠ none

/-- What holds at the program points of a call while readers see `c`. -/
def CallOk (t : Table ν) (c : U32 → List ν) : Call ν → Prop
  | .unlink _ _ => True
  | .unlinking e _ ws => ∃ c', Pending t [e] ws c c' ∧ ¬ On c' e
  | .probe e => ¬ On c e
  | .recheck e => ¬ On c e
  | .linking e ws => ∃ c', Pending t [e] ws c c'
  | .replace _ new => ¬ On c new
  | .replacing old new ws => ∃ c', Pending t [old, new] ws c c' ∧ t.index new = t.index old ∧
      On c' new ∧ ¬ On c' old ∧ (c = c' ∨ On c old ∧ ¬ On c new)

structure Inv (s : State ν) (c : U32 → List ν) : Prop where
  view : View s.table.lists c
  apart : Apart c
  good : Good s.table.index c
  calls : ∀ u ∈ s.calls, CallOk s.table c u
  entries : (s.calls.flatMap Call.entries).Nodup
  lock : s.calls.countP Call.locked ≤ 1
  /-- Nobody is in the middle of a section. -/
  settled : s.calls.countP Call.locked = 0 → WF s.table.lists c

/-! ## Frames -/

variable {c : U32 → List ν}

omit [DecidableEq ν] in
/-- The index of an entry that is not linked does not matter. -/
theorem Good.congr {index index' : ν → U32} (h : Good index c)
    (heq : ∀ e, On c e → index' e = index e) : Good index' c := by
  constructor
  · intro b e he
    rw [heq e ⟨b, he⟩]
    exact h.bucket he
  · intro e e' he he' hindex
    rw [heq e he, heq e' he'] at hindex
    exact h.unique he he' hindex

variable {t t' : Table ν} {v : Call ν}

/-- Another call changes at most the index of its own entry, which is not linked. -/
theorem CallOk.index (es : List ν) (hlists : t'.lists = t.lists)
    (hon : ∀ e, On c e → t'.index e = t.index e) (hes : ∀ e ∉ es, t'.index e = t.index e)
    (hdisjoint : ∀ e ∈ v.entries, e ∉ es) (h : CallOk t c v) : CallOk t' c v := by
  have hpending : ∀ {ws c'}, Pending t v.entries ws c c' → Pending t' v.entries ws c c' := by
    intro ws c' hp
    refine ⟨hlists ▸ hp.settles, hp.good.congr ?_, hp.grows, hp.unhashes, hlists ▸ hp.hashed⟩
    intro e he
    rcases hp.grows e he with he | he
    · exact hon e he
    · exact hes e (hdisjoint e he)
  cases v with
  | unlink e insert => trivial
  | unlinking e insert ws =>
    rcases h with ⟨c', hp, hoff⟩
    exact ⟨c', hpending hp, hoff⟩
  | probe e => exact h
  | recheck e => exact h
  | linking e ws =>
    rcases h with ⟨c', hp⟩
    exact ⟨c', hpending hp⟩
  | replace old new => exact h
  | replacing old new ws =>
    rcases h with ⟨c', hp, hindex, hrest⟩
    refine ⟨c', hpending hp, ?_, hrest⟩
    rw [hes new (hdisjoint new (by simp [Call.entries])),
      hes old (hdisjoint old (by simp [Call.entries]))]
    exact hindex

variable {c' : U32 → List ν}

/-- Another call writes to the lists; what is new on them is its own entry. -/
theorem CallOk.lists {es : List ν} (hfree : v.locked = false)
    (hgrows : ∀ e, On c' e → On c e ∨ e ∈ es) (hdisjoint : ∀ e ∈ v.entries, e ∉ es)
    (h : CallOk t c v) : CallOk t' c' v := by
  have hoff : ∀ e ∈ v.entries, ¬ On c e → ¬ On c' e := by
    intro e he hoff hon
    rcases hgrows e hon with hon | hmem
    · exact hoff hon
    · exact hdisjoint e he hmem
  cases v with
  | unlink e insert => trivial
  | unlinking e insert ws => cases hfree
  | probe e => exact hoff e (List.mem_singleton_self e) h
  | recheck e => exact hoff e (List.mem_singleton_self e) h
  | linking e ws => cases hfree
  | replace old new => exact hoff new (List.mem_cons_of_mem old (List.mem_singleton_self new)) h
  | replacing old new ws => cases hfree

/-! ## Steps -/

variable {ws : List (Write U32 ν)}

section Steps

variable {s : State ν} {c : U32 → List ν} {i : ℕ} {u : Call ν} {rs : List Result}

/-- The other calls have other entries, and if one of them holds the lock this one does not. -/
theorem Inv.others (h : Inv s c) (hu : s.calls[i]? = some u) (hv : v ∈ s.calls.eraseIdx i) :
    CallOk s.table c v ∧ (∀ e ∈ v.entries, e ∉ u.entries) ∧ (u.locked = true → v.locked = false) := by
  refine ⟨h.calls v (mem_others hu hv), ?_, ?_⟩
  · have hnodup := (flatMap_thread_perm Call.entries hu).nodup_iff.mp h.entries
    intro e he he'
    exact (List.nodup_append.mp hnodup).2.2 e he' e (List.mem_flatMap.mpr ⟨v, hv, he⟩) rfl
  · intro hlocked
    have hcount := (perm_thread hu).countP_eq Call.locked
    rw [List.countP_cons_of_pos hlocked] at hcount
    have hzero : (s.calls.eraseIdx i).countP Call.locked = 0 := by
      have hlock := h.lock
      omega
    exact Bool.eq_false_iff.mpr (List.countP_eq_zero.mp hzero v hv)

/-- The state after a step of one call. -/
theorem Inv.resume (h : Inv s c) (hu : s.calls[i]? = some u) {o : Option (Call ν)}
    (hview : View t.lists c') (hapart : Apart c') (hgood : Good t.index c')
    (hothers : ∀ v ∈ s.calls.eraseIdx i, CallOk t c' v)
    (ho : ∀ v, o = some v → CallOk t c' v ∧ v.entries = u.entries)
    (hlock : ∀ v, o = some v → v.locked = true → (s.calls.eraseIdx i).countP Call.locked = 0)
    (hsettled : (s.calls.eraseIdx i).countP Call.locked = 0 →
      (∀ v, o = some v → v.locked = false) → WF t.lists c') :
    Inv ⟨t, Threads.resume s.calls i o, rs⟩ c' := by
  have hcount := (resume_perm hu o).countP_eq Call.locked
  rw [List.countP_append] at hcount
  have hold := (perm_thread hu).countP_eq Call.locked
  rw [List.countP_cons] at hold
  refine ⟨hview, hapart, hgood, ?_, ?_, ?_, ?_⟩
  · intro v hv
    rcases List.mem_append.mp ((resume_perm hu o).mem_iff.mp hv) with hv | hv
    · exact (ho v (Option.mem_toList.mp hv)).1
    · exact hothers v hv
  · have hnodup := (flatMap_thread_perm Call.entries hu).nodup_iff.mp h.entries
    refine (flatMap_resume_perm Call.entries hu o).nodup_iff.mpr ?_
    cases o with
    | none => exact (List.nodup_append.mp hnodup).2.1
    | some v =>
      show ([v].flatMap Call.entries ++ _).Nodup
      rw [List.flatMap_singleton, (ho v rfl).2]
      exact hnodup
  · show (Threads.resume s.calls i o).countP Call.locked ≤ 1
    have hlock' := h.lock
    cases o with
    | none =>
      have hnil : (none : Option (Call ν)).toList.countP Call.locked = 0 := rfl
      omega
    | some v =>
      by_cases hv : v.locked = true
      · have hzero := hlock v rfl hv
        have hone : (some v).toList.countP Call.locked = 1 := List.countP_cons_of_pos hv
        omega
      · have hzero : (some v).toList.countP Call.locked = 0 := List.countP_cons_of_neg hv
        omega
  · intro hzero
    have hzero' : (Threads.resume s.calls i o).countP Call.locked = 0 := hzero
    refine hsettled (by omega) ?_
    rintro v rfl
    have hnone : (some v).toList.countP Call.locked = 0 := by omega
    exact Bool.eq_false_iff.mpr (List.countP_eq_zero.mp hnone v (List.mem_singleton_self v))

/-- A step of a call without the lock: it changes at most the index of its entry, which is
not linked, and may take the lock. -/
theorem Inv.own_step (h : Inv s c) (hu : s.calls[i]? = some u) (hfree : u.locked = false)
    (hlists : t.lists = s.table.lists) (hon : ∀ e, On c e → t.index e = s.table.index e)
    (hes : ∀ e ∉ u.entries, t.index e = s.table.index e) {o : Option (Call ν)}
    (ho : ∀ v, o = some v → CallOk t c v ∧ v.entries = u.entries)
    (hlock : ∀ v, o = some v → v.locked = true → s.calls.any Call.locked = false) :
    Inv ⟨t, Threads.resume s.calls i o, rs⟩ c := by
  have hcount := (perm_thread hu).countP_eq Call.locked
  rw [List.countP_cons_of_neg (Bool.eq_false_iff.mp hfree)] at hcount
  refine h.resume hu (hlists ▸ h.view) h.apart (h.good.congr hon) ?_ ho ?_ ?_
  · intro v hv
    rcases h.others hu hv with ⟨hok, hdisjoint, -⟩
    exact hok.index u.entries hlists hon hes hdisjoint
  · intro v hv hlocked
    rw [← hcount, List.countP_eq_zero]
    intro w hw
    exact List.any_eq_false.mp (hlock v hv hlocked) w hw
  · intro hzero _
    rw [hlists]
    exact h.settled (hcount.trans hzero)

/-- A write under the lock. Readers see it, or they do not. -/
theorem Inv.write_step (h : Inv s c) (hu : s.calls[i]? = some u) (hlocked : u.locked = true)
    {w : Write U32 ν} (hp : Pending s.table u.entries (w :: ws) c c')
    (hentries : v.entries = u.entries) (hv : ∀ c₂, (c₂ = c ∨ c₂ = c') →
      Pending { s.table with lists := w.apply s.table.lists } u.entries ws c₂ c' →
      CallOk { s.table with lists := w.apply s.table.lists } c₂ v) (hlocked' : v.locked = true) :
    ∃ c₂, Inv ⟨{ s.table with lists := w.apply s.table.lists },
      Threads.resume s.calls i (some v), rs⟩ c₂ := by
  have hmain : ∀ c₂, (c₂ = c ∨ c₂ = c') → Settles c' (w.apply s.table.lists) ws c₂ →
      Apart c₂ → Good s.table.index c₂ → (∀ e, On c₂ e → On c e ∨ e ∈ u.entries) →
      (∀ e, On c' e → On c₂ e ∨ e ∈ u.entries) →
      Inv ⟨{ s.table with lists := w.apply s.table.lists },
        Threads.resume s.calls i (some v), rs⟩ c₂ := by
    intro c₂ hc₂ hset hapart hgood hgrows hgrows'
    have hone := (perm_thread hu).countP_eq Call.locked
    rw [List.countP_cons_of_pos hlocked] at hone
    refine h.resume hu hset.view hapart hgood ?_ ?_ ?_ ?_
    · intro v' hv'
      rcases h.others hu hv' with ⟨hok, hdisjoint, hfree⟩
      exact hok.lists (hfree hlocked) hgrows hdisjoint
    · rintro v' hv'
      cases hv'
      refine ⟨hv c₂ hc₂ ⟨hset, hp.good, hgrows', ?_, ?_⟩, hentries⟩
      · intro e he
        exact hp.unhashes e (List.mem_cons_of_mem w he)
      · intro e he hon
        rcases hgrows e hon with hon | hown
        · exact pprev_ne_none hp.unhashes he (hp.hashed e he hon)
        · exact absurd hown he
    · intro v' _ _
      have hlock := h.lock
      omega
    · intro _ hfree
      rw [hfree v rfl] at hlocked'
      cases hlocked'
  cases hp.settles with
  | keep _ hset =>
    exact ⟨c, hmain c (.inl rfl) hset h.apart h.good (fun _ => .inl) hp.grows⟩
  | commit _ hset =>
    exact ⟨c', hmain c' (.inr rfl) hset hset.apart hp.good hp.grows fun _ => .inl⟩

/-- The release of the lock. -/
theorem Inv.release (h : Inv s c) (hu : s.calls[i]? = some u) (hset : Settles c' s.table.lists [] c)
    {o : Option (Call ν)} (ho : ∀ v, o = some v → CallOk s.table c v ∧ v.entries = u.entries)
    (hfree : ∀ v, o = some v → v.locked = false) :
    Inv ⟨s.table, Threads.resume s.calls i o, rs⟩ c := by
  refine h.resume hu h.view h.apart h.good ?_ ho ?_ ?_
  · intro v hv
    exact (h.others hu hv).1
  · intro v hv hlocked
    rw [hfree v hv] at hlocked
    cases hlocked
  · intro _ _
    cases hset with
    | done hwf => exact hwf

end Steps

/-! ## Sections -/

variable {old new e : ν} {fuel : ℕ}

section Sections

variable {t : Table ν} {c : U32 → List ν}

omit [DecidableEq ν] in
theorem Good.mono {index : ν → U32} (h : Good index c) (hsub : ∀ b e, e ∈ c' b → e ∈ c b) :
    Good index c' := by
  constructor
  · intro b e he
    exact h.bucket (hsub b e he)
  · rintro e e' ⟨b, he⟩ ⟨b', he'⟩
    exact h.unique ⟨b, hsub b e he⟩ ⟨b', hsub b' e' he'⟩

theorem on_erase (hapart : Apart c) (e m : ν) : On (fun b => (c b).erase e) m ↔ On c m ∧ m ≠ e := by
  constructor
  · rintro ⟨b, hm⟩
    rcases (hapart.nodup b).mem_erase_iff.mp hm with ⟨hne, hm⟩
    exact ⟨⟨b, hm⟩, hne⟩
  · rintro ⟨⟨b, hm⟩, hne⟩
    exact ⟨b, (hapart.nodup b).mem_erase_iff.mpr ⟨hne, hm⟩⟩

omit [DecidableEq ν] in
theorem on_push (c : U32 → List ν) (b : U32) (e m : ν) :
    On (Function.update c b (e :: c b)) m ↔ m = e ∨ On c m := by
  constructor
  · rintro ⟨b', hm⟩
    by_cases hb : b' = b
    · rw [hb, Function.update_self, List.mem_cons] at hm
      exact hm.imp_right fun hm => ⟨b, hm⟩
    · rw [Function.update_of_ne hb] at hm
      exact .inr ⟨b', hm⟩
  · rintro (rfl | ⟨b', hm⟩)
    · refine ⟨b, ?_⟩
      rw [Function.update_self]
      exact List.mem_cons_self ..
    · refine ⟨b', ?_⟩
      by_cases hb : b' = b
      · subst hb
        rw [Function.update_self]
        exact List.mem_cons_of_mem e hm
      · rw [Function.update_of_ne hb]
        exact hm

theorem on_swap (hold : On c old) (m : ν) :
    On (fun b => (c b).map fun m => if m = old then new else m) m ↔
      m = new ∨ (On c m ∧ m ≠ old) := by
  constructor
  · rintro ⟨b, hm⟩
    rcases List.mem_map.mp hm with ⟨m', hm', heq⟩
    split at heq
    · exact .inl heq.symm
    · next hne =>
      subst heq
      exact .inr ⟨⟨b, hm'⟩, hne⟩
  · rintro (rfl | ⟨⟨b, hm⟩, hne⟩)
    · rcases hold with ⟨b, hb⟩
      exact ⟨b, List.mem_map.mpr ⟨old, hb, if_pos rfl⟩⟩
    · exact ⟨b, List.mem_map.mpr ⟨m, hm, if_neg hne⟩⟩

omit [DecidableEq ν] in
theorem hashed_of_wf (hwf : WF t.lists c) (own : List ν) :
    ∀ e ∉ own, On c e → t.lists.pprev e ≠ none := by
  rintro e - ⟨b, he⟩
  rcases hwf.split he with ⟨l₁, l₂, -, hpprev, -⟩
  rw [hpprev]
  exact Option.some_ne_none _

theorem pending_del (hwf : WF t.lists c) (hgood : Good t.index c) (e : ν) :
    Pending t [e] (delWrites t.lists e) c (fun b => (c b).erase e) ∧
      ¬ On (fun b => (c b).erase e) e := by
  refine ⟨⟨settles_del hwf e, ?_, ?_, unhashes_del _ e, hashed_of_wf hwf [e]⟩, ?_⟩
  · exact hgood.mono fun b m hm => List.mem_of_mem_erase hm
  · intro m hm
    exact .inl ((on_erase hwf.apart e m).mp hm).1
  · intro he
    exact ((on_erase hwf.apart e e).mp he).2 rfl

/-- An entry whose index nobody has can be linked. -/
theorem pending_addHead (hwf : WF t.lists c) (hgood : Good t.index c) (he : ¬ On c e)
    (hunused : ∀ m, On c m → t.index m ≠ t.index e) :
    Pending t [e] (addHeadWrites t.lists (indexBucket (t.index e)) e) c
      (Function.update c (indexBucket (t.index e)) (e :: c (indexBucket (t.index e)))) := by
  refine ⟨settles_addHead hwf _ fun b hb => he ⟨b, hb⟩, ⟨?_, ?_⟩, ?_, unhashes_addHead _ _ e,
    hashed_of_wf hwf [e]⟩
  · intro b m hm
    by_cases hb : b = indexBucket (t.index e)
    · rw [hb, Function.update_self, List.mem_cons] at hm
      rcases hm with rfl | hm
      · exact hb.symm
      · exact (hgood.bucket hm).trans hb.symm
    · rw [Function.update_of_ne hb] at hm
      exact hgood.bucket hm
  · intro m m' hm hm' hindex
    rcases (on_push c _ e m).mp hm with hme | hmc
    · rcases (on_push c _ e m').mp hm' with hme' | hmc'
      · rw [hme, hme']
      · rw [hme] at hindex
        exact absurd hindex.symm (hunused m' hmc')
    · rcases (on_push c _ e m').mp hm' with hme' | hmc'
      · rw [hme'] at hindex
        exact absurd hindex (hunused m hmc)
      · exact hgood.unique hmc hmc' hindex
  · intro m hm
    rcases (on_push c _ e m).mp hm with rfl | hm
    · exact .inr (List.mem_singleton_self m)
    · exact .inl hm

/-- With the index of the old entry, the new one can take its place. -/
theorem pending_replace (hwf : WF t.lists c) (hgood : Good t.index c) (hold : On c old)
    (hnew : ¬ On c new) :
    let t' := { t with index := Function.update t.index new (t.index old) }
    let c' := fun b => (c b).map fun m => if m = old then new else m
    Pending t' [old, new] (replaceWrites t.lists old new) c c' ∧ t'.index new = t'.index old ∧
      On c' new ∧ ¬ On c' old := by
  intro t' c'
  have hne : old ≠ new := by
    rintro rfl
    exact hnew hold
  have hindex_new : t'.index new = t.index old := Function.update_self ..
  have hindex : ∀ m, On c m → t'.index m = t.index m := by
    intro m hm
    refine Function.update_of_ne ?_ _ _
    rintro rfl
    exact hnew hm
  have hon : ∀ m, On c' m ↔ m = new ∨ (On c m ∧ m ≠ old) := on_swap hold
  rcases id hold with ⟨b₀, hb₀⟩
  refine ⟨⟨settles_replace hwf hb₀ fun b hb => hnew ⟨b, hb⟩, ⟨?_, ?_⟩, ?_,
    unhashes_replace _ old new, hashed_of_wf hwf [old, new]⟩, ?_, ?_, ?_⟩
  · intro b m hm
    rcases List.mem_map.mp hm with ⟨m', hm', heq⟩
    split at heq
    · next hold' =>
      subst hold' heq
      rw [hindex_new]
      exact hgood.bucket hm'
    · subst heq
      rw [hindex m' ⟨b, hm'⟩]
      exact hgood.bucket hm'
  · intro m m' hm hm' heq
    rcases (hon m).mp hm with hmn | ⟨hmc, hmo⟩
    · rcases (hon m').mp hm' with hmn' | ⟨hmc', hmo'⟩
      · rw [hmn, hmn']
      · rw [hmn, hindex_new, hindex m' hmc'] at heq
        exact absurd (hgood.unique hold hmc' heq).symm hmo'
    · rcases (hon m').mp hm' with hmn' | ⟨hmc', -⟩
      · rw [hmn', hindex_new, hindex m hmc] at heq
        exact absurd (hgood.unique hmc hold heq) hmo
      · rw [hindex m hmc, hindex m' hmc'] at heq
        exact hgood.unique hmc hmc' heq
  · intro m hm
    rcases (hon m).mp hm with rfl | ⟨hm, -⟩
    · exact .inr (List.mem_cons_of_mem old (List.mem_singleton_self m))
    · exact .inl hm
  · rw [hindex_new, hindex old hold]
  · exact (hon new).mpr (.inl rfl)
  · intro hm
    rcases (hon old).mp hm with heq | ⟨-, hmo⟩
    · exact hne heq
    · exact hmo rfl

omit [DecidableEq ν] in
/-- A walk over the bucket of an index sees all entries that have it. -/
theorem find_spec (hview : View t.lists c) (hgood : Good t.index c) {index : U32} {r : Option ν}
    (h : t.find index fuel = some r) : ∀ e, r = some e ↔ On c e ∧ t.index e = index := by
  have hr := scan_eq (hview (indexBucket index)) _ h
  intro e
  constructor
  · intro he
    rw [hr] at he
    have htest := List.find?_some he
    exact ⟨⟨_, List.mem_of_find?_eq_some he⟩, of_decide_eq_true htest⟩
  · rintro ⟨hon, hindex⟩
    rcases hon with ⟨b, hb⟩
    have hbucket : b = indexBucket index := by rw [← hgood.bucket hb, hindex]
    subst hbucket
    cases hfind : (c (indexBucket index)).find? (fun e => t.index e = index) with
    | none =>
      have hno := List.find?_eq_none.mp hfind e hb
      exact absurd (decide_eq_true hindex) hno
    | some m =>
      have htest := List.find?_some hfind
      have hm : t.index m = index := of_decide_eq_true htest
      rw [hr, hfind]
      exact congrArg some (hgood.unique ⟨_, List.mem_of_find?_eq_some hfind⟩ ⟨_, hb⟩
        (hm.trans hindex.symm))

end Sections

/-! ## Refinement

The table as the list of its linked entries, which the handshake uses. -/

section Refinement

open IndexHashtable

/-- The list has the linked entries, each with its index. -/
def Represents (index : IndexEntry → U32) (c : U32 → List IndexEntry) (l : IndexHashtable) : Prop :=
  ∀ i e, (i, e) ∈ l ↔ On c e ∧ index e = i

variable {t : Table IndexEntry} {c : U32 → List IndexEntry} {l : IndexHashtable}

/-- Every section does to the list what the operation on lists does. -/
theorem sections_refine (hwf : WF t.lists c) (hgood : Good t.index c) (hrep : Represents t.index c l) :
    (∀ e, ∃ c', WF (applyAll (delWrites t.lists e) t.lists) c' ∧
      Represents t.index c' (wgIndexHashtableRemove l e)) ∧
    (∀ e, ¬ On c e → ¬ l.InUse (t.index e) →
      ∃ c', WF (applyAll (addHeadWrites t.lists (indexBucket (t.index e)) e) t.lists) c' ∧
        Represents t.index c' ((t.index e, e) :: l)) ∧
    ∀ old new i l', ¬ On c new → wgIndexHashtableReplace l old new = some (i, l') →
      ∃ c', WF (applyAll (replaceWrites t.lists old new) t.lists) c' ∧
        Represents (Function.update t.index new (t.index old)) c' l' := by
  refine ⟨?_, ?_, ?_⟩
  · intro e
    rcases pending_del hwf hgood e with ⟨hp, -⟩
    refine ⟨_, hp.settles.wf_applyAll, ?_⟩
    intro i m
    rw [mem_remove, hrep, on_erase hwf.apart, and_right_comm]
  · intro e he hunused
    have hp := pending_addHead hwf hgood he fun m hm hindex =>
      hunused ⟨(t.index e, m), (hrep _ m).mpr ⟨hm, hindex⟩, rfl⟩
    refine ⟨_, hp.settles.wf_applyAll, ?_⟩
    intro i m
    rw [List.mem_cons, hrep, on_push, Prod.mk.injEq]
    constructor
    · rintro (⟨rfl, rfl⟩ | ⟨hm, hindex⟩)
      · exact ⟨.inl rfl, rfl⟩
      · exact ⟨.inr hm, hindex⟩
    · rintro ⟨rfl | hm, hindex⟩
      · exact .inl ⟨hindex.symm, rfl⟩
      · exact .inr ⟨hm, hindex⟩
  · intro old new i l' hnew hreplace
    rcases Option.map_eq_some_iff.mp hreplace with ⟨j, hindex, heq⟩
    cases heq
    have hold : On c old := ((hrep _ old).mp (indexOf_some hindex)).1
    rcases pending_replace hwf hgood hold hnew with ⟨hp, -⟩
    refine ⟨_, hp.settles.wf_applyAll, ?_⟩
    intro k m
    rw [on_swap hold, List.mem_map]
    constructor
    · rintro ⟨⟨k', m'⟩, hmem, heq⟩
      have hm' := (hrep k' m').mp hmem
      split at heq
      · next hold' =>
        cases hold'
        cases heq
        exact ⟨.inl rfl, (Function.update_self ..).trans hm'.2⟩
      · next hne =>
        cases heq
        refine ⟨.inr ⟨hm'.1, hne⟩, (Function.update_of_ne ?_ _ _).trans hm'.2⟩
        rintro rfl
        exact hnew hm'.1
    · rintro ⟨rfl | ⟨hm, hne⟩, hk⟩
      · rw [Function.update_self] at hk
        exact ⟨(k, old), (hrep k old).mpr ⟨hold, hk⟩, if_pos rfl⟩
      · have hmn : m ≠ new := by
          rintro rfl
          exact hnew hm
        rw [Function.update_of_ne hmn] at hk
        exact ⟨(k, m), (hrep k m).mpr ⟨hm, hk⟩, if_neg hne⟩

end Refinement

/-! ## Runs -/

variable {s' : State ν}

section Runs

variable {s : State ν} {c : U32 → List ν} {i : ℕ} {u : Call ν}

/-- If the lock can be taken, nobody is in the middle of a section. -/
theorem Inv.wf (h : Inv s c) (hlock : s.calls.any Call.locked = false) : WF s.table.lists c := by
  refine h.settled (List.countP_eq_zero.mpr ?_)
  intro v hv
  exact List.any_eq_false.mp hlock v hv

section Calls

variable {draw : U32} {fuel : ℕ} {t : Table ν} {next : Next ν} {rs : List Result}

/-- The first section of `wg_index_hashtable_insert`, and `wg_index_hashtable_remove`, begin. -/
theorem unlink_inv {insert : Bool} (h : Inv s c) (hu : s.calls[i]? = some (.unlink e insert))
    (hstep : stepCall s.table (s.calls.any Call.locked) draw fuel (.unlink e insert) =
      some (t, next)) : ∃ c', Inv ⟨t, resume s.calls i next.toOption, rs⟩ c' := by
  rw [stepCall] at hstep
  split at hstep
  · cases hstep
  · next hlock =>
    cases hstep
    have hlock' := Bool.eq_false_iff.mpr hlock
    rcases pending_del (h.wf hlock') h.good e with ⟨hp, hoff⟩
    refine ⟨c, h.own_step hu rfl rfl (fun _ _ => rfl) (fun _ _ => rfl) ?_ fun _ _ _ => hlock'⟩
    rintro v ⟨⟩
    exact ⟨⟨_, hp, hoff⟩, rfl⟩

/-- A write of the deletion, or its end. -/
theorem unlinking_inv {insert : Bool} (h : Inv s c)
    (hu : s.calls[i]? = some (.unlinking e insert ws))
    (hstep : stepCall s.table (s.calls.any Call.locked) draw fuel (.unlinking e insert ws) =
      some (t, next)) : ∃ c', Inv ⟨t, resume s.calls i next.toOption, rs⟩ c' := by
  have hok := h.calls _ (List.mem_of_getElem? hu)
  rcases hok with ⟨c', hp, hoff⟩
  cases ws with
  | cons w ws =>
    cases hstep
    refine h.write_step hu rfl hp rfl ?_ rfl
    intro c₂ _ hp₂
    exact ⟨c', hp₂, hoff⟩
  | nil =>
    cases hstep
    -- the section is over: readers see what it has settled to
    have hc : c = c' := by
      cases hp.settles
      rfl
    subst hc
    cases insert with
    | true =>
      refine ⟨c, h.release hu hp.settles ?_ ?_⟩
      · rintro v ⟨⟩
        exact ⟨hoff, rfl⟩
      · rintro v ⟨⟩
        rfl
    | false =>
      refine ⟨c, h.release hu hp.settles ?_ ?_⟩
      · rintro v ⟨⟩
      · rintro v ⟨⟩

/-- An index is drawn and looked up without the lock. -/
theorem probe_inv (h : Inv s c) (hu : s.calls[i]? = some (.probe e))
    (hstep : stepCall s.table (s.calls.any Call.locked) draw fuel (.probe e) = some (t, next)) :
    ∃ c', Inv ⟨t, resume s.calls i next.toOption, rs⟩ c' := by
  have hok := h.calls _ (List.mem_of_getElem? hu)
  rw [stepCall] at hstep
  -- the entry is not linked, so nobody sees its new index
  have hon : ∀ m, On c m → Function.update s.table.index e draw m = s.table.index m := by
    intro m hm
    refine Function.update_of_ne ?_ _ _
    rintro rfl
    exact hok hm
  have hes : ∀ m ∉ (Call.probe e).entries,
      Function.update s.table.index e draw m = s.table.index m := by
    intro m hm
    refine Function.update_of_ne ?_ _ _
    rintro rfl
    exact hm (List.mem_singleton_self m)
  have hgo : ∀ v : Call ν, v.locked = false → v.entries = [e] →
      CallOk { s.table with index := Function.update s.table.index e draw } c v →
      Inv ⟨{ s.table with index := Function.update s.table.index e draw },
        resume s.calls i (some v), rs⟩ c := by
    intro v hfree hentries hv
    refine h.own_step hu rfl ?_ hon hes ?_ ?_
    · rfl
    · rintro v' ⟨⟩
      exact ⟨hv, hentries⟩
    · rintro v' ⟨⟩ hlocked
      rw [hfree] at hlocked
      cases hlocked
  split at hstep
  · cases hstep
  · cases hstep
    exact ⟨c, hgo _ rfl rfl hok⟩
  · cases hstep
    exact ⟨c, hgo _ rfl rfl hok⟩

/-- The index is looked up again, under the lock. -/
theorem recheck_inv (h : Inv s c) (hu : s.calls[i]? = some (.recheck e))
    (hstep : stepCall s.table (s.calls.any Call.locked) draw fuel (.recheck e) = some (t, next)) :
    ∃ c', Inv ⟨t, resume s.calls i next.toOption, rs⟩ c' := by
  have hok := h.calls _ (List.mem_of_getElem? hu)
  rw [stepCall] at hstep
  split at hstep
  · cases hstep
  next hlock =>
  split at hstep
  · cases hstep
  · cases hstep
    refine ⟨c, h.own_step hu rfl rfl (fun _ _ => rfl) (fun _ _ => rfl) ?_ ?_⟩
    · rintro v ⟨⟩
      exact ⟨hok, rfl⟩
    · rintro v ⟨⟩ ⟨⟩
  · next hfind =>
    cases hstep
    have hlock' := Bool.eq_false_iff.mpr hlock
    -- nobody can take the index any more
    have hunused : ∀ m, On c m → s.table.index m ≠ s.table.index e := by
      intro m hm hindex
      cases (find_spec h.view h.good hfind m).mpr ⟨hm, hindex⟩
    have hp := pending_addHead (h.wf hlock') h.good hok hunused
    refine ⟨c, h.own_step hu rfl rfl (fun _ _ => rfl) (fun _ _ => rfl) ?_ fun _ _ _ => hlock'⟩
    rintro v ⟨⟩
    exact ⟨⟨_, hp⟩, rfl⟩

/-- A write of the insertion, or its end. -/
theorem linking_inv (h : Inv s c) (hu : s.calls[i]? = some (.linking e ws))
    (hstep : stepCall s.table (s.calls.any Call.locked) draw fuel (.linking e ws) =
      some (t, next)) : ∃ c', Inv ⟨t, resume s.calls i next.toOption, rs⟩ c' := by
  have hok := h.calls _ (List.mem_of_getElem? hu)
  rcases hok with ⟨c', hp⟩
  cases ws with
  | cons w ws =>
    cases hstep
    refine h.write_step hu rfl hp rfl ?_ rfl
    intro c₂ _ hp₂
    exact ⟨c', hp₂⟩
  | nil =>
    cases hstep
    refine ⟨c, h.release hu hp.settles ?_ ?_⟩
    · rintro v ⟨⟩
    · rintro v ⟨⟩

/-- `wg_index_hashtable_replace` begins. -/
theorem replace_inv (h : Inv s c) (hu : s.calls[i]? = some (.replace old new))
    (hstep : stepCall s.table (s.calls.any Call.locked) draw fuel (.replace old new) =
      some (t, next)) : ∃ c', Inv ⟨t, resume s.calls i next.toOption, rs⟩ c' := by
  have hok := h.calls _ (List.mem_of_getElem? hu)
  rw [stepCall] at hstep
  split at hstep
  · cases hstep
  next hlock =>
  have hlock' := Bool.eq_false_iff.mpr hlock
  split at hstep
  · cases hstep
    refine ⟨c, h.own_step hu rfl rfl (fun _ _ => rfl) (fun _ _ => rfl) ?_ ?_⟩
    · rintro v ⟨⟩
    · rintro v ⟨⟩
  · next slot hpprev =>
    cases hstep
    have hold : On c old := by
      by_contra hoff
      rw [(h.wf hlock').unhashed old fun b hb => hoff ⟨b, hb⟩] at hpprev
      cases hpprev
    rcases pending_replace (h.wf hlock') h.good hold hok with ⟨hp, hindex, hon, hoff⟩
    refine ⟨c, h.own_step hu rfl ?_ ?_ ?_ ?_ fun _ _ _ => hlock'⟩
    · rfl
    · intro m hm
      refine Function.update_of_ne ?_ _ _
      rintro rfl
      exact hok hm
    · intro m hm
      refine Function.update_of_ne ?_ _ _
      rintro rfl
      exact hm (List.mem_cons_of_mem old (List.mem_singleton_self m))
    · rintro v ⟨⟩
      exact ⟨⟨_, hp, hindex, hon, hoff, .inr ⟨hold, hok⟩⟩, rfl⟩

/-- A write of the replacement, or its end. -/
theorem replacing_inv (h : Inv s c) (hu : s.calls[i]? = some (.replacing old new ws))
    (hstep : stepCall s.table (s.calls.any Call.locked) draw fuel (.replacing old new ws) =
      some (t, next)) : ∃ c', Inv ⟨t, resume s.calls i next.toOption, rs⟩ c' := by
  have hok := h.calls _ (List.mem_of_getElem? hu)
  rcases hok with ⟨c', hp, hindex, hon, hoff, hcases⟩
  cases ws with
  | cons w ws =>
    cases hstep
    refine h.write_step hu rfl hp rfl ?_ rfl
    intro c₂ hc₂ hp₂
    refine ⟨c', hp₂, hindex, hon, hoff, ?_⟩
    rcases hc₂ with rfl | rfl
    · exact hcases
    · exact .inl rfl
  | nil =>
    cases hstep
    refine ⟨c, h.release hu hp.settles ?_ ?_⟩
    · rintro v ⟨⟩
    · rintro v ⟨⟩

theorem stepCall_inv (h : Inv s c) (hu : s.calls[i]? = some u)
    (hstep : stepCall s.table (s.calls.any Call.locked) draw fuel u = some (t, next)) :
    ∃ c', Inv ⟨t, resume s.calls i next.toOption, rs⟩ c' := by
  cases u with
  | unlink e insert => exact unlink_inv h hu hstep
  | unlinking e insert ws => exact unlinking_inv h hu hstep
  | probe e => exact probe_inv h hu hstep
  | recheck e => exact recheck_inv h hu hstep
  | linking e ws => exact linking_inv h hu hstep
  | replace old new => exact replace_inv h hu hstep
  | replacing old new ws => exact replacing_inv h hu hstep

end Calls

/-- An entry that no call is made for is linked only if it is hashed. -/
theorem Inv.hashed (h : Inv s c) (he : e ∉ s.calls.flatMap Call.entries) (hon : On c e) :
    s.table.lists.pprev e ≠ none := by
  by_cases hzero : s.calls.countP Call.locked = 0
  · exact hashed_of_wf (h.settled hzero) [] e List.not_mem_nil hon
  · rcases List.countP_pos_iff.mp (Nat.pos_of_ne_zero hzero) with ⟨v, hv, hlocked⟩
    have hout : e ∉ v.entries := fun hmem => he (List.mem_flatMap.mpr ⟨v, hv, hmem⟩)
    have hok := h.calls v hv
    cases v with
    | unlinking e' insert ws =>
      rcases hok with ⟨c', hp, -⟩
      exact hp.hashed e hout hon
    | linking e' ws =>
      rcases hok with ⟨c', hp⟩
      exact hp.hashed e hout hon
    | replacing old new ws =>
      rcases hok with ⟨c', hp, -⟩
      exact hp.hashed e hout hon
    | _ => cases hlocked

/-- The start of a call. -/
theorem startCall_inv (h : Inv s c) {u : Call ν} (hstart : startCall s u = some s')
    (hu : CallOk s.table c u) (hfree : u.locked = false) (hnodup : u.entries.Nodup) : Inv s' c := by
  unfold startCall at hstart
  split at hstart
  · next hdisjoint =>
    cases hstart
    have hcount : (s.calls ++ [u]).countP Call.locked = s.calls.countP Call.locked := by
      rw [List.countP_append, List.countP_singleton, if_neg (Bool.eq_false_iff.mp hfree)]
      rfl
    refine ⟨h.view, h.apart, h.good, ?_, ?_, ?_, ?_⟩
    · intro v hv
      rcases List.mem_append.mp hv with hv | hv
      · exact h.calls v hv
      · rw [List.mem_singleton.mp hv]
        exact hu
    · rw [List.flatMap_append, List.flatMap_singleton, List.nodup_append]
      refine ⟨h.entries, hnodup, ?_⟩
      rintro e he e' he' rfl
      exact hdisjoint e he' he
    · show (s.calls ++ [u]).countP Call.locked ≤ 1
      rw [hcount]
      exact h.lock
    · intro hzero
      exact h.settled (hcount.symm.trans hzero)
  · cases hstart

/-- What a lookup does with the entry that the walk finds. It changes neither the lists nor an
index. -/
theorem lookup_spec {typeMask index : U32} {found : Option ν}
    (hfind : t.find index fuel = some found) :
    ∃ t' r, wgIndexHashtableLookup t typeMask index fuel = some (t', r) ∧
      t'.lists = t.lists ∧ t'.index = t.index ∧
      ∀ e p, r = some (e, p) ↔ found = some e ∧ t.type e &&& typeMask ≠ 0 ∧ t.peer e = some p ∧
        t.refcount p ≠ 0 := by
  unfold wgIndexHashtableLookup
  rw [hfind]
  cases found with
  | none => exact ⟨_, _, rfl, rfl, rfl, by grind⟩
  | some m =>
    dsimp only
    split
    · exact ⟨_, _, rfl, rfl, rfl, by grind⟩
    split
    · exact ⟨_, _, rfl, rfl, rfl, by grind⟩
    split
    · exact ⟨_, _, rfl, rfl, rfl, by grind⟩
    · exact ⟨_, _, rfl, rfl, rfl, by grind⟩

theorem lookup_frame {typeMask index : U32} {r : Option (ν × ℕ)}
    (h : wgIndexHashtableLookup t typeMask index fuel = some (t', r)) :
    t'.lists = t.lists ∧ t'.index = t.index := by
  cases hfind : t.find index fuel with
  | none =>
    rw [wgIndexHashtableLookup, hfind] at h
    cases h
  | some found =>
    rcases lookup_spec hfind with ⟨t'', r', heq, hlists, hindex, -⟩
    cases h.symm.trans heq
    exact ⟨hlists, hindex⟩

/-- The other fields of the table do not matter. -/
theorem Inv.frame (h : Inv s c) (hlists : t.lists = s.table.lists)
    (hindex : t.index = s.table.index) : Inv { s with table := t } c := by
  refine ⟨hlists ▸ h.view, h.apart, hindex ▸ h.good, ?_, h.entries, h.lock, ?_⟩
  · intro v hv
    refine (h.calls v hv).index [] hlists ?_ ?_ ?_
    · intro e _
      rw [hindex]
    · intro e _
      rw [hindex]
    · intro e _ he
      cases he
  · intro hzero
    show WF t.lists c
    rw [hlists]
    exact h.settled hzero

theorem step_inv (h : Inv s c) {a : Act ν} (hfresh : FreshReplacement s a) {s' : State ν}
    (hstep : step s a = some s') : ∃ c', Inv s' c' := by
  cases a with
  | insert e => exact ⟨c, startCall_inv h hstep trivial rfl (List.nodup_singleton e)⟩
  | remove e => exact ⟨c, startCall_inv h hstep trivial rfl (List.nodup_singleton e)⟩
  | replace old new =>
    have hstart := hstep
    rw [step, startCall] at hstep
    split at hstep
    · next hdisjoint =>
      -- the new entry is not hashed, and nobody is about to hash it
      have hoff : ¬ On c new := fun hon =>
        h.hashed (hdisjoint new (List.mem_cons_of_mem old (List.mem_singleton_self new))) hon
          hfresh.2
      refine ⟨c, startCall_inv h hstart hoff rfl ?_⟩
      exact List.nodup_cons.mpr ⟨List.mem_singleton.not.mpr hfresh.1, List.nodup_singleton new⟩
    · cases hstep
  | step i draw fuel =>
    rw [step] at hstep
    split at hstep
    · cases hstep
    · next u hu =>
      rcases Option.map_eq_some_iff.mp hstep with ⟨⟨t, next⟩, hcall, rfl⟩
      exact stepCall_inv h hu hcall
  | lookup typeMask index fuel =>
    rcases Option.map_eq_some_iff.mp hstep with ⟨⟨t, r⟩, hlookup, rfl⟩
    rcases lookup_frame hlookup with ⟨hlists, hindex⟩
    exact ⟨c, h.frame hlists hindex⟩
  | refs p n =>
    cases hstep
    exact ⟨c, h.frame rfl rfl⟩

theorem start_inv (index type : ν → U32) (peer : ν → Option ℕ) (refcount : ℕ → ℕ) :
    Inv (start index type peer refcount) fun _ => [] := by
  have hwf : WF (start index type peer refcount).table.lists fun _ => [] := by
    refine ⟨fun b => rfl, ⟨fun b => List.nodup_nil, ?_⟩, fun b => trivial, fun n _ => rfl⟩
    intro b b' n hn
    cases hn
  refine ⟨hwf.view, hwf.apart, ⟨?_, ?_⟩, ?_, List.nodup_nil, Nat.zero_le 1, fun _ => hwf⟩
  · intro b e he
    cases he
  · rintro e e' ⟨b, he⟩
    cases he
  · intro u hu
    cases hu

end Runs

/-! ## Result -/

/-- A reader can reach the entry. -/
def Linked (t : Table ν) (e : ν) : Prop := ∃ b k, t.lists.nth b k = some e

/-- The call is between taking the lock and returning. -/
def Replacing (old new : ν) (s : State ν) : Prop := ∃ ws, .replacing old new ws ∈ s.calls

/-- What holds in every state: no index is in use twice, every entry is linked at most once
and in the bucket of its index, a replacement leaves one of the two entries visible at
any time, and a lookup finds the entry with the index. -/
structure Sound (s : State ν) : Prop where
  unique : ∀ e e', Linked s.table e → Linked s.table e' → s.table.index e = s.table.index e' → e = e'
  once : ∀ b k b' k' e, s.table.lists.nth b k = some e → s.table.lists.nth b' k' = some e →
    b = b' ∧ k = k'
  bucket : ∀ b k e, s.table.lists.nth b k = some e → b = indexBucket (s.table.index e)
  transfer : ∀ old new ws, .replacing old new ws ∈ s.calls →
    s.table.index new = s.table.index old ∧ (Linked s.table new ↔ ¬ Linked s.table old) ∧
      (ws = [] → Linked s.table new)
  lookup : ∀ typeMask index, ∃ enough, ∀ fuel ≥ enough, ∃ t r,
    wgIndexHashtableLookup s.table typeMask index fuel = some (t, r) ∧
      ∀ e p, r = some (e, p) ↔ Linked s.table e ∧ s.table.index e = index ∧
        s.table.type e &&& typeMask ≠ 0 ∧ s.table.peer e = some p ∧ s.table.refcount p ≠ 0

/-- What becomes of a call `replace old new` that takes the lock in `s`. -/
structure Replaces (s : State ν) (old new : ν) (i : ℕ) : Prop where
  /-- If the old entry is not linked, the call returns false and has changed nothing. -/
  refused : ¬ Linked s.table old → ∀ draw fuel s', step s (.step i draw fuel) = some s' →
    s'.table = s.table ∧ s'.returned = .replaced false :: s.returned
  /-- If it is linked, the call goes on, and its steps lead to its end. Whatever happens in
  between, the new entry has the index that the old one had and has, and one of the two is
  linked; when the call returns it is the new one, and the answer is true. -/
  transferred : Linked s.table old → ∀ draw fuel s', step s (.step i draw fuel) = some s' →
    Replacing old new s' ∧
    (∃ n s'', (machine ν).run s' (List.replicate n (.step i draw fuel)) = some s'' ∧
      ¬ Replacing old new s'') ∧
    ∀ acts s'', (machine ν).run s' acts = some s'' →
      (machine ν).AllSteps (fun s a => FreshReplacement s a ∧ Replacing old new s) s' acts →
      s''.table.index old = s.table.index old ∧ s''.table.index new = s.table.index old ∧
        (Linked s''.table new ↔ ¬ Linked s''.table old) ∧
        (¬ Replacing old new s'' →
          Linked s''.table new ∧ ∃ rs, s''.returned = .replaced true :: rs)

section Result

variable {s : State ν} {c : U32 → List ν}

theorem Inv.linked_iff (h : Inv s c) (e : ν) : Linked s.table e ↔ On c e := by
  constructor
  · rintro ⟨b, k, hnth⟩
    rw [h.view.nth] at hnth
    exact ⟨b, List.mem_of_getElem? hnth⟩
  · rintro ⟨b, he⟩
    rcases List.mem_iff_getElem?.mp he with ⟨k, hk⟩
    exact ⟨b, k, (h.view.nth b k).trans hk⟩

theorem Inv.lookup (h : Inv s c) (typeMask index : U32)
    (hfuel : (c (indexBucket index)).length < fuel) :
    ∃ t r, wgIndexHashtableLookup s.table typeMask index fuel = some (t, r) ∧
      ∀ e p, r = some (e, p) ↔ On c e ∧ s.table.index e = index ∧
        s.table.type e &&& typeMask ≠ 0 ∧ s.table.peer e = some p ∧ s.table.refcount p ≠ 0 := by
  have hfind : s.table.find index fuel =
      some ((c (indexBucket index)).find? fun e => s.table.index e = index) :=
    scan_of_lt (h.view _) _ hfuel
  rcases lookup_spec hfind with ⟨t, r, hlookup, -, -, hr⟩
  refine ⟨t, r, hlookup, ?_⟩
  intro e p
  rw [hr, find_spec h.view h.good hfind, and_assoc]

theorem Inv.sound (h : Inv s c) : Sound s := by
  constructor
  · intro e e' he he' hindex
    exact h.good.unique ((h.linked_iff e).mp he) ((h.linked_iff e').mp he') hindex
  · intro b k b' k' e hk hk'
    rw [h.view.nth] at hk hk'
    have hb : b = b' := h.apart.disjoint (List.mem_of_getElem? hk) (List.mem_of_getElem? hk')
    subst hb
    refine ⟨rfl, ?_⟩
    rcases List.getElem?_eq_some_iff.mp hk with ⟨hlt, heq⟩
    rcases List.getElem?_eq_some_iff.mp hk' with ⟨hlt', heq'⟩
    exact (h.apart.nodup b).getElem_inj_iff.mp (heq.trans heq'.symm)
  · intro b k e hk
    rw [h.view.nth] at hk
    exact (h.good.bucket (List.mem_of_getElem? hk)).symm
  · intro old new ws hmem
    rcases h.calls _ hmem with ⟨c', hp, hindex, hon, hoff, hcases⟩
    rw [h.linked_iff, h.linked_iff]
    refine ⟨hindex, ?_, ?_⟩
    · rcases hcases with rfl | ⟨hold, hnew⟩
      · exact iff_of_true hon hoff
      · exact iff_of_false hnew (not_not.mpr hold)
    · rintro rfl
      cases hp.settles
      exact hon
  · intro typeMask index
    refine ⟨(c (indexBucket index)).length + 1, ?_⟩
    intro fuel hfuel
    simp only [h.linked_iff]
    exact h.lookup typeMask index hfuel

end Result

/-! ## Replacement -/

section Replacement

variable {s : State ν} {c : U32 → List ν} {old new : ν} {ws : List (Write U32 ν)} {i : ℕ}

/-- A call changes the index of no entry but its own. -/
theorem stepCall_index {locked : Bool} {draw : U32} {u : Call ν} {next : Next ν}
    (h : stepCall t locked draw fuel u = some (t', next)) (he : e ∉ u.entries) :
    t'.index e = t.index e := by
  cases u with
  | unlink e' insert =>
    rw [stepCall] at h
    split at h
    · cases h
    · cases h
      rfl
  | unlinking e' insert ws => cases ws <;> cases h <;> rfl
  | probe e' =>
    have hne : e ≠ e' := fun heq => he (heq ▸ List.mem_singleton_self e)
    rw [stepCall] at h
    split at h <;> cases h <;> exact Function.update_of_ne hne _ _
  | recheck e' =>
    rw [stepCall] at h
    split at h
    · cases h
    · split at h <;> cases h <;> rfl
  | linking e' ws => cases ws <;> cases h <;> rfl
  | replace old new =>
    have hne : e ≠ new := fun heq =>
      he (heq ▸ List.mem_cons_of_mem old (List.mem_singleton_self e))
    rw [stepCall] at h
    split at h
    · cases h
    · split at h <;> cases h
      · rfl
      · exact Function.update_of_ne hne _ _
  | replacing old new ws => cases ws <;> cases h <;> rfl

/-- A call that replaces goes on; or it has nothing left to write, and returns true. -/
def Proceeds (old new : ν) (ws : List (Write U32 ν)) (s s' : State ν) : Prop :=
  Replacing old new s' ∨
    ws = [] ∧ s'.table = s.table ∧ s'.returned = .replaced true :: s.returned

/-- A step of a call that replaces is a write, or its return. -/
theorem replacing_own_step (hi : s.calls[i]? = some (.replacing old new ws)) {draw : U32}
    (hstep : step s (.step i draw fuel) = some s') :
    s'.table.index = s.table.index ∧ Proceeds old new ws s s' := by
  rw [step, hi] at hstep
  cases ws with
  | nil =>
    cases hstep
    exact ⟨rfl, .inr ⟨rfl, rfl, rfl⟩⟩
  | cons w ws =>
    cases hstep
    refine ⟨rfl, .inl ⟨ws, List.mem_of_getElem? (i := i) ?_⟩⟩
    exact List.getElem?_set_self (List.getElem?_eq_some_iff.mp hi).1

/-- While a call replaces, nobody changes the index of its entries, and it goes on until it
returns true itself. -/
theorem Inv.replacing_step (h : Inv s c) (hmem : .replacing old new ws ∈ s.calls) {a : Act ν}
    (hstep : step s a = some s') :
    (s'.table.index old = s.table.index old ∧ s'.table.index new = s.table.index new) ∧
      Proceeds old new ws s s' := by
  have hstart : ∀ u, startCall s u = some s' →
      (s'.table.index old = s.table.index old ∧ s'.table.index new = s.table.index new) ∧
        Proceeds old new ws s s' := by
    intro u hu
    unfold startCall at hu
    split at hu
    · cases hu
      exact ⟨⟨rfl, rfl⟩, .inl ⟨ws, List.mem_append_left _ hmem⟩⟩
    · cases hu
  cases a with
  | insert e => exact hstart _ hstep
  | remove e => exact hstart _ hstep
  | replace old' new' => exact hstart _ hstep
  | lookup typeMask index fuel =>
    rcases Option.map_eq_some_iff.mp hstep with ⟨⟨t, r⟩, hlookup, rfl⟩
    have hindex : t.index = s.table.index := (lookup_frame hlookup).2
    exact ⟨⟨congrFun hindex old, congrFun hindex new⟩, .inl ⟨ws, hmem⟩⟩
  | refs p n =>
    cases hstep
    exact ⟨⟨rfl, rfl⟩, .inl ⟨ws, hmem⟩⟩
  | step j draw fuel =>
    cases hj : s.calls[j]? with
    | none =>
      rw [step, hj] at hstep
      cases hstep
    | some u =>
      by_cases heq : u = .replacing old new ws
      · subst heq
        rcases replacing_own_step hj hstep with ⟨hindex, hrest⟩
        exact ⟨⟨congrFun hindex old, congrFun hindex new⟩, hrest⟩
      · -- another call has other entries
        have hother : .replacing old new ws ∈ s.calls.eraseIdx j := by
          rcases List.mem_cons.mp ((perm_thread hj).mem_iff.mp hmem) with hself | hother
          · exact absurd hself.symm heq
          · exact hother
        have hdisjoint := (h.others hj hother).2.1
        rw [step, hj] at hstep
        rcases Option.map_eq_some_iff.mp hstep with ⟨⟨t, next⟩, hcall, rfl⟩
        have hold : old ∉ u.entries := hdisjoint old (List.mem_cons_self ..)
        have hnew : new ∉ u.entries :=
          hdisjoint new (List.mem_cons_of_mem old (List.mem_singleton_self new))
        exact ⟨⟨stepCall_index hcall hold, stepCall_index hcall hnew⟩,
          .inl ⟨ws, mem_resume_of_ne hj _ hmem (Ne.symm heq)⟩⟩

/-- Its own steps bring a call that replaces to its end. -/
theorem replacing_returns (hi : s.calls[i]? = some (.replacing old new ws)) (draw : U32) (fuel : ℕ) :
    ∃ n s', (machine ν).run s (List.replicate n (.step i draw fuel)) = some s' ∧
      s'.calls = s.calls.eraseIdx i := by
  induction ws generalizing s with
  | nil =>
    refine ⟨1, ⟨s.table, s.calls.eraseIdx i, .replaced true :: s.returned⟩, ?_, rfl⟩
    have hstep : (machine ν).step s (.step i draw fuel) =
        some ⟨s.table, s.calls.eraseIdx i, .replaced true :: s.returned⟩ := by
      dsimp only [machine, step]
      rw [hi]
      rfl
    rw [List.replicate_one, Machine.run_cons, hstep]
    rfl
  | cons w ws ih =>
    have hset : (s.calls.set i (.replacing old new ws))[i]? = some (.replacing old new ws) := by
      rw [List.getElem?_set_self (List.getElem?_eq_some_iff.mp hi).1]
    rcases @ih ⟨{ s.table with lists := w.apply s.table.lists },
      s.calls.set i (.replacing old new ws), s.returned⟩ hset with ⟨n, s', hrun, hcalls⟩
    refine ⟨n + 1, s', ?_, ?_⟩
    · have hstep : (machine ν).step s (.step i draw fuel) =
          some ⟨{ s.table with lists := w.apply s.table.lists },
            s.calls.set i (.replacing old new ws), s.returned⟩ := by
        dsimp only [machine, step]
        rw [hi]
        rfl
      rw [List.replicate_succ, Machine.run_cons, hstep]
      exact hrun
    · rw [hcalls]
      exact List.eraseIdx_set_eq ..

/-- The first step of a call that replaces, under the lock. -/
theorem Inv.replace_step (h : Inv s c) (hi : s.calls[i]? = some (.replace old new)) {draw : U32}
    (hstep : step s (.step i draw fuel) = some s') :
    (¬ Linked s.table old →
      s'.table = s.table ∧ s'.returned = .replaced false :: s.returned) ∧
    (Linked s.table old → s'.table.index old = s.table.index old ∧
      s'.table.index new = s.table.index old ∧
      ∃ ws, s'.calls[i]? = some (.replacing old new ws)) := by
  have hnew : ¬ On c new := h.calls _ (List.mem_of_getElem? hi)
  rw [step, hi] at hstep
  dsimp only [stepCall] at hstep
  split at hstep
  · cases hstep
  next hlock =>
  have hwf := h.wf (Bool.eq_false_iff.mpr hlock)
  rw [h.linked_iff]
  constructor
  · rintro hoff
    rw [hwf.unhashed old fun b hb => hoff ⟨b, hb⟩] at hstep
    cases hstep
    exact ⟨rfl, rfl⟩
  · intro hon
    have hne : old ≠ new := by
      rintro rfl
      exact hnew hon
    cases hpprev : s.table.lists.pprev old with
    | none => exact absurd hpprev (hashed_of_wf hwf [] old List.not_mem_nil hon)
    | some slot =>
      rw [hpprev] at hstep
      cases hstep
      refine ⟨Function.update_of_ne hne _ _, Function.update_self ..,
        replaceWrites s.table.lists old new, ?_⟩
      exact List.getElem?_set_self (List.getElem?_eq_some_iff.mp hi).1

/-- A call that has transferred `index`, until it returns and right after that. -/
structure Transferring (old new : ν) (index : U32) (s : State ν) : Prop where
  inv : ∃ c, Inv s c
  old_index : s.table.index old = index
  new_index : s.table.index new = index
  progress : Replacing old new s ∨
    Linked s.table new ∧ ¬ Linked s.table old ∧ ∃ rs, s.returned = .replaced true :: rs

/-- The step lemma: whoever steps, the call goes on, or has just returned. -/
theorem Transferring.step {index : U32} (h : Transferring old new index s) {a : Act ν}
    (hfresh : FreshReplacement s a) (hreplacing : Replacing old new s)
    (hstep : IndexTable.step s a = some s') : Transferring old new index s' := by
  rcases h.inv with ⟨c, hinv⟩
  rcases hreplacing with ⟨ws, hmem⟩
  rcases hinv.replacing_step hmem hstep with ⟨⟨hold, hnew⟩, hcases⟩
  refine ⟨step_inv hinv hfresh hstep, hold.trans h.old_index, hnew.trans h.new_index, ?_⟩
  rcases hcases with hgoes | ⟨rfl, htable, hreturned⟩
  · exact .inl hgoes
  · -- nothing is left to write, so the new entry is linked
    rcases hinv.sound.transfer old new [] hmem with ⟨-, hiff, hlinked⟩
    rw [htable]
    exact .inr ⟨hlinked rfl, hiff.mp (hlinked rfl), _, hreturned⟩

/-- What holds from the first step of the call to its return. -/
theorem Inv.replaces (h : Inv s c) (hi : s.calls[i]? = some (.replace old new)) :
    Replaces s old new i := by
  constructor
  · intro hoff draw fuel s' hstep
    exact (h.replace_step hi hstep).1 hoff
  intro hon draw fuel s' hstep
  rcases (h.replace_step hi hstep).2 hon with ⟨hold, hnew, ws, hi'⟩
  have hinv' : ∃ c', Inv s' c' := @step_inv _ _ _ _ h (.step i draw fuel) trivial _ hstep
  refine ⟨⟨ws, List.mem_of_getElem? hi'⟩, ?_, ?_⟩
  · rcases replacing_returns hi' draw fuel with ⟨n, s'', hrun, hcalls⟩
    refine ⟨n, s'', hrun, ?_⟩
    rintro ⟨ws', hmem⟩
    rw [hcalls] at hmem
    rcases hinv' with ⟨c', h'⟩
    exact (h'.others hi' hmem).2.1 old (List.mem_cons_self ..) (List.mem_cons_self ..)
  · intro acts s'' hrun hsteps
    have hstart : Transferring old new (s.table.index old) s' :=
      ⟨hinv', hold, hnew, .inl ⟨ws, List.mem_of_getElem? hi'⟩⟩
    have hend : Transferring old new (s.table.index old) s'' :=
      (machine ν).runs_invariant (fun s₁ a s₂ h₁ hok hstep₁ => h₁.step hok.1 hok.2 hstep₁) hstart
        hsteps hrun
    rcases hend.inv with ⟨c'', h''⟩
    refine ⟨hend.old_index, hend.new_index, ?_, ?_⟩
    · rcases hend.progress with ⟨ws'', hmem⟩ | ⟨hlinked, hoff, -⟩
      · exact (h''.sound.transfer old new ws'' hmem).2.1
      · exact iff_of_true hlinked hoff
    · intro hdone
      rcases hend.progress with hgoes | ⟨hlinked, -, hreturned⟩
      · exact absurd hgoes hdone
      · exact ⟨hlinked, hreturned⟩

end Replacement

/-- If only entries that are not linked take the place of others, the table is sound after
any run, from any entries on, and a call that replaces an entry does so if it is linked,
and does nothing else. -/
theorem table_sound (index type : ν → U32) (peer : ν → Option ℕ) (refcount : ℕ → ℕ)
    {acts : List (Act ν)} {s : State ν}
    (hrun : (machine ν).run (start index type peer refcount) acts = some s)
    (hfresh : (machine ν).AllSteps FreshReplacement (start index type peer refcount) acts) :
    Sound s ∧ ∀ i old new, s.calls[i]? = some (.replace old new) → Replaces s old new i := by
  have hinv : ∃ c, Inv s c := by
    refine @Machine.runs_invariant _ _ (machine ν) _ (fun s => ∃ c, Inv s c) ?_ _ _ _
      ⟨_, start_inv index type peer refcount⟩ hfresh hrun
    rintro s a s' ⟨c, h⟩ hok hstep
    exact step_inv h hok hstep
  rcases hinv with ⟨c, h⟩
  exact ⟨h.sound, fun i old new hi => h.replaces hi⟩

/-! ## Samples -/

def decidableFreshReplacement (s : State ν) : ∀ a, Decidable (FreshReplacement s a)
  | .replace _ _ => inferInstanceAs (Decidable (_ ∧ _))
  | .insert _ | .remove _ | .step .. | .lookup .. | .refs .. => .isTrue trivial

instance (s : State ν) (acts : List (Act ν)) :
    Decidable ((machine ν).AllSteps FreshReplacement s acts) :=
  (machine ν).decidableAllSteps decidableFreshReplacement s acts

/-- Entries of one peer, none of which is linked. -/
def sampleStart : State ℕ := start (fun _ => 0) (fun _ => 1) (fun _ => some 0) (fun _ => 1)

/-- An entry is inserted under an index whose bucket is empty. -/
def sampleInsert (e : ℕ) (draw : U32) : List (Act ℕ) :=
  .insert e :: List.replicate 8 (.step 0 draw 1)

/-- An entry takes the place of the only one in its bucket. -/
def sampleReplace (old new : ℕ) : List (Act ℕ) :=
  .replace old new :: List.replicate 8 (.step 0 0 1)

theorem table_sound_replaced :
    ∃ s, (machine ℕ).run sampleStart (sampleInsert 0 5 ++ sampleReplace 0 1) = some s ∧ Sound s ∧
      s.table.lists.nth 5 0 = some 1 ∧ s.table.lists.nth 5 1 = none := by
  have hfresh : (machine ℕ).AllSteps FreshReplacement sampleStart
      (sampleInsert 0 5 ++ sampleReplace 0 1) := by decide
  exact ⟨_, rfl, (table_sound _ _ _ _ rfl hfresh).1, rfl, rfl⟩

/-- An entry that is linked already ends up in two buckets if it takes the place of
another one. -/
theorem replace_linked :
    ∃ acts s, (machine ℕ).run sampleStart acts = some s ∧ s.table.lists.nth 5 0 = some 1 ∧
      s.table.lists.nth 6 0 = some 1 :=
  ⟨sampleInsert 0 5 ++ sampleInsert 1 6 ++ sampleReplace 0 1, _, rfl, rfl, rfl⟩

end AmneziaWg.IndexTable
