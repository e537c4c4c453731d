import Mathlib.Data.List.Basic
import Mathlib.Data.List.Nodup
import Mathlib.Logic.Function.Basic

/-!
# Hash lists, pointer by pointer

Buckets of singly linked nodes, where a node also knows the slot that points to it.
Nodes are added, deleted and replaced by single writes to memory, and readers may walk
a list between any two of them. Every such section has one write that a reader sees;
before it a walk gives the old lists, after it the new ones.

* **Model**: `Lists`, `Write`, `delWrites`, `addHeadWrites`, `replaceWrites`, `scan`.
* **Abstraction**: `View`, the lists that a walk sees; `WF`, with the back pointers.
* **Rules**: `settles_del`, `settles_addHead`, `settles_replace`, and `scan_eq`.
-/

namespace Hlist

variable {β ν : Type*}

/-! ## Model layer -/

/-- A place that points to a node. -/
inductive Slot (β ν : Type*) where
  | first (b : β)
  | next (n : ν)
  /-- `LIST_POISON2`. -/
  | poison

/-- The heads of the buckets, and the nodes. A node is unhashed without a `pprev`. -/
structure Lists (β ν : Type*) where
  first : β → Option ν
  next : ν → Option ν
  pprev : ν → Option (Slot β ν)

/-- What a slot points to. -/
def Lists.load (h : Lists β ν) : Slot β ν → Option ν
  | .first b => h.first b
  | .next n => h.next n
  | .poison => none

/-- One write to memory. -/
inductive Write (β ν : Type*) where
  | slot (s : Slot β ν) (v : Option ν)
  | pprev (n : ν) (s : Option (Slot β ν))

/-- `hlist_del_init_rcu`: an unhashed node is left alone. -/
def delWrites (h : Lists β ν) (n : ν) : List (Write β ν) :=
  match h.pprev n with
  | none => []
  | some s =>
    .slot s (h.next n) ::
      (((h.next n).toList.map fun m => .pprev m (some s)) ++ [.pprev n none])

/-- `hlist_add_head_rcu`. -/
def addHeadWrites (h : Lists β ν) (b : β) (n : ν) : List (Write β ν) :=
  [.slot (.next n) (h.first b), .pprev n (some (.first b))] ++ .slot (.first b) (some n) ::
    (h.first b).toList.map fun m => .pprev m (some (.next n))

/-- `hlist_replace_rcu` of a hashed node, and `INIT_HLIST_NODE` of the old one. -/
def replaceWrites (h : Lists β ν) (old new : ν) : List (Write β ν) :=
  match h.pprev old with
  | none => []
  | some s =>
    [.slot (.next new) (h.next old), .pprev new (some s)] ++ .slot s (some new) ::
      (((h.next old).toList.map fun m => .pprev m (some (.next new))) ++
        [.pprev old (some .poison), .slot (.next old) none, .pprev old none])

/-- A walk that stops at the first node with the property, in at most so many steps. -/
def scan (next : ν → Option ν) (test : ν → Bool) : ℕ → Option ν → Option (Option ν)
  | 0, _ => none
  | _ + 1, none => some none
  | fuel + 1, some n => if test n then some (some n) else scan next test fuel (next n)

/-- The `k`-th node of a bucket. -/
def Lists.nth (h : Lists β ν) (b : β) : ℕ → Option ν
  | 0 => h.first b
  | k + 1 => (h.nth b k).bind h.next

def Write.apply [DecidableEq β] [DecidableEq ν] : Write β ν → Lists β ν → Lists β ν
  | .slot (.first b) v, h => { h with first := Function.update h.first b v }
  | .slot (.next n) v, h => { h with next := Function.update h.next n v }
  | .slot .poison _, h => h
  | .pprev n s, h => { h with pprev := Function.update h.pprev n s }

/-! ## Walks -/

/-- From this pointer on, a walk gives this list. -/
def Chain (next : ν → Option ν) (p : Option ν) : List ν → Prop
  | [] => p = none
  | n :: l => p = some n ∧ Chain next (next n) l

/-- The lists that a reader sees. -/
def View (h : Lists β ν) (c : β → List ν) : Prop := ∀ b, Chain h.next (h.first b) (c b)

variable {h : Lists β ν} {b : β} {l : List ν}

theorem Chain.nth {k : ℕ} (hchain : Chain h.next (h.nth b k) l) (j : ℕ) :
    h.nth b (k + j) = l[j]? := by
  induction j generalizing k l with
  | zero =>
    cases l with
    | nil => exact hchain
    | cons n l => exact hchain.1
  | succ j ih =>
    cases l with
    | nil =>
      -- a walk that has ended stays so
      have hnil : Chain h.next (h.nth b (k + 1)) [] := by
        show (h.nth b k).bind h.next = none
        rw [show h.nth b k = none from hchain]
        rfl
      rw [← Nat.add_assoc, Nat.add_right_comm]
      exact ih hnil
    | cons n l =>
      have hcons : Chain h.next (h.nth b (k + 1)) l := by
        show Chain h.next ((h.nth b k).bind h.next) l
        rw [hchain.1]
        exact hchain.2
      rw [← Nat.add_assoc, Nat.add_right_comm]
      exact ih hcons

variable {c : β → List ν}

/-- A position in a bucket is a position in the list that a reader sees. -/
theorem View.nth (hview : View h c) (b : β) (k : ℕ) : h.nth b k = (c b)[k]? := by
  have hchain : Chain h.next (h.nth b 0) (c b) := hview b
  have hnth := hchain.nth k
  rwa [Nat.zero_add] at hnth

variable {next : ν → Option ν} {p : Option ν}

/-- A walk finds the first node with the property. -/
theorem scan_eq (h : Chain next p l) (test : ν → Bool) {fuel : ℕ} {r : Option ν}
    (hscan : scan next test fuel p = some r) : r = l.find? test := by
  induction l generalizing p fuel with
  | nil =>
    cases h
    cases fuel with
    | zero => cases hscan
    | succ fuel =>
      cases hscan
      rfl
  | cons n l ih =>
    rcases h with ⟨rfl, h⟩
    cases fuel with
    | zero => cases hscan
    | succ fuel =>
      rw [scan] at hscan
      by_cases htest : test n = true
      · rw [if_pos htest] at hscan
        cases hscan
        rw [List.find?_cons_of_pos htest]
      · rw [if_neg htest] at hscan
        rw [List.find?_cons_of_neg htest]
        exact ih h hscan

/-- And it ends. -/
theorem scan_of_lt (h : Chain next p l) (test : ν → Bool) {fuel : ℕ} (hfuel : l.length < fuel) :
    scan next test fuel p = some (l.find? test) := by
  induction l generalizing p fuel with
  | nil =>
    cases h
    cases fuel with
    | zero => exact absurd hfuel (Nat.not_lt_zero _)
    | succ fuel => rfl
  | cons n l ih =>
    rcases h with ⟨rfl, h⟩
    cases fuel with
    | zero => exact absurd hfuel (Nat.not_lt_zero _)
    | succ fuel =>
      rw [scan]
      by_cases htest : test n = true
      · rw [if_pos htest, List.find?_cons_of_pos htest]
      · rw [if_neg htest, List.find?_cons_of_neg htest]
        exact ih h (Nat.lt_of_succ_lt_succ hfuel)

/-! ## Well-formed lists -/

/-- The slot behind these nodes. -/
def slotAfter : Slot β ν → List ν → Slot β ν
  | s, [] => s
  | _, n :: l => slotAfter (.next n) l

/-- Every node of the list knows the slot that points to it. -/
def Back (pprev : ν → Option (Slot β ν)) (s : Slot β ν) : List ν → Prop
  | [] => True
  | n :: l => pprev n = some s ∧ Back pprev (.next n) l

/-- Every node is at one place only. -/
structure Apart (c : β → List ν) : Prop where
  nodup : ∀ b, (c b).Nodup
  disjoint : ∀ {b b' n}, n ∈ c b → n ∈ c b' → b = b'

/-- The lists between two sections. -/
structure WF (h : Lists β ν) (c : β → List ν) : Prop where
  view : View h c
  apart : Apart c
  back : ∀ b, Back h.pprev (.first b) (c b)
  unhashed : ∀ n, (∀ b, n ∉ c b) → h.pprev n = none

/-- The slot behind a non-empty list is in its last node. -/
theorem slotAfter_next (n : ν) (l : List ν) :
    ∃ m ∈ n :: l, (slotAfter (.next n) l : Slot β ν) = .next m := by
  induction l generalizing n with
  | nil => exact ⟨n, List.mem_singleton_self n, rfl⟩
  | cons n' l ih =>
    rcases ih n' with ⟨m, hm, heq⟩
    exact ⟨m, List.mem_cons_of_mem n hm, heq⟩

variable {pprev : ν → Option (Slot β ν)} {s : Slot β ν} {l₁ l₂ : List ν}

theorem back_append :
    Back pprev s (l₁ ++ l₂) ↔ Back pprev s l₁ ∧ Back pprev (slotAfter s l₁) l₂ := by
  induction l₁ generalizing s with
  | nil => exact (and_iff_right trivial).symm
  | cons n l ih =>
    show _ ∧ Back pprev (.next n) (l ++ l₂) ↔ (_ ∧ Back pprev (.next n) l) ∧ _
    rw [ih, and_assoc]
    rfl

variable {pprev' : ν → Option (Slot β ν)}

/-- The back pointers of other nodes do not matter. -/
theorem Back.congr (heq : ∀ n ∈ l, pprev' n = pprev n) (h : Back pprev s l) : Back pprev' s l := by
  induction l generalizing s with
  | nil => trivial
  | cons n l ih =>
    rcases List.forall_mem_cons.mp heq with ⟨hn, hl⟩
    exact ⟨hn.trans h.1, ih hl h.2⟩

variable {n : ν}

theorem Chain.drop (h : Chain next p (l₁ ++ n :: l₂)) : Chain next (next n) l₂ := by
  induction l₁ generalizing p with
  | nil => exact h.2
  | cons m l ih => exact ih h.2

/-- What a pointer leads to starts with it. -/
theorem Chain.head (h : Chain next p l) : p = l.head? := by
  cases l with
  | nil => exact h
  | cons n l => exact h.1

/-- What surrounds a linked node. -/
theorem WF.split (hwf : WF h c) (hn : n ∈ c b) :
    ∃ l₁ l₂, c b = l₁ ++ n :: l₂ ∧ h.pprev n = some (slotAfter (.first b) l₁) ∧
      Chain h.next (h.next n) l₂ ∧ Back h.pprev (.next n) l₂ := by
  rcases List.append_of_mem hn with ⟨l₁, l₂, hb⟩
  have hchain := hwf.view b
  have hback := hwf.back b
  rw [hb] at hchain
  rw [hb, back_append] at hback
  exact ⟨l₁, l₂, hb, hback.2.1, hchain.drop, hback.2.2⟩

/-- The writes of a section unhash no other nodes. -/
def Unhashes (own : List ν) (ws : List (Write β ν)) : Prop :=
  ∀ n, .pprev n none ∈ ws → n ∈ own

theorem unhashes_del (h : Lists β ν) (n : ν) : Unhashes [n] (delWrites h n) := by
  intro m hm
  unfold delWrites at hm
  split at hm
  · cases hm
  · simp at hm
    simp [hm]

theorem unhashes_addHead (h : Lists β ν) (b : β) (n : ν) : Unhashes [n] (addHeadWrites h b n) := by
  intro m hm
  simp [addHeadWrites] at hm

theorem unhashes_replace (h : Lists β ν) (old new : ν) :
    Unhashes [old, new] (replaceWrites h old new) := by
  intro m hm
  unfold replaceWrites at hm
  split at hm
  · cases hm
  · simp at hm
    simp [hm]

/-- A write that a reader of these lists does not see. -/
def Quiet (c : β → List ν) : Write β ν → Prop
  | .pprev _ _ => True
  | .slot (.next n) _ => ∀ b, n ∉ c b
  | .slot _ _ => False

theorem quiet_back (o : Option ν) (s : Option (Slot β ν)) (ws : List (Write β ν))
    (hws : ∀ w ∈ ws, Quiet c w) :
    ∀ w ∈ (o.toList.map fun m => Write.pprev m s) ++ ws, Quiet c w := by
  intro w hw
  rcases List.mem_append.mp hw with hw | hw
  · rcases List.mem_map.mp hw with ⟨m, -, rfl⟩
    trivial
  · exact hws w hw

/-- Back pointers of lists of which one changes behind some nodes. -/
theorem back_update [DecidableEq β] {rest : List ν} (hb : c b = l₁ ++ rest)
    (hback : ∀ b, Back pprev (.first b) (c b)) (hothers : ∀ b' ≠ b, ∀ n ∈ c b', pprev' n = pprev n)
    (hl₁ : ∀ n ∈ l₁, pprev' n = pprev n) (hl : Back pprev' (slotAfter (.first b) l₁) l) (b' : β) :
    Back pprev' (.first b') (Function.update c b (l₁ ++ l) b') := by
  by_cases hbb : b' = b
  · subst hbb
    rw [Function.update_self, back_append]
    have hold := hback b'
    rw [hb, back_append] at hold
    exact ⟨hold.1.congr hl₁, hl⟩
  · rw [Function.update_of_ne hbb]
    exact (hback b').congr (hothers b' hbb)

variable [DecidableEq ν]

/-- The back pointers after that of a node, if there is one, is set. -/
def setBack (o : Option ν) (s : Slot β ν) (pprev : ν → Option (Slot β ν)) : ν → Option (Slot β ν) :=
  match o with
  | none => pprev
  | some m => Function.update pprev m (some s)

theorem setBack_of_ne {o : Option ν} (hn : o ≠ some n) (s : Slot β ν)
    (pprev : ν → Option (Slot β ν)) : setBack o s pprev n = pprev n := by
  cases o with
  | none => rfl
  | some m =>
    refine Function.update_of_ne ?_ _ _
    rintro rfl
    exact hn rfl

theorem setBack_congr (h : pprev' n = pprev n) (o : Option ν) (s : Slot β ν) :
    setBack o s pprev' n = setBack o s pprev n := by
  cases o with
  | none => exact h
  | some m =>
    by_cases hn : n = m
    · subst hn
      show Function.update pprev' n _ n = Function.update pprev n _ n
      rw [Function.update_self, Function.update_self]
    · exact (Function.update_of_ne hn _ _).trans (h.trans (Function.update_of_ne hn _ _).symm)

/-- The node behind the changed slot is the only one that needs a new back pointer. -/
theorem Back.relink {s' : Slot β ν} (h : Back pprev s l) (hnodup : l.Nodup)
    (heq : ∀ n ∈ l, pprev' n = setBack l.head? s' pprev n) : Back pprev' s' l := by
  cases l with
  | nil => trivial
  | cons n l =>
    rcases List.forall_mem_cons.mp heq with ⟨hn, hl⟩
    refine ⟨hn.trans (Function.update_self ..), ?_⟩
    refine Back.congr ?_ h.2
    intro m hm
    rw [hl m hm]
    refine Function.update_of_ne ?_ _ _
    rintro rfl
    exact (List.nodup_cons.mp hnodup).1 hm

theorem Chain.update_outside {m : ν} (hm : m ∉ l) (v : Option ν) (h : Chain next p l) :
    Chain (Function.update next m v) p l := by
  induction l generalizing p with
  | nil => exact h
  | cons n l ih =>
    rw [List.mem_cons, not_or] at hm
    refine ⟨h.1, ?_⟩
    rw [Function.update_of_ne (Ne.symm hm.1)]
    exact ih hm.2 h.2

variable [DecidableEq β]

/-- A write to the slot behind some nodes changes what follows them. -/
theorem Chain.splice {rest : List ν} (hs : s ≠ .poison) (hslot : ∀ n ∈ l₁, s ≠ .next n)
    (hnodup : l₁.Nodup) (hold : Chain h.next (h.load s) (l₁ ++ rest))
    (hnew : Chain ((Write.slot (slotAfter s l₁) p).apply h).next p l) :
    Chain ((Write.slot (slotAfter s l₁) p).apply h).next
      (((Write.slot (slotAfter s l₁) p).apply h).load s) (l₁ ++ l) := by
  induction l₁ generalizing s with
  | nil =>
    have hload : ((Write.slot s p).apply h).load s = p := by
      cases s with
      | first b => exact Function.update_self ..
      | next n => exact Function.update_self ..
      | poison => exact absurd rfl hs
    show Chain _ (((Write.slot s p).apply h).load s) l
    rw [hload]
    exact hnew
  | cons n l₁ ih =>
    rcases hold with ⟨hload, hold⟩
    rw [List.nodup_cons] at hnodup
    have hslot' : s ≠ slotAfter (.next n) l₁ := by
      rcases slotAfter_next n l₁ with ⟨m, hm, heq⟩
      rw [heq]
      exact hslot m hm
    have hsame : ((Write.slot (slotAfter (.next n) l₁) p).apply h).load s = h.load s := by
      rcases slotAfter_next n l₁ with ⟨m, hm, heq⟩
      rw [heq] at hslot' ⊢
      cases s with
      | first b => rfl
      | next n' =>
        have hne : n' ≠ m := by
          rintro rfl
          exact hslot' rfl
        exact Function.update_of_ne hne _ _
      | poison => rfl
    refine ⟨hsame.trans hload, ?_⟩
    refine ih (fun heq => nomatch heq) ?_ hnodup.2 hold hnew
    intro m hm heq
    cases heq
    exact hnodup.1 hm

/-! ## Sections -/

/-- The writes to come: until one of them readers see the lists `c`, from then on `c'`, and
after the last one these are well formed. -/
inductive Settles (c' : β → List ν) : Lists β ν → List (Write β ν) → (β → List ν) → Prop
  | done {h : Lists β ν} : WF h c' → Settles c' h [] c'
  | keep {h : Lists β ν} {w : Write β ν} {ws : List (Write β ν)} {c : β → List ν} : View h c →
      Settles c' (w.apply h) ws c → Settles c' h (w :: ws) c
  | commit {h : Lists β ν} {w : Write β ν} {ws : List (Write β ν)} {c : β → List ν} : View h c →
      Settles c' (w.apply h) ws c' → Settles c' h (w :: ws) c

variable {c' : β → List ν} {ws : List (Write β ν)}

theorem Settles.view (hset : Settles c' h ws c) : View h c := by
  cases hset with
  | done hwf => exact hwf.view
  | keep hview _ => exact hview
  | commit hview _ => exact hview

theorem Settles.apart (hset : Settles c' h ws c) : Apart c' := by
  induction hset with
  | done hwf => exact hwf.apart
  | keep _ _ ih => exact ih
  | commit _ _ ih => exact ih

/-- A write to a slot of one bucket changes that bucket only. -/
theorem View.splice (hview : View h c) (hapart : Apart c) {rest : List ν} (hb : c b = l₁ ++ rest)
    (hnew : Chain ((Write.slot (slotAfter (.first b) l₁) p).apply h).next p l) :
    View ((Write.slot (slotAfter (.first b) l₁) p).apply h) (Function.update c b (l₁ ++ l)) := by
  intro b'
  by_cases hbb : b' = b
  · subst hbb
    rw [Function.update_self]
    have hnodup := hapart.nodup b'
    rw [hb] at hnodup
    have hold : Chain h.next (h.load (.first b')) (l₁ ++ rest) := by
      rw [← hb]
      exact hview b'
    exact Chain.splice (fun heq => nomatch heq) (fun _ _ heq => nomatch heq) hnodup.of_append_left
      hold hnew
  · rw [Function.update_of_ne hbb]
    cases l₁ with
    | nil =>
      show Chain h.next (Function.update h.first b p b') (c b')
      rw [Function.update_of_ne hbb]
      exact hview b'
    | cons n l₁ =>
      show Chain ((Write.slot (slotAfter (.next n) l₁) p).apply h).next
        (((Write.slot (slotAfter (.next n) l₁) p).apply h).first b') (c b')
      rcases slotAfter_next n l₁ with ⟨m, hm, heq⟩
      rw [heq]
      -- the slot is in a node of the other bucket
      refine (hview b').update_outside ?_ p
      intro hm'
      have hmb : m ∈ c b := by
        rw [hb]
        exact List.mem_append_left rest hm
      exact hbb (hapart.disjoint hm' hmb)

def applyAll (ws : List (Write β ν)) (h : Lists β ν) : Lists β ν :=
  ws.foldl (fun h w => w.apply h) h

theorem View.quiet (hview : View h c) {w : Write β ν} (hw : Quiet c w) : View (w.apply h) c := by
  cases w with
  | pprev n s => exact hview
  | slot s v =>
    cases s with
    | next n => exact fun b => (hview b).update_outside (hw b) v
    | first b => exact hw.elim
    | poison => exact hw.elim

theorem View.quiet_all (hview : View h c) (hws : ∀ w ∈ ws, Quiet c w) : View (applyAll ws h) c := by
  induction ws generalizing h with
  | nil => exact hview
  | cons w ws ih =>
    rcases List.forall_mem_cons.mp hws with ⟨hw, hrest⟩
    exact ih (hview.quiet hw) hrest

/-- A section: one write that readers see, between writes that they do not see. -/
theorem Settles.of_section (pre : List (Write β ν)) {post : List (Write β ν)} {w : Write β ν}
    (hview : View h c) (hpre : ∀ w ∈ pre, Quiet c w) (hcommit : View (w.apply (applyAll pre h)) c')
    (hpost : ∀ w ∈ post, Quiet c' w) (hwf : WF (applyAll (pre ++ w :: post) h) c') :
    Settles c' h (pre ++ w :: post) c := by
  induction pre generalizing h with
  | cons v pre ih =>
    rcases List.forall_mem_cons.mp hpre with ⟨hv, hrest⟩
    exact .keep hview (ih (hview.quiet hv) hrest hcommit hwf)
  | nil =>
    refine .commit hview ?_
    -- from here on readers see the new lists
    have hquiet : ∀ (ws : List (Write β ν)) (h : Lists β ν), View h c' → (∀ w ∈ ws, Quiet c' w) →
        WF (applyAll ws h) c' → Settles c' h ws c' := by
      intro ws
      induction ws with
      | nil =>
        intro h _ _ hwf
        exact .done hwf
      | cons v ws ih =>
        intro h hview hws hwf
        rcases List.forall_mem_cons.mp hws with ⟨hv, hrest⟩
        exact .keep hview (ih _ (hview.quiet hv) hrest hwf)
    exact hquiet post _ hcommit hpost hwf

theorem applyAll_setBack (o : Option ν) (s : Slot β ν) (h : Lists β ν) :
    applyAll (o.toList.map fun m => .pprev m (some s)) h =
      { h with pprev := setBack o s h.pprev } := by
  cases o <;> rfl

/-- After the last write the lists are well formed. -/
theorem Settles.wf_applyAll (hset : Settles c' h ws c) : WF (applyAll ws h) c' := by
  induction hset with
  | done hwf => exact hwf
  | keep _ _ ih => exact ih
  | commit _ _ ih => exact ih

/-! ## Deleting, adding, replacing -/

theorem applyAll_cons (w : Write β ν) (ws : List (Write β ν)) (h : Lists β ν) :
    applyAll (w :: ws) h = applyAll ws (w.apply h) := rfl

theorem applyAll_append (ws ws' : List (Write β ν)) (h : Lists β ν) :
    applyAll (ws ++ ws') h = applyAll ws' (applyAll ws h) := List.foldl_append ..

/-- The slot behind some nodes of a bucket is in none of the others. -/
theorem Chain.after_slot (hl : ∀ n ∈ l₁, n ∉ l) (v : Option ν) (hchain : Chain h.next p l) :
    Chain ((Write.slot (slotAfter (.first b) l₁) v).apply h).next p l := by
  cases l₁ with
  | nil => exact hchain
  | cons n l₁ =>
    rcases slotAfter_next n l₁ with ⟨m, hm, heq⟩
    show Chain ((Write.slot (slotAfter (.next n) l₁) v).apply h).next p l
    rw [heq]
    exact hchain.update_outside (hl m hm) v

/-- A linked node is hashed, until a section unhashes it. -/
theorem pprev_ne_none {own : List ν} {w : Write β ν} (hws : Unhashes own (w :: ws)) (hn : n ∉ own)
    (hpprev : h.pprev n ≠ none) : (w.apply h).pprev n ≠ none := by
  cases w with
  | slot s v =>
    cases s <;> exact hpprev
  | pprev m s =>
    show Function.update h.pprev m s n ≠ none
    by_cases hm : n = m
    · subst hm
      rw [Function.update_self]
      rintro rfl
      exact hn (hws n (List.mem_cons_self ..))
    · rw [Function.update_of_ne hm]
      exact hpprev

theorem pprev_slot (s : Slot β ν) (v : Option ν) (h : Lists β ν) :
    ((Write.slot s v).apply h).pprev = h.pprev := by
  cases s <;> rfl

section Relink

variable {c : β → List ν} {b : β} {l₁ rest l : List ν}

omit [DecidableEq ν] [DecidableEq β] in
/-- What is linked elsewhere is neither in the old part nor in the new one. -/
theorem Apart.not_elsewhere (hapart : Apart c) (hb : c b = l₁ ++ rest)
    (hl : ∀ m ∈ l, m ∈ rest ∨ ∀ b, m ∉ c b) {b' : β} (hbb : b' ≠ b) {m : ν} (hm : m ∈ c b') :
    m ∉ rest ∧ m ∉ l := by
  have hmrest : m ∉ rest := by
    intro h
    refine hbb (hapart.disjoint hm ?_)
    rw [hb]
    exact List.mem_append_right l₁ h
  refine ⟨hmrest, ?_⟩
  intro hml
  rcases hl m hml with h | h
  · exact hmrest h
  · exact h b' hm

omit [DecidableEq ν] [DecidableEq β] in
/-- Nor is what stands in front of them. -/
theorem Apart.not_in_front (hapart : Apart c) (hb : c b = l₁ ++ rest)
    (hl : ∀ m ∈ l, m ∈ rest ∨ ∀ b, m ∉ c b) {m : ν} (hm : m ∈ l₁) : m ∉ rest ∧ m ∉ l := by
  have hnodup := hapart.nodup b
  rw [hb, List.nodup_append] at hnodup
  have hmrest : m ∉ rest := fun h => hnodup.2.2 m hm m h rfl
  refine ⟨hmrest, ?_⟩
  intro hml
  rcases hl m hml with h | h
  · exact hmrest h
  · refine h b ?_
    rw [hb]
    exact List.mem_append_left rest hm

omit [DecidableEq ν] in
/-- The lists stay apart when `l` takes the place of `rest` and what is new in it was not
linked. -/
theorem Apart.relinked (hapart : Apart c) (hb : c b = l₁ ++ rest) (hnodup : l.Nodup)
    (hl : ∀ m ∈ l, m ∈ rest ∨ ∀ b, m ∉ c b) : Apart (Function.update c b (l₁ ++ l)) := by
  have hnodup' := hapart.nodup b
  rw [hb, List.nodup_append] at hnodup'
  -- a node of the changed bucket is in no other one
  have hinside : ∀ b' ≠ b, ∀ m ∈ l₁ ++ l, m ∉ c b' := by
    intro b' hbb m hm hm'
    rcases List.mem_append.mp hm with hm | hm
    · refine hbb (hapart.disjoint hm' ?_)
      rw [hb]
      exact List.mem_append_left rest hm
    · exact (hapart.not_elsewhere hb hl hbb hm').2 hm
  constructor
  · intro b'
    by_cases hbb : b' = b
    · subst hbb
      rw [Function.update_self, List.nodup_append]
      refine ⟨hnodup'.1, hnodup, ?_⟩
      rintro m hm m' hm' rfl
      exact (hapart.not_in_front hb hl hm).2 hm'
    · rw [Function.update_of_ne hbb]
      exact hapart.nodup b'
  · intro b₁ b₂ m hm₁ hm₂
    by_cases hb₁ : b₁ = b
    · by_cases hb₂ : b₂ = b
      · rw [hb₁, hb₂]
      · rw [hb₁, Function.update_self] at hm₁
        rw [Function.update_of_ne hb₂] at hm₂
        exact absurd hm₂ (hinside b₂ hb₂ m hm₁)
    · rw [Function.update_of_ne hb₁] at hm₁
      by_cases hb₂ : b₂ = b
      · rw [hb₂, Function.update_self] at hm₂
        exact absurd hm₁ (hinside b₁ hb₁ m hm₂)
      · rw [Function.update_of_ne hb₂] at hm₂
        exact hapart.disjoint hm₁ hm₂

/-- The lists after a section that puts `l` in the place of `rest`: what is new in them was
not linked, and the back pointers have been set to match. -/
theorem WF.relinked {h' : Lists β ν} (hwf : WF h c) (hb : c b = l₁ ++ rest) (hnodup : l.Nodup)
    (hl : ∀ m ∈ l, m ∈ rest ∨ ∀ b, m ∉ c b) (hview : View h' (Function.update c b (l₁ ++ l)))
    (hback : Back h'.pprev (slotAfter (.first b) l₁) l)
    (hsame : ∀ m, m ∉ rest → m ∉ l → h'.pprev m = h.pprev m)
    (hgone : ∀ m ∈ rest, m ∉ l → h'.pprev m = none) : WF h' (Function.update c b (l₁ ++ l)) := by
  refine ⟨hview, hwf.apart.relinked hb hnodup hl, ?_, ?_⟩
  · refine back_update hb hwf.back ?_ ?_ hback
    · intro b' hbb m hm
      rcases hwf.apart.not_elsewhere hb hl hbb hm with ⟨hrest, hml⟩
      exact hsame m hrest hml
    · intro m hm
      rcases hwf.apart.not_in_front hb hl hm with ⟨hrest, hml⟩
      exact hsame m hrest hml
  · intro m hm
    have hmb := hm b
    rw [Function.update_self, List.mem_append, not_or] at hmb
    by_cases hmrest : m ∈ rest
    · exact hgone m hmrest hmb.2
    · rw [hsame m hmrest hmb.2]
      refine hwf.unhashed m ?_
      intro b' hm'
      by_cases hbb : b' = b
      · rw [hbb, hb, List.mem_append] at hm'
        exact hm'.elim hmb.1 hmrest
      · have hmb' := hm b'
        rw [Function.update_of_ne hbb] at hmb'
        exact hmb' hm'

end Relink

theorem erase_eq_update (hapart : Apart c) (hb : c b = l₁ ++ n :: l₂) :
    (fun b => (c b).erase n) = Function.update c b (l₁ ++ l₂) := by
  funext b'
  by_cases hbb : b' = b
  · subst hbb
    have hnodup := hapart.nodup b'
    rw [hb, List.nodup_append] at hnodup
    have hn : n ∉ l₁ := fun hn => hnodup.2.2 n hn n (List.mem_cons_self ..) rfl
    rw [Function.update_self, hb, List.erase_append_right _ hn, List.erase_cons_head]
  · have hn : n ∉ c b' := by
      intro hn
      refine hbb (hapart.disjoint hn ?_)
      rw [hb]
      exact List.mem_append_right l₁ (List.mem_cons_self ..)
    rw [Function.update_of_ne hbb, List.erase_of_not_mem hn]

/-- `hlist_del_init_rcu` takes the node off its list. -/
theorem settles_del (hwf : WF h c) (n : ν) :
    Settles (fun b => (c b).erase n) h (delWrites h n) c := by
  by_cases hlinked : ∃ b, n ∈ c b
  case neg =>
    have hn : ∀ b, n ∉ c b := fun b hb => hlinked ⟨b, hb⟩
    have herase : (fun b => (c b).erase n) = c := funext fun b => List.erase_of_not_mem (hn b)
    rw [herase, delWrites, hwf.unhashed n hn]
    exact .done hwf
  rcases hlinked with ⟨b, hn⟩
  rcases hwf.split hn with ⟨l₁, l₂, hb, hpprev, hchain, hback⟩
  have hnodup := hwf.apart.nodup b
  rw [hb, List.nodup_append] at hnodup
  rcases hnodup with ⟨-, hnodup₂, hdisjoint⟩
  rw [List.nodup_cons] at hnodup₂
  have hview := hwf.view.splice hwf.apart hb
    (hchain.after_slot (fun m hm hm' => hdisjoint m hm m (List.mem_cons_of_mem n hm') rfl) _)
  rw [delWrites, hpprev]
  dsimp only
  rw [erase_eq_update hwf.apart hb]
  refine Settles.of_section [] hwf.view ?_ hview ?_ ?_
  · intro w hw
    cases hw
  · refine quiet_back _ _ _ ?_
    intro w hw
    rw [List.mem_singleton.mp hw]
    trivial
  · rw [List.nil_append, applyAll_cons, applyAll_append, applyAll_setBack, pprev_slot, hchain.head]
    refine hwf.relinked hb hnodup₂.2 ?_ ?_ ?_ ?_ ?_
    · intro m hm
      exact .inl (List.mem_cons_of_mem n hm)
    · rw [← hchain.head]
      exact hview
    · refine hback.relink hnodup₂.2 ?_
      intro m hm
      refine Function.update_of_ne ?_ _ _
      rintro rfl
      exact hnodup₂.1 hm
    · intro m hm hml
      rw [List.mem_cons, not_or] at hm
      refine (Function.update_of_ne hm.1 _ _).trans ?_
      exact setBack_of_ne (fun heq => hml (List.mem_of_head? heq)) _ _
    · intro m hm hml
      rcases List.mem_cons.mp hm with rfl | hm
      · exact Function.update_self ..
      · exact absurd hm hml

/-- `hlist_add_head_rcu` puts a node in front of a list. -/
theorem settles_addHead (hwf : WF h c) (b : β) (hn : ∀ b, n ∉ c b) :
    Settles (Function.update c b (n :: c b)) h (addHeadWrites h b n) c := by
  have hpre : ∀ w ∈ [Write.slot (.next n) (h.first b), .pprev n (some (.first b))], Quiet c w := by
    intro w hw
    rcases List.mem_cons.mp hw with rfl | hw
    · exact hn
    · rw [List.mem_singleton.mp hw]
      trivial
  have hview₁ := hwf.view.quiet_all hpre
  have hchain : Chain (Function.update h.next n (h.first b)) (some n) (n :: c b) := by
    refine ⟨rfl, ?_⟩
    rw [Function.update_self]
    exact (hwf.view b).update_outside (hn b) _
  have hb : c b = [] ++ c b := rfl
  have hview : View ((Write.slot (slotAfter (.first b) []) (some n)).apply
      (applyAll [.slot (.next n) (h.first b), .pprev n (some (.first b))] h))
      (Function.update c b ([] ++ n :: c b)) :=
    hview₁.splice hwf.apart hb hchain
  refine Settles.of_section _ hwf.view hpre hview ?_ ?_
  · have hquiet := quiet_back (c := Function.update c b (n :: c b)) (h.first b)
      (some (.next n)) [] fun w hw => nomatch hw
    rwa [List.append_nil] at hquiet
  have hhead : h.first b ≠ some n := by
    rw [(hwf.view b).head]
    exact fun heq => hn b (List.mem_of_head? heq)
  rw [applyAll_append, applyAll_cons, applyAll_setBack]
  refine hwf.relinked hb ?_ ?_ ?_ ?_ ?_ ?_
  · exact List.nodup_cons.mpr ⟨hn b, hwf.apart.nodup b⟩
  · intro m hm
    rcases List.mem_cons.mp hm with rfl | hm
    · exact .inr hn
    · exact .inl hm
  · exact hview
  · refine ⟨?_, ?_⟩
    · refine (setBack_of_ne hhead _ _).trans ?_
      exact Function.update_self ..
    · refine (hwf.back b).relink (hwf.apart.nodup b) ?_
      intro m hm
      rw [← (hwf.view b).head]
      refine setBack_congr (Function.update_of_ne ?_ _ _) _ _
      rintro rfl
      exact hn b hm
  · intro m hm hml
    rw [List.mem_cons, not_or] at hml
    refine (setBack_of_ne ?_ _ _).trans (Function.update_of_ne hml.1 _ _)
    rw [(hwf.view b).head]
    exact fun heq => hm (List.mem_of_head? heq)
  · intro m hm hml
    exact absurd (List.mem_cons_of_mem n hm) hml

theorem swap_eq_update (hapart : Apart c) {old : ν} (new : ν) (hb : c b = l₁ ++ old :: l₂) :
    (fun b => (c b).map fun m => if m = old then new else m) =
      Function.update c b (l₁ ++ new :: l₂) := by
  have hkeep : ∀ l : List ν, old ∉ l → (l.map fun m => if m = old then new else m) = l := by
    intro l hl
    conv_rhs => rw [← List.map_id l]
    refine List.map_congr_left ?_
    intro m hm
    refine if_neg ?_
    rintro rfl
    exact hl hm
  funext b'
  by_cases hbb : b' = b
  · subst hbb
    have hnodup := hapart.nodup b'
    rw [hb, List.nodup_append, List.nodup_cons] at hnodup
    have hold : old ∉ l₁ := fun h => hnodup.2.2 old h old (List.mem_cons_self ..) rfl
    rw [Function.update_self, hb, List.map_append, List.map_cons, hkeep l₁ hold,
      hkeep l₂ hnodup.2.1.1, if_pos rfl]
  · have hold : old ∉ c b' := by
      intro h
      refine hbb (hapart.disjoint h ?_)
      rw [hb]
      exact List.mem_append_right l₁ (List.mem_cons_self ..)
    rw [Function.update_of_ne hbb, hkeep _ hold]

/-- `hlist_replace_rcu` and `INIT_HLIST_NODE` put a node in the place of another one. -/
theorem settles_replace (hwf : WF h c) {old new : ν} (hold : old ∈ c b) (hnew : ∀ b, new ∉ c b) :
    Settles (fun b => (c b).map fun m => if m = old then new else m) h (replaceWrites h old new)
      c := by
  rcases hwf.split hold with ⟨l₁, l₂, hb, hpprev, hchain, hback⟩
  have hnodup := hwf.apart.nodup b
  rw [hb, List.nodup_append] at hnodup
  rcases hnodup with ⟨-, hnodup₂, hdisjoint⟩
  rw [List.nodup_cons] at hnodup₂
  have hnewb := hnew b
  rw [hb, List.mem_append, List.mem_cons, not_or, not_or] at hnewb
  have hpre : ∀ w ∈ [Write.slot (.next new) (h.next old),
      .pprev new (some (slotAfter (.first b) l₁))], Quiet c w := by
    intro w hw
    rcases List.mem_cons.mp hw with rfl | hw
    · exact hnew
    · rw [List.mem_singleton.mp hw]
      trivial
  have hview₁ := hwf.view.quiet_all hpre
  have hchain₁ : Chain (Function.update h.next new (h.next old)) (some new) (new :: l₂) := by
    refine ⟨rfl, ?_⟩
    rw [Function.update_self]
    exact hchain.update_outside hnewb.2.2 _
  have hl₁ : ∀ m ∈ l₁, m ∉ new :: l₂ := by
    intro m hm hm'
    rcases List.mem_cons.mp hm' with rfl | hm'
    · exact hnewb.1 hm
    · exact hdisjoint m hm m (List.mem_cons_of_mem old hm') rfl
  have hview := hview₁.splice hwf.apart hb (hchain₁.after_slot hl₁ (some new))
  have hgone : ∀ b', old ∉ Function.update c b (l₁ ++ new :: l₂) b' := by
    intro b' hmem
    by_cases hbb : b' = b
    · rw [hbb, Function.update_self, List.mem_append, List.mem_cons] at hmem
      rcases hmem with hmem | rfl | hmem
      · exact hdisjoint old hmem old (List.mem_cons_self ..) rfl
      · exact hnewb.2.1 rfl
      · exact hnodup₂.1 hmem
    · rw [Function.update_of_ne hbb] at hmem
      exact hbb (hwf.apart.disjoint hmem hold)
  have hpost := quiet_back (c := Function.update c b (l₁ ++ new :: l₂)) (h.next old)
    (some (.next new))
    [.pprev old (some .poison), .slot (.next old) none, .pprev old none] (by
      intro w hw
      simp only [List.mem_cons, List.not_mem_nil, or_false] at hw
      rcases hw with rfl | rfl | rfl
      · trivial
      · exact hgone
      · trivial)
  have hviewEnd := hview.quiet_all hpost
  rw [replaceWrites, hpprev]
  dsimp only
  rw [swap_eq_update hwf.apart new hb]
  refine Settles.of_section _ hwf.view hpre hview hpost ?_
  rw [applyAll_append, applyAll_setBack, hchain.head] at hviewEnd
  rw [applyAll_append, applyAll_cons, applyAll_append, applyAll_setBack, hchain.head]
  generalize hend : applyAll (β := β)
    [.pprev old (some .poison), .slot (.next old) none, .pprev old none] _ = h' at hviewEnd ⊢
  have hpprev_old : h'.pprev old = none := by
    rw [← hend]
    exact Function.update_self ..
  have hpprev_rest : ∀ m ≠ old, h'.pprev m = setBack l₂.head? (.next new)
      (Function.update h.pprev new (some (slotAfter (.first b) l₁))) m := by
    intro m hm
    rw [← hend]
    refine (Function.update_of_ne hm _ _).trans ((Function.update_of_ne hm _ _).trans ?_)
    rw [pprev_slot]
    rfl
  have hne : ∀ m ∈ l₂, m ≠ old := by
    rintro m hm rfl
    exact hnodup₂.1 hm
  refine hwf.relinked hb ?_ ?_ hviewEnd ⟨?_, ?_⟩ ?_ ?_
  · exact List.nodup_cons.mpr ⟨hnewb.2.2, hnodup₂.2⟩
  · intro m hm
    rcases List.mem_cons.mp hm with rfl | hm
    · exact .inr hnew
    · exact .inl (List.mem_cons_of_mem old hm)
  · rw [hpprev_rest new hnewb.2.1, setBack_of_ne fun heq => hnewb.2.2 (List.mem_of_head? heq)]
    exact Function.update_self ..
  · refine hback.relink hnodup₂.2 ?_
    intro m hm
    rw [hpprev_rest m (hne m hm)]
    refine setBack_congr (Function.update_of_ne ?_ _ _) _ _
    rintro rfl
    exact hnewb.2.2 hm
  · intro m hm hml
    rw [List.mem_cons, not_or] at hm hml
    rw [hpprev_rest m hm.1, setBack_of_ne fun heq => hm.2 (List.mem_of_head? heq)]
    exact Function.update_of_ne hml.1 _ _
  · intro m hm hml
    rcases List.mem_cons.mp hm with rfl | hm
    · exact hpprev_old
    · exact absurd (List.mem_cons_of_mem new hm) hml

end Hlist
