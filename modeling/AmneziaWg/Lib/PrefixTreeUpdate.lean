import AmneziaWg.Lib.PrefixTree
import Mathlib.Data.List.Perm.Subperm

/-!
# Updating path-compressed trees

An update changes a tree at one place. A context is the path to that place, innermost
frame first; `plug` puts a tree there.

* **Contexts**: `plug`, `nodes_plug`, `wf_plug`.
* **Insertion**: `locate` finds the place of a prefix, `insertAt` puts it there;
  `insert_wf`, `insert_represents`.
* **Removal**: `Removal`, what is left when a node is taken out, and its parent if that is
  left without a purpose; `Removal.wf`, `Removal.represents`.
-/

namespace PrefixTree

open PrefixTree.Tree
open scoped List

variable {T V : Type} {w : ℕ}

/-! ## Contexts -/

/-- One step of a path: the node, the side that the path takes, and the other child. -/
structure Frame (T V : Type) where
  e : Entry T V
  side : Bool
  sibling : Tree T V

abbrev Ctx (T V : Type) := List (Frame T V)

def Frame.fill (f : Frame T V) (t : Tree T V) : Tree T V :=
  .node f.e fun b => if b = f.side then t else f.sibling

def plug : Ctx T V → Tree T V → Tree T V
  | [], t => t
  | f :: c, t => plug c (f.fill t)

/-- The nodes of a context. -/
def ctxNodes : Ctx T V → List (Entry T V)
  | [] => []
  | f :: c => f.e :: (f.sibling.nodes ++ ctxNodes c)

theorem fill_child (e : Entry T V) (c : Bool → Tree T V) (b : Bool) :
    Frame.fill ⟨e, b, c (!b)⟩ (c b) = .node e c := by
  rw [Frame.fill]
  congr
  funext b'
  cases b <;> cases b' <;> rfl

theorem nodes_fill (f : Frame T V) (t : Tree T V) :
    (f.fill t).nodes ~ f.e :: (f.sibling.nodes ++ t.nodes) := by
  rcases f with ⟨e, side, sibling⟩
  cases side
  · exact List.perm_append_comm.cons e
  · exact List.Perm.refl _

theorem nodes_plug (c : Ctx T V) (t : Tree T V) : (plug c t).nodes ~ ctxNodes c ++ t.nodes := by
  induction c generalizing t with
  | nil => exact List.Perm.refl _
  | cons f c ih =>
    calc (plug c (f.fill t)).nodes
      _ ~ ctxNodes c ++ (f.fill t).nodes := ih _
      _ ~ ctxNodes c ++ f.e :: (f.sibling.nodes ++ t.nodes) := (nodes_fill f t).append_left _
      _ ~ f.e :: (ctxNodes c ++ (f.sibling.nodes ++ t.nodes)) := List.perm_middle
      _ ~ f.e :: ((f.sibling.nodes ++ ctxNodes c) ++ t.nodes) := by
          refine List.Perm.cons _ ?_
          rw [← List.append_assoc]
          exact List.perm_append_comm.append_right _

variable {c : Ctx T V} {t : Tree T V}

theorem mem_plug {x : Entry T V} : x ∈ (plug c t).nodes ↔ x ∈ ctxNodes c ∨ x ∈ t.nodes := by
  rw [(nodes_plug c t).mem_iff, List.mem_append]

/-- Every node has a place. -/
theorem exists_plug {x : Entry T V} (hx : x ∈ t.nodes) (c : Ctx T V) :
    ∃ c' ch, plug c' (.node x ch) = plug c t := by
  induction t generalizing c with
  | nil => cases hx
  | node e ch ih =>
    rcases mem_nodes_node.mp hx with rfl | ⟨b, hb⟩
    · exact ⟨c, ch, rfl⟩
    · obtain ⟨c', ch', hplug⟩ := ih b hb (⟨e, b, ch (!b)⟩ :: c)
      exact ⟨c', ch', by rw [hplug, plug, fill_child]⟩

/-- What all nodes at the place of the context start with. -/
def bound : Ctx T V → Bits
  | [] => []
  | f :: _ => f.e.pre ++ [f.side]

structure Frame.WF (w : ℕ) (f : Frame T V) : Prop where
  key : f.e.key.length = w
  len : f.e.len ≤ w
  sibling_extends : f.sibling.Extends (f.e.pre ++ [!f.side])
  sibling : f.sibling.WF w
  full : f.e.val = none → f.sibling.isNil = false

def CtxWF (w : ℕ) : Ctx T V → Prop
  | [] => True
  | f :: c => f.WF w ∧ bound c <+: f.e.pre ∧ CtxWF w c

/-- The tree may stand at the place: a node without value needs both children. -/
def Fits : Ctx T V → Tree T V → Prop
  | [], _ => True
  | f :: _, t => f.e.val = none → t.isNil = false

theorem wf_fill {f : Frame T V} :
    (f.fill t).WF w ↔ f.WF w ∧ t.WF w ∧ t.Extends (f.e.pre ++ [f.side]) ∧
      (f.e.val = none → t.isNil = false) := by
  have hside : (if f.side = f.side then t else f.sibling) = t := if_pos rfl
  have hother : (if (!f.side) = f.side then t else f.sibling) = f.sibling := by
    cases f.side <;> rfl
  constructor
  · intro h
    cases h with
    | node key len sides full children =>
      have h1 := sides f.side
      have h2 := sides (!f.side)
      have h3 := children f.side
      have h4 := children (!f.side)
      beta_reduce at h1 h2 h3 h4
      rw [hside] at h1 h3
      rw [hother] at h2 h4
      refine ⟨⟨key, len, h2, h4, ?_⟩, h3, h1, ?_⟩
      · intro hval
        have h := full hval (!f.side)
        beta_reduce at h
        rwa [hother] at h
      · intro hval
        have h := full hval f.side
        beta_reduce at h
        rwa [hside] at h
  · rintro ⟨hf, ht, hext, hfull⟩
    refine .node hf.key hf.len ?_ ?_ ?_
    · intro b
      by_cases hb : b = f.side
      · subst hb
        rw [if_pos rfl]
        exact hext
      · rw [if_neg hb, Bool.eq_not_of_ne hb]
        exact hf.sibling_extends
    · intro hval b
      by_cases hb : b = f.side
      · rw [if_pos hb]
        exact hfull hval
      · rw [if_neg hb]
        exact hf.full hval
    · intro b
      by_cases hb : b = f.side
      · rw [if_pos hb]
        exact ht
      · rw [if_neg hb]
        exact hf.sibling

/-- Everything below a frame starts with the prefix of its node. -/
theorem extends_fill {f : Frame T V} {p : Bits} (hf : f.WF w)
    (hext : t.Extends (f.e.pre ++ [f.side])) : (f.fill t).Extends p ↔ p <+: f.e.pre := by
  have hroot : f.e ∈ (f.fill t).nodes := (nodes_fill f t).mem_iff.mpr (List.mem_cons_self ..)
  constructor
  · intro h
    exact h f.e hroot
  · intro hp x hx
    rcases List.mem_cons.mp ((nodes_fill f t).mem_iff.mp hx) with rfl | hx
    · exact hp
    · rcases List.mem_append.mp hx with hx | hx
      · exact (hp.trans (List.prefix_append ..)).trans (hf.sibling_extends x hx)
      · exact (hp.trans (List.prefix_append ..)).trans (hext x hx)

/-- A plugged tree is well-formed if its parts are and fit together. -/
theorem wf_plug : (plug c t).WF w ↔ CtxWF w c ∧ t.WF w ∧ t.Extends (bound c) ∧ Fits c t := by
  induction c generalizing t with
  | nil =>
    refine ⟨fun h => ⟨trivial, h, fun x _ => List.nil_prefix, trivial⟩, fun h => h.2.1⟩
  | cons f c ih =>
    have hfits : Fits c (f.fill t) := by
      cases c with
      | nil => trivial
      | cons g c => exact fun _ => rfl
    rw [plug, ih, wf_fill, CtxWF]
    constructor
    · rintro ⟨hc, ⟨hf, ht, hext, hfull⟩, hbound, -⟩
      exact ⟨⟨hf, (extends_fill hf hext).mp hbound, hc⟩, ht, hext, hfull⟩
    · rintro ⟨⟨hf, hbound, hc⟩, ht, hext, hfull⟩
      exact ⟨hc, ⟨hf, ht, hext, hfull⟩, (extends_fill hf hext).mpr hbound, hfits⟩

/-! ## The place of a prefix -/

/-- Follow the key to the first node that is not a proper prefix of `k.take n`. -/
def locate (k : Bits) (n : ℕ) : Tree T V → Ctx T V → Ctx T V × Tree T V
  | .nil, c => (c, .nil)
  | .node e ch, c =>
    if e.len < n ∧ e.Matches k then
      locate k n (ch (bitAt k e.len)) (⟨e, bitAt k e.len, ch (!bitAt k e.len)⟩ :: c)
    else (c, .node e ch)

theorem plug_locate (k : Bits) (n : ℕ) (t : Tree T V) (c : Ctx T V) :
    plug (locate k n t c).1 (locate k n t c).2 = plug c t := by
  induction t generalizing c with
  | nil => rfl
  | node e ch ih =>
    rw [locate]
    split
    · rw [ih, plug, fill_child]
    · rfl

/-- What is known about the place of a prefix. -/
structure Located (k : Bits) (n : ℕ) (c : Ctx T V) (t : Tree T V) : Prop where
  bound : bound c <+: k.take n
  /-- No node on the way, or beside it, has the prefix itself. -/
  fresh : ∀ x ∈ ctxNodes c, x.pre ≠ k.take n
  stop : ∀ e ch, t = .node e ch → ¬ (e.len < n ∧ e.Matches k)

variable {k : Bits} {n : ℕ}

theorem locate_located (hk : k.length = w) (hn : n ≤ w) (hwf : (plug c t).WF w)
    (hbound : bound c <+: k.take n) (hfresh : ∀ x ∈ ctxNodes c, x.pre ≠ k.take n) :
    Located k n (locate k n t c).1 (locate k n t c).2 := by
  induction t generalizing c with
  | nil => exact ⟨hbound, hfresh, fun e ch h => nomatch h⟩
  | node e ch ih =>
    rw [locate]
    split
    swap
    · next hstop =>
      refine ⟨hbound, hfresh, ?_⟩
      intro e' ch' heq
      cases heq
      exact hstop
    next hgo =>
    rcases wf_plug.mp hwf with ⟨-, hnode, -, -⟩
    cases hnode with
    | node key len sides full children =>
      have hpre : e.pre <+: k := (matches_iff (by omega) k).mp hgo.2
      have hlen : e.pre.length = e.len := length_pre (by omega)
      have hsnoc : e.pre ++ [bitAt k e.len] <+: k := by
        rw [← hlen]
        exact snoc_bitAt hpre (by omega)
      refine ih _ (by rwa [plug, fill_child]) ?_ ?_
      · refine List.prefix_take_iff.mpr ⟨hsnoc, ?_⟩
        show (e.pre ++ [bitAt k e.len]).length ≤ n
        rw [List.length_append, hlen]
        exact hgo.1
      · intro x hx hxk
        rcases List.mem_cons.mp hx with rfl | hx
        · -- the node itself is shorter
          have h := congrArg List.length hxk
          rw [hlen, List.length_take] at h
          omega
        · rcases List.mem_append.mp hx with hx | hx
          · -- the other side goes on with another bit
            have hother : e.pre ++ [!bitAt k e.len] <+: k :=
              (hxk ▸ sides _ x hx).trans (List.take_prefix ..)
            have hbit := bitAt_of_snoc hother
            rw [hlen] at hbit
            exact absurd hbit (by cases bitAt k e.len <;> decide)
          · exact hfresh x hx hxk

/-! ## Insertion -/

def leaf (e : Entry T V) : Tree T V := .node e fun _ => .nil

/-- The node at the place is the one of the prefix. -/
def Exact (k : Bits) (n : ℕ) (e : Entry T V) : Prop := e.Matches k ∧ e.len = n

instance (k : Bits) (n : ℕ) (e : Entry T V) : Decidable (Exact k n e) :=
  inferInstanceAs (Decidable (_ ∧ _))

/-- Put a prefix at its place: there is nothing yet; it is there already; it goes above what
is there; or a new node without value joins the two. -/
def insertAt (k : Bits) (n : ℕ) (v : V) (new fork : T) : Tree T V → Tree T V
  | .nil => leaf ⟨new, k, n, some v⟩
  | .node e ch =>
    if Exact k n e then .node { e with val := some v } ch
    else
      let m := min n (common e.key k)
      if m = n then
        Frame.fill ⟨⟨new, k, n, some v⟩, bitAt e.key n, .nil⟩ (.node e ch)
      else
        Frame.fill ⟨⟨fork, k, m, none⟩, bitAt e.key m, leaf ⟨new, k, n, some v⟩⟩ (.node e ch)

variable {e : Entry T V}

theorem wf_leaf (key : e.key.length = w) (len : e.len ≤ w) (hval : e.val ≠ none) : (leaf e).WF w :=
  .node key len (fun _ _ hx => nomatch hx) (fun h => absurd h hval) fun _ => .nil

theorem nodes_leaf (e : Entry T V) : (leaf e).nodes = [e] := rfl

/-- A node that is not in the way of a prefix is longer than what they share. -/
theorem common_lt_len (hstop : ¬ (e.len < n ∧ e.Matches k)) (hexact : ¬ Exact k n e) :
    min n (common e.key k) < e.len := by
  by_contra hle
  have hmatch : e.Matches k := by
    show e.len ≤ common e.key k
    omega
  have hlen : e.len ≤ n := by omega
  rcases Nat.lt_or_eq_of_le hlen with hlt | heq
  · exact hstop ⟨hlt, hmatch⟩
  · exact hexact ⟨hmatch, heq⟩

/-- The tree at the place goes to the side of its next bit. -/
theorem extends_snoc_common {m : ℕ} {ch : Bool → Tree T V} (hwf : (Tree.node e ch).WF w)
    (hk : k.length = w) (hm : m ≤ common e.key k) (hlt : m < e.len) :
    (Tree.node e ch).Extends (k.take m ++ [bitAt e.key m]) := by
  rcases hwf.len_le e (mem_nodes_node.mpr (.inl rfl)) with ⟨hkey, hlen⟩
  have hshared : k.take m <+: e.key := by
    rw [common_comm] at hm
    exact (le_common_iff (by omega)).mp hm
  have hlength : (k.take m).length = m := by
    rw [List.length_take]
    omega
  have hsnoc : k.take m ++ [bitAt e.key m] <+: e.key := by
    have h := snoc_bitAt hshared (by omega)
    rwa [hlength] at h
  have hpre : k.take m ++ [bitAt e.key m] <+: e.pre := by
    refine List.prefix_take_iff.mpr ⟨hsnoc, ?_⟩
    rw [List.length_append, hlength]
    exact hlt
  intro x hx
  exact hpre.trans (hwf.extends_root x hx)

variable {v : V} {new fork : T}

theorem insertAt_wf (hk : k.length = w) (hn : n ≤ w) (hwf : t.WF w)
    (hstop : ∀ e ch, t = .node e ch → ¬ (e.len < n ∧ e.Matches k)) :
    (insertAt k n v new fork t).WF w := by
  cases t with
  | nil => exact wf_leaf hk hn nofun
  | node e ch =>
    rw [insertAt]
    split
    · cases hwf with
      | node key len sides full children => exact .node key len sides nofun children
    next hexact =>
    have hlt := common_lt_len (hstop e ch rfl) hexact
    rcases hwf.len_le e (mem_nodes_node.mpr (.inl rfl)) with ⟨hkey, hlen⟩
    dsimp only
    split
    · next hmin =>
      -- above
      have hle : n ≤ common e.key k := by omega
      rw [hmin] at hlt
      refine wf_fill.mpr ⟨⟨hk, hn, (fun x hx => nomatch hx), .nil, nofun⟩, hwf, ?_, nofun⟩
      exact extends_snoc_common hwf hk hle hlt
    · next hmin =>
      -- beside: the two keys differ behind what they share
      have hm : min n (common e.key k) = common e.key k := by omega
      rw [hm] at hlt ⊢
      have hne : bitAt e.key (common e.key k) ≠ bitAt k (common e.key k) :=
        bitAt_common_ne (by omega) (by omega)
      refine wf_fill.mpr ⟨⟨hk, by dsimp only; omega, ?_, wf_leaf hk hn nofun, fun _ => rfl⟩, hwf, ?_,
        fun _ => rfl⟩
      · intro x hx
        rw [nodes_leaf, List.mem_singleton] at hx
        subst hx
        show k.take (common e.key k) ++ [!bitAt e.key (common e.key k)] <+: k.take n
        rw [← Bool.eq_not_of_ne hne.symm]
        have hlength : (k.take (common e.key k)).length = common e.key k := by
          rw [List.length_take]
          omega
        have hsnoc := snoc_bitAt (List.take_prefix (common e.key k) k) (by omega)
        rw [hlength] at hsnoc
        refine List.prefix_take_iff.mpr ⟨hsnoc, ?_⟩
        rw [List.length_append, hlength]
        show common e.key k + 1 ≤ n
        omega
      · exact extends_snoc_common hwf hk (Nat.le_refl _) hlt

/-- The node with a tag has the prefix `p` and the value `v`. -/
def Valued (l : List (Entry T V)) (tag : T) (p : Bits) (v : V) : Prop :=
  ∃ e ∈ l, e.tag = tag ∧ e.pre = p ∧ e.val = some v

section Valued

variable {tag : T} {p : Bits} {u : V} {l l' : List (Entry T V)}

theorem valued_cons : Valued (e :: l) tag p u ↔
    (e.tag = tag ∧ e.pre = p ∧ e.val = some u) ∨ Valued l tag p u := by
  unfold Valued
  simp

theorem valued_append : Valued (l ++ l') tag p u ↔ Valued l tag p u ∨ Valued l' tag p u := by
  unfold Valued
  simp [or_and_right, exists_or]

theorem valued_perm (h : l ~ l') : Valued l tag p u ↔ Valued l' tag p u := by
  unfold Valued
  simp only [h.mem_iff]

theorem holds_iff : t.Holds p u ↔ ∃ tag, Valued t.nodes tag p u := by
  constructor
  · rintro ⟨e, he, hpre, hval⟩
    exact ⟨e.tag, e, he, rfl, hpre, hval⟩
  · rintro ⟨tag, e, he, -, hpre, hval⟩
    exact ⟨e, he, hpre, hval⟩

theorem Valued.ne {q : Bits} (h : Valued l tag p u) (hne : ∀ x ∈ l, x.pre ≠ q) : p ≠ q := by
  rcases h with ⟨e, he, -, rfl, -⟩
  exact hne e he

/-- The tag of the node that gets the value. -/
def placeTag (k : Bits) (n : ℕ) (new : T) : Tree T V → T
  | .nil => new
  | .node e _ => if Exact k n e then e.tag else new

theorem pre_of_exact (hn : n ≤ e.key.length) (h : Exact k n e) : e.pre = k.take n := by
  rcases h with ⟨hmatch, rfl⟩
  rw [List.prefix_iff_eq_take.mp ((matches_iff hn k).mp hmatch), length_pre hn]

/-- Without an exact node, nothing at the place has the prefix. -/
theorem fresh_of_not_exact {ch : Bool → Tree T V} (hwf : (Tree.node e ch).WF w) (hk : k.length = w)
    (hn : n ≤ w) (hstop : ¬ (e.len < n ∧ e.Matches k)) (hexact : ¬ Exact k n e) :
    ∀ x ∈ (Tree.node e ch).nodes, x.pre ≠ k.take n := by
  intro x hx hxk
  rcases hwf.len_le e (mem_nodes_node.mpr (.inl rfl)) with ⟨hkey, hlen⟩
  have hpre : e.pre <+: k.take n := hxk ▸ hwf.extends_root x hx
  have hmatch : e.Matches k := (matches_iff (by omega) k).mpr (hpre.trans (List.take_prefix ..))
  have hle := hpre.length_le
  rw [length_pre (by omega), List.length_take] at hle
  rcases Nat.lt_or_eq_of_le (show e.len ≤ n by omega) with hlt | heq
  · exact hstop ⟨hlt, hmatch⟩
  · exact hexact ⟨hmatch, heq⟩

/-- At the place, an insertion sets the entry of the prefix. -/
theorem valued_insertAt (new fork : T) (hwf : t.WF w) (hk : k.length = w) (hn : n ≤ w)
    (hstop : ∀ e ch, t = .node e ch → ¬ (e.len < n ∧ e.Matches k)) :
    Valued (insertAt k n v new fork t).nodes tag p u ↔
      (tag = placeTag k n new t ∧ p = k.take n ∧ u = v) ∨
        (Valued t.nodes tag p u ∧ p ≠ k.take n) := by
  have hnew : ∀ x : T, (x = tag ∧ k.take n = p ∧ some v = some u) ↔
      (tag = x ∧ p = k.take n ∧ u = v) := by
    intro x
    rw [Option.some.injEq]
    constructor <;> rintro ⟨rfl, rfl, rfl⟩ <;> exact ⟨rfl, rfl, rfl⟩
  have hnone : ¬ Valued ([] : List (Entry T V)) tag p u := by
    rintro ⟨e, he, -⟩
    cases he
  cases t with
  | nil =>
    rw [insertAt, nodes_leaf, valued_cons, placeTag]
    refine or_congr (hnew new) ?_
    exact ⟨fun h => absurd h hnone, fun h => absurd h.1 hnone⟩
  | node e ch =>
    rw [insertAt, placeTag]
    by_cases hexact : Exact k n e
    · -- the node is there: its children have longer prefixes
      rw [if_pos hexact, if_pos hexact]
      cases hwf with
      | node key len sides full children =>
        have hpre : e.pre = k.take n := pre_of_exact (by omega) hexact
        have hbelow : ∀ x ∈ (ch false).nodes ++ (ch true).nodes, x.pre ≠ k.take n := by
          intro x hx hxk
          have hx' : ∃ b, x ∈ (ch b).nodes := by
            rcases List.mem_append.mp hx with hx | hx
            · exact ⟨_, hx⟩
            · exact ⟨_, hx⟩
          rcases hx' with ⟨b, hb⟩
          have hlt := (pre_lt_of_child sides hb).2
          rw [hpre, hxk] at hlt
          exact absurd hlt (Nat.lt_irrefl _)
        rw [Tree.nodes, Tree.nodes, valued_cons, valued_cons, ← hnew]
        constructor
        · rintro (h | h)
          · exact .inl (hpre ▸ h)
          · exact .inr ⟨.inr h, h.ne hbelow⟩
        · rintro (h | ⟨h | h, hne⟩)
          · exact .inl (hpre ▸ h)
          · exact absurd (h.2.1.symm.trans hpre) hne
          · exact .inr h
    · rw [if_neg hexact, if_neg hexact]
      have hfresh := fresh_of_not_exact hwf hk hn (hstop e ch rfl) hexact
      have hold : Valued (Tree.node e ch).nodes tag p u ↔
          Valued (Tree.node e ch).nodes tag p u ∧ p ≠ k.take n :=
        ⟨fun h => ⟨h, h.ne hfresh⟩, And.left⟩
      dsimp only
      split
      · rw [valued_perm (nodes_fill _ _), valued_cons, valued_append]
        refine or_congr (hnew new) ?_
        rw [← hold]
        exact or_iff_right hnone
      · rw [valued_perm (nodes_fill _ _), valued_cons, valued_append, nodes_leaf, valued_cons]
        rw [or_iff_right (by rintro ⟨-, -, h⟩; cases h), or_iff_left hnone]
        exact or_congr (hnew new) hold

/-- After an insertion the tree holds the new entry and the old ones of other prefixes. -/
theorem valued_insert (new fork : T) (hwf : (plug c t).WF w) (hk : k.length = w) (hn : n ≤ w)
    (hloc : Located k n c t) :
    Valued (plug c (insertAt k n v new fork t)).nodes tag p u ↔
      (tag = placeTag k n new t ∧ p = k.take n ∧ u = v) ∨
        (Valued (plug c t).nodes tag p u ∧ p ≠ k.take n) := by
  have hctx : Valued (ctxNodes c) tag p u ↔ Valued (ctxNodes c) tag p u ∧ p ≠ k.take n :=
    ⟨fun h => ⟨h, h.ne hloc.fresh⟩, And.left⟩
  rw [valued_perm (nodes_plug ..), valued_perm (nodes_plug ..), valued_append, valued_append,
    valued_insertAt new fork (wf_plug.mp hwf).2.1 hk hn hloc.stop, or_and_right, ← hctx,
    or_left_comm]

end Valued

/-- The root of what an insertion leaves keeps to the bound of the place. -/
theorem insertAt_extends {p : Bits} (hk : k.length = w) (hn : n ≤ w) (hwf : t.WF w)
    (hext : t.Extends p) (hp : p <+: k.take n)
    (hstop : ∀ e ch, t = .node e ch → ¬ (e.len < n ∧ e.Matches k)) :
    (insertAt k n v new fork t).Extends p := by
  have hinsert : (insertAt k n v new fork t).WF w := insertAt_wf hk hn hwf hstop
  cases t with
  | nil => exact hinsert.extends_iff.mpr hp
  | node e ch =>
    have hroot : p <+: e.pre := hwf.extends_iff.mp hext
    revert hinsert
    rw [insertAt]
    split
    · intro hinsert
      exact hinsert.extends_iff.mpr hroot
    dsimp only
    split
    · intro hinsert
      exact hinsert.extends_iff.mpr hp
    · intro hinsert
      -- the bound is shared by the two keys
      refine hinsert.extends_iff.mpr ?_
      have hpk : p <+: k := hp.trans (List.take_prefix ..)
      have hpe : p <+: e.key := hroot.trans (List.take_prefix ..)
      have hcommon : p.length ≤ common e.key k := by
        refine (le_common_iff hpe.length_le).mpr ?_
        rw [← List.prefix_iff_eq_take.mp hpe]
        exact hpk
      have hlength := hp.length_le
      rw [List.length_take] at hlength
      refine List.prefix_take_iff.mpr ⟨hpk, ?_⟩
      show p.length ≤ min n (common e.key k)
      omega

theorem insert_wf (hwf : (plug c t).WF w) (hk : k.length = w) (hn : n ≤ w)
    (hloc : Located k n c t) : (plug c (insertAt k n v new fork t)).WF w := by
  rcases wf_plug.mp hwf with ⟨hc, ht, hext, -⟩
  refine wf_plug.mpr ⟨hc, insertAt_wf hk hn ht hloc.stop,
    insertAt_extends hk hn ht hext hloc.bound hloc.stop, ?_⟩
  have hnil : (insertAt k n v new fork t).isNil = false := by
    cases t with
    | nil => rfl
    | node e ch =>
      rw [insertAt]
      split
      · rfl
      · dsimp only
        split <;> rfl
  cases c with
  | nil => trivial
  | cons f c => exact fun _ => hnil

theorem insert_represents {m : Bits → Option V} (hwf : (plug c t).WF w) (hk : k.length = w)
    (hn : n ≤ w) (hloc : Located k n c t) (hm : (plug c t).Represents m) :
    (plug c (insertAt k n v new fork t)).Represents (Function.update m (k.take n) (some v)) := by
  intro p u
  rw [holds_iff]
  simp only [valued_insert new fork hwf hk hn hloc]
  by_cases hp : p = k.take n
  · subst hp
    rw [Function.update_self, Option.some.injEq]
    constructor
    · rintro rfl
      exact ⟨_, .inl ⟨rfl, rfl, rfl⟩⟩
    · rintro ⟨tag, ⟨-, -, rfl⟩ | ⟨-, hne⟩⟩
      · rfl
      · exact absurd rfl hne
  · rw [Function.update_of_ne hp, hm, holds_iff]
    constructor
    · rintro ⟨tag, h⟩
      exact ⟨tag, .inr ⟨h, hp⟩⟩
    · rintro ⟨tag, ⟨-, heq, -⟩ | ⟨h, -⟩⟩
      · exact absurd heq hp
      · exact ⟨tag, h⟩

theorem insertAt_tags (k : Bits) (n : ℕ) (v : V) (new fork : T) (t : Tree T V) :
    ((insertAt k n v new fork t).nodes.map Entry.tag).Subperm
      (new :: fork :: t.nodes.map Entry.tag) := by
  cases t with
  | nil => exact (List.Sublist.cons_cons new (List.nil_sublist _)).subperm
  | node e ch =>
    rw [insertAt]
    split
    · exact ((List.sublist_cons_self ..).trans (List.sublist_cons_self ..)).subperm
    dsimp only
    split
    · refine ((nodes_fill _ _).map Entry.tag).subperm.trans ?_
      exact (List.Sublist.cons_cons new (List.sublist_cons_self ..)).subperm
    · refine ((nodes_fill _ _).map Entry.tag).subperm.trans ?_
      exact (List.Perm.swap ..).subperm

/-- An insertion adds at most the two new tags. -/
theorem insert_tags (k : Bits) (n : ℕ) (v : V) (new fork : T) (c : Ctx T V) (t : Tree T V) :
    ((plug c (insertAt k n v new fork t)).nodes.map Entry.tag).Subperm
      (new :: fork :: (plug c t).nodes.map Entry.tag) := by
  have hplug : ∀ s : Tree T V, (plug c s).nodes.map Entry.tag ~
      (ctxNodes c).map Entry.tag ++ s.nodes.map Entry.tag := by
    intro s
    rw [← List.map_append]
    exact (nodes_plug c s).map _
  have hplace : ((ctxNodes c).map Entry.tag ++ (insertAt k n v new fork t).nodes.map Entry.tag).Subperm
      ((ctxNodes c).map Entry.tag ++ new :: fork :: t.nodes.map Entry.tag) :=
    (List.subperm_append_left _).mpr (insertAt_tags k n v new fork t)
  have hnew : (ctxNodes c).map Entry.tag ++ new :: fork :: t.nodes.map Entry.tag ~
      new :: fork :: (plug c t).nodes.map Entry.tag := by
    refine List.perm_middle.trans (List.Perm.cons new ?_)
    exact List.perm_middle.trans ((hplug t).symm.cons fork)
  exact (hplug _).subperm.trans (hplace.trans hnew.subperm)

/-! ## Removal -/

/-- What a removal leaves. -/
inductive Removal (c : Ctx T V) (e : Entry T V) (ch : Bool → Tree T V) : Tree T V → Prop
  /-- Both children stay below the node. -/
  | kept (h : ∀ b, (ch b).isNil = false) : Removal c e ch (plug c (.node { e with val := none } ch))
  /-- The only child, if any, moves up. -/
  | spliced (b : Bool) (hnil : (ch b).isNil = true) (hfits : Fits c (ch (!b))) :
      Removal c e ch (plug c (ch (!b)))
  /-- The parent goes too. -/
  | joined (f : Frame T V) (c' : Ctx T V) (hc : c = f :: c') (hnil : ∀ b, (ch b).isNil = true)
      (hval : f.e.val = none) : Removal c e ch (plug c' f.sibling)

section Removal

variable {c : Ctx T V} {e : Entry T V} {ch : Bool → Tree T V} {t : Tree T V}

theorem nodes_of_isNil (h : t.isNil = true) : t.nodes = [] := by
  cases t with
  | nil => rfl
  | node e ch => cases h

/-- The nodes below a node with a missing child. -/
theorem nodes_spliced {b : Bool} (h : (ch b).isNil = true) :
    (ch false).nodes ++ (ch true).nodes = (ch (!b)).nodes := by
  cases b
  · rw [nodes_of_isNil h]
    rfl
  · rw [nodes_of_isNil h, List.append_nil]
    rfl

theorem Removal.wf (h : Removal c e ch t) (hwf : (plug c (.node e ch)).WF w) : t.WF w := by
  rcases wf_plug.mp hwf with ⟨hc, hnode, hext, -⟩
  have hnode' := hnode
  cases hnode with
  | node key len sides full children =>
    cases h with
    | kept hboth =>
      refine wf_plug.mpr ⟨hc, .node key len sides (fun _ => hboth) children, ?_, ?_⟩
      · have hkept : (Tree.node { e with val := none } ch).WF w :=
          .node key len sides (fun _ => hboth) children
        exact hkept.extends_iff.mpr (hnode'.extends_iff.mp hext)
      · cases c with
        | nil => trivial
        | cons f c => exact fun _ => rfl
    | spliced b hnil hfits =>
      refine wf_plug.mpr ⟨hc, children _, ?_, hfits⟩
      intro x hx
      exact hext x (mem_nodes_node.mpr (.inr ⟨_, hx⟩))
    | joined f c' hctx hnil hval =>
      subst hctx
      rcases hc with ⟨hf, hbound, hc'⟩
      refine wf_plug.mpr ⟨hc', hf.sibling, ?_, ?_⟩
      · intro x hx
        exact (hbound.trans (List.prefix_append ..)).trans (hf.sibling_extends x hx)
      · cases c' with
        | nil => trivial
        | cons g c' => exact fun _ => hf.full hval

/-- A removal takes out the entry of the node, and no other. -/
theorem Removal.valued {tag : T} {p : Bits} {u : V} (h : Removal c e ch t)
    (hwf : (plug c (.node e ch)).WF w) :
    Valued t.nodes tag p u ↔ Valued (plug c (.node e ch)).nodes tag p u ∧ p ≠ e.pre := by
  -- the node's prefix occurs nowhere else
  have hnodup : ((ctxNodes c ++ (Tree.node e ch).nodes).map Entry.pre).Nodup :=
    ((nodes_plug c _).map _).nodup_iff.mp hwf.nodup_pre
  rw [Tree.nodes, (List.perm_middle.map Entry.pre).nodup_iff, List.map_cons,
    List.nodup_cons] at hnodup
  have hother : ∀ x ∈ ctxNodes c ++ ((ch false).nodes ++ (ch true).nodes), x.pre ≠ e.pre := by
    intro x hx heq
    exact hnodup.1 (heq ▸ List.mem_map_of_mem hx)
  have hrest : (Valued (plug c (.node e ch)).nodes tag p u ∧ p ≠ e.pre) ↔
      Valued (ctxNodes c ++ ((ch false).nodes ++ (ch true).nodes)) tag p u := by
    rw [valued_perm ((nodes_plug c _).trans List.perm_middle), valued_cons]
    constructor
    · rintro ⟨h | h, hne⟩
      · exact absurd h.2.1.symm hne
      · exact h
    · intro h
      exact ⟨.inr h, h.ne hother⟩
  rw [hrest]
  cases h with
  | kept hboth =>
    rw [valued_perm ((nodes_plug c _).trans List.perm_middle), valued_cons]
    exact or_iff_right (by rintro ⟨-, -, h⟩; cases h)
  | spliced b hnil hfits =>
    rw [valued_perm (nodes_plug c _), nodes_spliced hnil]
  | joined f c' hctx hnil hval =>
    subst hctx
    rw [valued_perm (nodes_plug c' _), nodes_spliced (hnil true), nodes_of_isNil (hnil _),
      List.append_nil, ctxNodes, valued_cons, valued_append, valued_append, or_comm]
    exact (or_iff_right (by rintro ⟨-, -, h⟩; rw [hval] at h; cases h)).symm

theorem Removal.represents {m : Bits → Option V} (h : Removal c e ch t)
    (hwf : (plug c (.node e ch)).WF w) (hm : (plug c (.node e ch)).Represents m) :
    t.Represents (Function.update m e.pre none) := by
  intro p u
  rw [holds_iff]
  simp only [h.valued hwf]
  by_cases hp : p = e.pre
  · subst hp
    rw [Function.update_self]
    constructor
    · intro h
      cases h
    · rintro ⟨tag, -, hne⟩
      exact absurd rfl hne
  · rw [Function.update_of_ne hp, hm, holds_iff]
    constructor
    · rintro ⟨tag, h⟩
      exact ⟨tag, h, hp⟩
    · rintro ⟨tag, h, -⟩
      exact ⟨tag, h⟩

/-- A removal brings in no tags. -/
theorem Removal.tags (h : Removal c e ch t) :
    (t.nodes.map Entry.tag).Subperm ((plug c (.node e ch)).nodes.map Entry.tag) := by
  have hplug : ∀ (c : Ctx T V) (s : Tree T V), (plug c s).nodes.map Entry.tag ~
      (ctxNodes c).map Entry.tag ++ s.nodes.map Entry.tag := by
    intro c s
    rw [← List.map_append]
    exact (nodes_plug c s).map _
  refine List.Subperm.trans ?_ (hplug c _).symm.subperm
  cases h with
  | kept hboth => exact (hplug c _).subperm
  | spliced b hnil hfits =>
    refine (hplug c _).subperm.trans ((List.subperm_append_left _).mpr ?_)
    rw [Tree.nodes, nodes_spliced hnil]
    exact (List.sublist_cons_self ..).subperm
  | joined f c' hctx hnil hval =>
    subst hctx
    refine (hplug c' _).subperm.trans (List.perm_append_comm.subperm.trans ?_)
    rw [ctxNodes, List.map_cons, List.map_append]
    exact ((List.sublist_cons_self ..).trans (List.sublist_append_left ..)).subperm

end Removal

end PrefixTree
