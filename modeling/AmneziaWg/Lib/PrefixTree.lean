import Mathlib.Data.List.Infix
import Mathlib.Data.List.TakeDrop
import Mathlib.Logic.Function.Basic
import Mathlib.Order.Basic
import Mathlib.Order.Bounds.Defs

/-!
# Path-compressed trees of bit strings

Trees whose nodes stand for prefixes of fixed-width keys, as routing tables use them. A
node stores an unmasked key and the length of its prefix; it may have no value, and then
has two children.

* **Bits**: `common`, the length of the longest common prefix.
* **Specification**: `lpm`, the value of the longest prefix of a key in a map.
* **Model**: `Tree`, `find`, `WF`.
* **Lookup**: `find_eq_lpm`.
-/

namespace PrefixTree

/-! ## Bit strings -/

abbrev Bits := List Bool

/-- The length of the longest common prefix. -/
def common : Bits → Bits → ℕ
  | a :: as, b :: bs => if a = b then common as bs + 1 else 0
  | _, _ => 0

/-- The bit of a key at a position. -/
def bitAt (k : Bits) (n : ℕ) : Bool := k.getD n false

theorem common_comm (a b : Bits) : common a b = common b a := by
  induction a generalizing b with
  | nil => cases b <;> rfl
  | cons x a ih =>
    cases b with
    | nil => rfl
    | cons y b =>
      rw [common, common, ih b]
      simp only [eq_comm]

variable {a b : Bits}

variable {n : ℕ}

/-- Two keys share a prefix exactly up to their common length. -/
theorem le_common_iff (hn : n ≤ a.length) : n ≤ common a b ↔ a.take n <+: b := by
  induction n generalizing a b with
  | zero => simp
  | succ n ih =>
    cases a with
    | nil => cases hn
    | cons x a =>
      cases b with
      | nil => simp [common]
      | cons y b =>
        rw [common, List.take_succ_cons, List.cons_prefix_cons]
        split
        · next hxy => rw [Nat.add_le_add_iff_right, ih (Nat.le_of_succ_le_succ hn)]; simp [hxy]
        · next hxy => simp [hxy]

theorem common_le_length (a b : Bits) : common a b ≤ a.length := by
  induction a generalizing b with
  | nil => exact Nat.zero_le _
  | cons x a ih =>
    cases b with
    | nil => exact Nat.zero_le _
    | cons y b =>
      rw [common, List.length_cons]
      split
      · exact Nat.succ_le_succ (ih b)
      · exact Nat.zero_le _

/-- The same bit by bit. -/
theorem le_common_iff_bitAt (ha : n ≤ a.length) (hb : n ≤ b.length) :
    n ≤ common a b ↔ ∀ i < n, bitAt a i = bitAt b i := by
  induction n generalizing a b with
  | zero => simp
  | succ n ih =>
    cases a with
    | nil => cases ha
    | cons x a =>
      cases b with
      | nil => cases hb
      | cons y b =>
        have hrest := ih (Nat.le_of_succ_le_succ ha) (Nat.le_of_succ_le_succ hb)
        rw [common, Nat.forall_lt_succ_left]
        split
        · next hxy =>
          rw [Nat.add_le_add_iff_right, hrest]
          exact (and_iff_right hxy).symm
        · next hxy => exact iff_of_false (by omega) fun h => hxy h.1

/-- Of the lengths up to which two keys agree, `common` is the greatest. -/
theorem common_isGreatest (hlen : a.length = b.length) :
    IsGreatest {n | n ≤ a.length ∧ ∀ i < n, bitAt a i = bitAt b i} (common a b) := by
  constructor
  · have hle := common_le_length a b
    exact ⟨hle, (le_common_iff_bitAt hle (hlen ▸ hle)).mp le_rfl⟩
  · rintro n ⟨hle, hagree⟩
    exact (le_common_iff_bitAt hle (hlen ▸ hle)).mpr hagree

variable {p k : Bits}

/-- A key goes on with its bit at the length of a prefix. -/
theorem snoc_bitAt (h : p <+: k) (hlt : p.length < k.length) : p ++ [bitAt k p.length] <+: k := by
  rcases h with ⟨rest, rfl⟩
  cases rest with
  | nil => simp at hlt
  | cons b rest => exact ⟨rest, by simp [bitAt]⟩

theorem bitAt_of_snoc {b : Bool} (h : p ++ [b] <+: k) : bitAt k p.length = b := by
  rcases h with ⟨rest, rfl⟩
  simp [bitAt]

/-- Behind their common prefix two keys differ. -/
theorem bitAt_common_ne (ha : common a b < a.length) (hb : common a b < b.length) :
    bitAt a (common a b) ≠ bitAt b (common a b) := by
  induction a generalizing b with
  | nil => cases ha
  | cons x a ih =>
    cases b with
    | nil => cases hb
    | cons y b =>
      rw [common] at ha hb ⊢
      split at ha
      · next hxy =>
        rw [if_pos hxy] at hb ⊢
        exact ih (Nat.lt_of_succ_lt_succ ha) (Nat.lt_of_succ_lt_succ hb)
      · next hxy =>
        rw [if_neg hxy]
        exact hxy

/-- Strings of two parts: the second parts count if the first ones are equal. -/
theorem common_append {a' b' : Bits} (h : a.length = a'.length) :
    common (a ++ b) (a' ++ b') = if a = a' then a.length + common b b' else common a a' := by
  induction a generalizing a' with
  | nil =>
    obtain rfl := List.length_eq_zero_iff.mp h.symm
    simp
  | cons x a ih =>
    cases a' with
    | nil => cases h
    | cons y a' =>
      rw [List.cons_append, List.cons_append, common, common, ih (Nat.succ.inj h)]
      by_cases hxy : x = y
      · rw [if_pos hxy, if_pos hxy, hxy]
        by_cases ha : a = a'
        · rw [if_pos ha, if_pos (by rw [ha]), List.length_cons]
          omega
        · rw [if_neg ha, if_neg (by simpa using ha)]
      · rw [if_neg hxy, if_neg hxy, if_neg (by simp [hxy])]

/-! ## Specification -/

section Lpm

variable {V : Type}

/-- The value of the longest prefix of `k` of length at most `n`. -/
def lpmFrom (m : Bits → Option V) (k : Bits) : ℕ → Option V
  | 0 => m []
  | n + 1 => (m (k.take (n + 1))).or (lpmFrom m k n)

/-- The value of the longest prefix of `k` in the map. -/
def lpm (m : Bits → Option V) (k : Bits) : Option V := lpmFrom m k k.length

variable {k : Bits} {m : Bits → Option V}

variable {n : ℕ}

theorem lpmFrom_none (h : ∀ i ≤ n, m (k.take i) = none) : lpmFrom m k n = none := by
  induction n with
  | zero => exact h 0 (Nat.le_refl 0)
  | succ n ih =>
    rw [lpmFrom, h (n + 1) (Nat.le_refl _), Option.none_or]
    exact ih fun i hi => h i (Nat.le_succ_of_le hi)

theorem lpmFrom_some {i : ℕ} {v : V} (hi : i ≤ n) (hv : m (k.take i) = some v)
    (h : ∀ j ≤ n, i < j → m (k.take j) = none) : lpmFrom m k n = some v := by
  induction n with
  | zero =>
    obtain rfl := Nat.le_zero.mp hi
    exact hv
  | succ n ih =>
    rw [lpmFrom]
    by_cases hin : i = n + 1
    · subst hin
      rw [hv, Option.some_or]
    · -- a longer prefix is tried first, and has no value
      rw [h (n + 1) (Nat.le_refl _) (by omega), Option.none_or]
      exact ih (by omega) fun j hj => h j (Nat.le_succ_of_le hj)

theorem exists_of_lpm {v : V} (h : lpm m k = some v) : ∃ q, m q = some v := by
  have hfrom : ∀ n, lpmFrom m k n = some v → ∃ q, m q = some v := by
    intro n
    induction n with
    | zero => exact fun hzero => ⟨[], hzero⟩
    | succ n ih =>
      intro hsucc
      rw [lpmFrom, Option.or_eq_some_iff] at hsucc
      rcases hsucc with hfirst | ⟨-, hrest⟩
      · exact ⟨_, hfirst⟩
      · exact ih hrest
  exact hfrom k.length h

/-- Values that are translated one by one. -/
theorem lpm_bind {W : Type} {g : V → Option W} (k : Bits) (hg : ∀ q v, m q = some v → g v ≠ none) :
    (lpm m k).bind g = lpm (fun q => (m q).bind g) k := by
  have hfrom : ∀ n, (lpmFrom m k n).bind g = lpmFrom (fun q => (m q).bind g) k n := by
    intro n
    induction n with
    | zero => rfl
    | succ n ih =>
      rw [lpmFrom, lpmFrom, ← ih]
      cases hq : m (k.take (n + 1)) with
      | none => rfl
      | some v =>
        obtain ⟨w, hw⟩ := Option.ne_none_iff_exists'.mp (hg _ _ hq)
        rw [Option.some_or, Option.bind_some, hw, Option.some_or]
  exact hfrom k.length

end Lpm

/-! ## Trees -/

/-- A node: an unmasked key, the length of its prefix, and a value. The tag is whatever
identifies the node. -/
structure Entry (T V : Type) where
  tag : T
  key : Bits
  len : ℕ
  val : Option V

inductive Tree (T V : Type) where
  | nil
  | node (e : Entry T V) (children : Bool → Tree T V)

variable {T V : Type}

/-- The prefix that a node stands for. -/
def Entry.pre (e : Entry T V) : Bits := e.key.take e.len

/-- The node's prefix is one of the key. -/
def Entry.Matches (e : Entry T V) (k : Bits) : Prop := e.len ≤ common e.key k

instance (e : Entry T V) (k : Bits) : Decidable (e.Matches k) := inferInstanceAs (Decidable (_ ≤ _))

namespace Tree

def nodes : Tree T V → List (Entry T V)
  | nil => []
  | node e c => e :: ((c false).nodes ++ (c true).nodes)

def isNil : Tree T V → Bool
  | nil => true
  | node _ _ => false

/-- Every node's prefix starts with `p`. -/
def Extends (t : Tree T V) (p : Bits) : Prop := ∀ e ∈ t.nodes, p <+: e.pre

/-- Well-formed trees of keys of width `w`. -/
inductive WF (w : ℕ) : Tree T V → Prop
  | nil : WF w nil
  | node {e : Entry T V} {c : Bool → Tree T V} (key : e.key.length = w) (len : e.len ≤ w)
      (sides : ∀ b, (c b).Extends (e.pre ++ [b]))
      (full : e.val = none → ∀ b, (c b).isNil = false) (children : ∀ b, WF w (c b)) :
      WF w (node e c)

/-- Follow the key as long as the prefixes match; the last value counts. -/
def find (k : Bits) : Tree T V → Option V
  | nil => none
  | node e c =>
    if e.Matches k then
      if e.len = k.length then e.val else (find k (c (bitAt k e.len))).or e.val
    else none

variable {e : Entry T V} {c : Bool → Tree T V}

variable {x : Entry T V}

@[simp] theorem mem_nodes_node : x ∈ (node e c).nodes ↔ x = e ∨ ∃ b, x ∈ (c b).nodes := by
  rw [nodes, List.mem_cons, List.mem_append]
  simp [Bool.exists_bool]

variable {t : Tree T V}

theorem isNil_iff : t.isNil = true ↔ t = nil := by
  cases t with
  | nil => exact ⟨fun _ => rfl, fun _ => rfl⟩
  | node e c => exact ⟨nofun, nofun⟩

variable {b : Bool}

/-- If no two nodes share a tag, what is below a node has other ones. -/
theorem tag_ne_of_nodup (h : ((node e c).nodes.map Entry.tag).Nodup) (hx : x ∈ (c b).nodes) :
    x.tag ≠ e.tag := by
  intro heq
  rw [nodes, List.map_cons, List.nodup_cons] at h
  refine h.1 (heq ▸ List.mem_map_of_mem ?_)
  cases b
  · exact List.mem_append_left _ hx
  · exact List.mem_append_right _ hx

theorem length_pre (h : e.len ≤ e.key.length) : e.pre.length = e.len := by
  rw [Entry.pre, List.length_take, Nat.min_eq_left h]

theorem matches_iff (h : e.len ≤ e.key.length) (k : Bits) :
    e.Matches k ↔ e.pre <+: k := le_common_iff h

variable {w : ℕ}

theorem WF.len_le (h : t.WF w) : ∀ e ∈ t.nodes, e.key.length = w ∧ e.len ≤ w := by
  induction h with
  | nil =>
    intro e he
    cases he
  | node key len sides full children ih =>
    intro x hx
    rcases mem_nodes_node.mp hx with rfl | ⟨b, hb⟩
    · exact ⟨key, len⟩
    · exact ih b x hb

/-- The prefix of a node below another one continues that one's prefix. -/
theorem pre_lt_of_child (hsides : ∀ b, (c b).Extends (e.pre ++ [b])) (hx : x ∈ (c b).nodes) :
    e.pre <+: x.pre ∧ e.pre.length < x.pre.length := by
  have hext := hsides b x hx
  refine ⟨(List.prefix_append ..).trans hext, ?_⟩
  have hlen := hext.length_le
  rw [List.length_append] at hlen
  exact hlen

/-- Everything in a well-formed tree starts with the prefix of its root. -/
theorem WF.extends_root (h : (Tree.node e c).WF w) : (Tree.node e c).Extends e.pre := by
  cases h with
  | node key len sides full children =>
    intro x hx
    rcases mem_nodes_node.mp hx with rfl | ⟨b, hb⟩
    · exact List.prefix_refl _
    · exact (pre_lt_of_child sides hb).1

/-- Everything in a well-formed tree starts with `p` if its root does. -/
theorem WF.extends_iff (h : (Tree.node e c).WF w) {p : Bits} :
    (Tree.node e c).Extends p ↔ p <+: e.pre := by
  constructor
  · intro hext
    exact hext e (mem_nodes_node.mpr (.inl rfl))
  · intro hp x hx
    exact hp.trans (h.extends_root x hx)

/-- A prefix occurs at one node only. -/
theorem WF.nodup_pre (h : t.WF w) : (t.nodes.map Entry.pre).Nodup := by
  induction h with
  | nil => exact List.nodup_nil
  | @node e c key len sides full children ih =>
    rw [nodes, List.map_cons, List.nodup_cons, List.map_append, List.nodup_append]
    refine ⟨?_, ih false, ih true, ?_⟩
    · -- what is below is longer
      intro hmem
      rw [← List.map_append] at hmem
      rcases List.mem_map.mp hmem with ⟨x, hx, heq⟩
      have hb : ∃ b, x ∈ (c b).nodes := by
        rcases List.mem_append.mp hx with hx | hx
        · exact ⟨_, hx⟩
        · exact ⟨_, hx⟩
      rcases hb with ⟨b, hb⟩
      have hlt := (pre_lt_of_child sides hb).2
      rw [heq] at hlt
      exact absurd hlt (Nat.lt_irrefl _)
    · -- the two sides go on with different bits
      intro p hp q hq heq
      rcases List.mem_map.mp hp with ⟨x, hx, rfl⟩
      rcases List.mem_map.mp hq with ⟨y, hy, rfl⟩
      have hbit := bitAt_of_snoc (sides false x hx)
      rw [heq, bitAt_of_snoc (sides true y hy)] at hbit
      cases hbit

/-- A well-formed tree without values is empty: its leaves would have some. -/
theorem WF.eq_nil (h : t.WF w) (hnone : ∀ e ∈ t.nodes, e.val = none) : t = Tree.nil := by
  induction h with
  | nil => rfl
  | @node e c _ _ _ full _ ih =>
    have hval := hnone e (mem_nodes_node.mpr (.inl rfl))
    have hchild := ih false fun x hx => hnone x (mem_nodes_node.mpr (.inr ⟨false, hx⟩))
    have hsome := full hval false
    rw [hchild] at hsome
    cases hsome

/-! ## Lookup -/

/-- The entry of a prefix in the tree. -/
def Holds (t : Tree T V) (p : Bits) (v : V) : Prop := ∃ e ∈ t.nodes, e.pre = p ∧ e.val = some v

/-- The tree holds exactly the entries of the map. -/
def Represents (t : Tree T V) (m : Bits → Option V) : Prop := ∀ p v, m p = some v ↔ t.Holds p v

variable {k : Bits}

/-- What `find` returns: the value of the longest matching entry. -/
theorem find_cases (h : t.WF w) (hk : k.length = w) :
    (t.find k = none ∧ ∀ e ∈ t.nodes, e.pre <+: k → e.val = none) ∨
    (∃ e ∈ t.nodes, e.pre <+: k ∧ e.val ≠ none ∧ t.find k = e.val ∧
      ∀ x ∈ t.nodes, x.pre <+: k → e.pre.length < x.pre.length → x.val = none) := by
  induction h with
  | nil => exact .inl ⟨rfl, fun e he => nomatch he⟩
  | @node e c key len sides full children ih =>
    have hwf : (node e c).WF w := .node key len sides full children
    have hlen : e.len ≤ e.key.length := by omega
    rw [find]
    by_cases hmatch : e.Matches k
    swap
    · -- nothing below can match
      rw [if_neg hmatch]
      refine .inl ⟨rfl, ?_⟩
      intro x hx hpre
      exact absurd ((matches_iff hlen k).mpr ((hwf.extends_root x hx).trans hpre)) hmatch
    rw [if_pos hmatch]
    have hpre : e.pre <+: k := (matches_iff hlen k).mp hmatch
    have hpos := length_pre hlen
    -- what matches below the root is on the side of the key
    have hside : ∀ b, ∀ x ∈ (c b).nodes, x.pre <+: k → b = bitAt k e.len := by
      intro b x hx hxk
      rw [← hpos]
      exact (bitAt_of_snoc ((sides b x hx).trans hxk)).symm
    by_cases hfull : e.len = k.length
    · rw [if_pos hfull]
      -- a key of full length has no room for anything below
      have hbelow : ∀ x ∈ (node e c).nodes, x.pre <+: k → x = e := by
        intro x hx hxk
        rcases mem_nodes_node.mp hx with rfl | ⟨b, hb⟩
        · rfl
        · have h1 := (pre_lt_of_child sides hb).2
          have h2 := hxk.length_le
          omega
      cases hval : e.val with
      | none => exact .inl ⟨rfl, fun x hx hxk => by rw [hbelow x hx hxk, hval]⟩
      | some v =>
        refine .inr ⟨e, mem_nodes_node.mpr (.inl rfl), hpre, by rw [hval]; exact nofun, hval.symm, ?_⟩
        intro x hx hxk hlt
        rw [hbelow x hx hxk] at hlt
        exact absurd hlt (Nat.lt_irrefl _)
    rw [if_neg hfull]
    rcases ih (bitAt k e.len) with ⟨hnone, hall⟩ | ⟨x, hx, hxk, hxval, hfind, hlongest⟩
    · -- the root decides
      rw [hnone, Option.none_or]
      have hbelow : ∀ b, ∀ x ∈ (c b).nodes, x.pre <+: k → x.val = none := by
        intro b x hx hxk
        have hb := hside b x hx hxk
        subst hb
        exact hall x hx hxk
      cases hval : e.val with
      | none =>
        refine .inl ⟨rfl, ?_⟩
        intro x hx hxk
        rcases mem_nodes_node.mp hx with rfl | ⟨b, hb⟩
        · exact hval
        · exact hbelow b x hb hxk
      | some v =>
        refine .inr ⟨e, mem_nodes_node.mpr (.inl rfl), hpre, by rw [hval]; exact nofun, hval.symm, ?_⟩
        intro x hx hxk hlt
        rcases mem_nodes_node.mp hx with rfl | ⟨b, hb⟩
        · exact absurd hlt (Nat.lt_irrefl _)
        · exact hbelow b x hb hxk
    · -- something below decides
      refine .inr ⟨x, mem_nodes_node.mpr (.inr ⟨_, hx⟩), hxk, hxval, ?_, ?_⟩
      · rw [hfind]
        cases hv : x.val with
        | none => exact absurd hv hxval
        | some v => rfl
      · intro y hy hyk hlt
        rcases mem_nodes_node.mp hy with rfl | ⟨b, hb⟩
        · exact absurd (Nat.lt_trans (pre_lt_of_child sides hx).2 hlt) (Nat.lt_irrefl _)
        · have hbit := hside b y hb hyk
          subst hbit
          exact hlongest y hb hyk hlt

/-- Lookup is longest prefix match in the map that the tree represents. -/
theorem find_eq_lpm (h : t.WF w) {m : Bits → Option V} (hm : t.Represents m) (hk : k.length = w) :
    t.find k = lpm m k := by
  -- an entry of the map is a node with a prefix of the key
  have hentry : ∀ i v, m (k.take i) = some v → ∃ e ∈ t.nodes, e.pre = k.take i ∧ e.val = some v := by
    intro i v hv
    exact (hm _ _).mp hv
  rcases find_cases h hk with ⟨hnone, hall⟩ | ⟨e, he, hek, hval, hfind, hlongest⟩
  · rw [hnone, lpm, lpmFrom_none]
    intro i _
    cases hv : m (k.take i) with
    | none => rfl
    | some v =>
      rcases hentry i v hv with ⟨e, he, hpre, hval⟩
      rw [hall e he (hpre ▸ List.take_prefix ..)] at hval
      cases hval
  · obtain ⟨v, hv⟩ := Option.ne_none_iff_exists'.mp hval
    have hpre : k.take e.pre.length = e.pre := (List.prefix_iff_eq_take.mp hek).symm
    rw [hfind, hv, lpm, lpmFrom_some hek.length_le (by rw [hpre]; exact (hm _ _).mpr ⟨e, he, rfl, hv⟩)]
    intro j hj hlt
    cases hw : m (k.take j) with
    | none => rfl
    | some u =>
      rcases hentry j u hw with ⟨x, hx, hxpre, hxval⟩
      have hlen : x.pre.length = j := by
        rw [hxpre, List.length_take, Nat.min_eq_left hj]
      rw [hlongest x hx (hxpre ▸ List.take_prefix ..) (by omega)] at hxval
      cases hxval

end Tree

end PrefixTree
