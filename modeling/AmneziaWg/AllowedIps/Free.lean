import AmneziaWg.AllowedIps.Remove

/-!
# Freeing a table

`wg_allowedips_free` takes both tries out of the table, and then walks over each of them
twice, with a stack of its own: to take its nodes off the lists, and to free them.

* **Walks**: `walkChecked_tree`, each node is visited once, and the stack does not overflow.
* **Step**: `free_spec`.
-/

namespace AmneziaWg.AllowedIps

open Linux PrefixTree PrefixTree.Tree TreeHeap
open scoped List

variable {P : Type} {e : Endian} {f : Family}

/-! ## Walks -/

/-- `MAX_ALLOWEDIPS_DEPTH`, the size of the stacks. -/
def maxAllowedipsDepth : ℕ := 129

/-- `push_rcu`. A push to a full stack would be a write out of bounds. -/
def pushRcu (p : Option ℕ) (stack : List ℕ) : Option (List ℕ) :=
  match p with
  | none => some stack
  | some n => if stack.length < maxAllowedipsDepth then some (n :: stack) else none

/-- The walks with stacks of that size. They also return which nodes they visit. -/
def walkChecked (visit : ℕ → NodeData P → Table P → Table P) :
    ℕ → List ℕ → Table P → Option (List ℕ × Table P)
  | _, [], s => some ([], s)
  | 0, _ :: _, _ => none
  | turns + 1, n :: stack, s =>
    (s.heap.cells n).bind fun node =>
      (pushRcu (node.bit false) stack).bind fun stack =>
        (pushRcu (node.bit true) stack).bind fun stack =>
          (walkChecked visit turns stack (visit n node.data s)).map fun r => (n :: r.1, r.2)

theorem pushRcu_eq {p : Option ℕ} {stack stack' : List ℕ} (h : pushRcu p stack = some stack') :
    stack' = p.toList ++ stack := by
  cases p with
  | none => exact (Option.some.inj h).symm
  | some n =>
    rw [pushRcu] at h
    split at h
    · exact (Option.some.inj h).symm
    · cases h

/-- Within bounds the size of the stacks makes no difference. -/
theorem walk_of_checked {visit : ℕ → NodeData P → Table P → Table P} {turns : ℕ}
    {stack order : List ℕ} {s s' : Table P}
    (h : walkChecked visit turns stack s = some (order, s')) :
    walk visit turns stack s = some s' := by
  induction turns generalizing stack order s with
  | zero =>
    cases stack with
    | nil =>
      cases h
      rfl
    | cons n stack => cases h
  | succ turns ih =>
    cases stack with
    | nil =>
      cases h
      rfl
    | cons n stack =>
      rw [walkChecked] at h
      rcases Option.bind_eq_some_iff.mp h with ⟨node, hnode, h⟩
      rcases Option.bind_eq_some_iff.mp h with ⟨stack₁, hfirst, h⟩
      rcases Option.bind_eq_some_iff.mp h with ⟨stack₂, hsecond, h⟩
      rcases Option.map_eq_some_iff.mp h with ⟨r, hr, heq⟩
      cases heq
      rw [pushRcu_eq hsecond, pushRcu_eq hfirst] at hr
      rw [walk, hnode, Option.bind_some]
      exact ih hr

/-- The order of the visits: a node, its right side, its left side. -/
def visits : Tree ℕ P → List (Entry ℕ P)
  | .nil => []
  | .node x ch => x :: (visits (ch true) ++ visits (ch false))

theorem visits_perm (d : Tree ℕ P) : visits d ~ d.nodes := by
  induction d with
  | nil => exact .nil
  | node x ch ih =>
    refine List.Perm.cons x ?_
    exact ((ih true).append (ih false)).trans List.perm_append_comm

section Walk

variable {visit : ℕ → NodeData P → Table P → Table P} {act : Entry ℕ P → Table P → Table P}
  (hvisit : ∀ node x s, Describes e f node x → visit x.tag node s = act x s)
  (hcells : ∀ x s n, n ≠ x.tag → (act x s).heap.cells n = s.heap.cells n)

include hcells in
theorem foldl_cells (order : List (Entry ℕ P)) (s : Table P) {n : ℕ}
    (hn : n ∉ order.map Entry.tag) :
    (order.foldl (fun s x => act x s) s).heap.cells n = s.heap.cells n := by
  induction order generalizing s with
  | nil => rfl
  | cons x order ih =>
    rw [List.map_cons, List.mem_cons, not_or] at hn
    rw [List.foldl_cons, ih _ hn.2, hcells x s n hn.1]

/-- The nodes on a side have longer prefixes than the node. -/
theorem len_lt {x : Entry ℕ P} {ch : Bool → Tree ℕ P}
    (hwf : (PrefixTree.Tree.node x ch).WF f.bits) {b : Bool}
    {y : Entry ℕ P} (hy : y ∈ (ch b).nodes) : x.len < y.len := by
  cases hwf with
  | node key len sides full children =>
    have hle := (sides b y hy).length_le
    have hx : x.pre.length = x.len := length_pre (by omega)
    have hylen : y.pre.length ≤ y.len := by
      rw [Entry.pre, List.length_take]
      exact Nat.min_le_left ..
    rw [List.length_append, hx, List.length_singleton] at hle
    omega

/-- A pointer to a tree whose prefixes are at least as long as the stack is high fits. -/
theorem pushRcu_rep {cells : ℕ → Option (Cell Family (NodeData P))} {slot : Slot Family}
    {p : Option ℕ} {d : Tree ℕ P} (hrep : Rep (Describes e f) cells slot p d) (hwf : d.WF f.bits)
    {stack : List ℕ} (hdeep : ∀ x ∈ d.nodes, stack.length ≤ x.len) :
    pushRcu p stack = some (p.toList ++ stack) := by
  cases d with
  | nil =>
    obtain rfl : p = none := hrep
    rfl
  | node x ch =>
    obtain rfl := hrep.1
    have hx : x ∈ (PrefixTree.Tree.node x ch).nodes := mem_nodes_node.mpr (.inl rfl)
    have hlen := (hwf.len_le x hx).2
    have hdepth := hdeep x hx
    have hbits : f.bits ≤ 128 := by cases f <;> decide
    have hfits : stack.length < maxAllowedipsDepth := by
      rw [maxAllowedipsDepth]
      omega
    exact if_pos hfits

include hvisit hcells in
/-- A tree on the stack is visited node by node, and then what is below it. While the walk is at a
node, the stack holds no more than one side of each node above it; their prefixes are shorter. -/
theorem walkChecked_tree {d : Tree ℕ P} (hwf : d.WF f.bits) :
    ∀ {slot : Slot Family} {p : Option ℕ} (turns : ℕ) (stack : List ℕ) (s : Table P),
      Rep (Describes e f) s.heap.cells slot p d → (d.nodes.map Entry.tag).Nodup →
      (∀ x ∈ d.nodes, stack.length ≤ x.len) →
      walkChecked visit (d.nodes.length + turns) (p.toList ++ stack) s =
        (walkChecked visit turns stack ((visits d).foldl (fun s x => act x s) s)).map
          fun r => ((visits d).map Entry.tag ++ r.1, r.2) := by
  induction hwf with
  | nil =>
    intro slot p turns stack s hrep hnodup hdeep
    obtain rfl : p = none := hrep
    rw [nodes, List.length_nil, Nat.zero_add]
    exact Option.map_id'.symm
  | @node x ch key len sides full children ih =>
    intro slot p turns stack s hrep hnodup hdeep
    have hwf : (PrefixTree.Tree.node x ch).WF f.bits := .node key len sides full children
    rcases hrep with ⟨rfl, cell, hcell, hdesc, -, hchildren⟩
    have hx := hdeep x (mem_nodes_node.mpr (.inl rfl))
    -- one of the sides waits while the walk is in the other
    have hfirst : pushRcu (cell.bit false) stack = some ((cell.bit false).toList ++ stack) := by
      refine pushRcu_rep (hchildren false) (children false) ?_
      intro y hy
      exact hx.trans (len_lt hwf hy).le
    have hheight : ((cell.bit false).toList ++ stack).length ≤ x.len + 1 := by
      have hone := Option.length_toList_le (o := cell.bit false)
      rw [List.length_append]
      omega
    have hdeep' : ∀ y ∈ (ch true).nodes, ((cell.bit false).toList ++ stack).length ≤ y.len :=
      fun y hy => hheight.trans (len_lt hwf hy)
    have hsecond := pushRcu_rep (hchildren true) (children true) hdeep'
    rw [nodes, List.map_cons, List.map_append, List.nodup_cons, List.nodup_append] at hnodup
    rcases hnodup with ⟨hself, hfalse, htrue, hapart⟩
    have hcount : (PrefixTree.Tree.node x ch).nodes.length + turns =
        (ch true).nodes.length + ((ch false).nodes.length + turns) + 1 := by
      rw [nodes, List.length_cons, List.length_append]
      omega
    have hother : ∀ b, ∀ y ∈ (ch b).nodes, y.tag ≠ x.tag := by
      intro b y hy heq
      refine hself (heq ▸ List.mem_append.mpr ?_)
      cases b
      · exact .inl (List.mem_map_of_mem hy)
      · exact .inr (List.mem_map_of_mem hy)
    have hrep₁ : Rep (Describes e f) (act x s).heap.cells (.child x.tag true) (cell.bit true)
        (ch true) :=
      (hchildren true).congr fun y hy => hcells x s _ (hother true y hy)
    have hrep₂ : Rep (Describes e f)
        ((visits (ch true)).foldl (fun s x => act x s) (act x s)).heap.cells
        (.child x.tag false) (cell.bit false) (ch false) := by
      refine (hchildren false).congr fun y hy => ?_
      rw [foldl_cells hcells, hcells x s _ (hother false y hy)]
      intro hmem
      rw [((visits_perm (ch true)).map _).mem_iff] at hmem
      exact hapart _ (List.mem_map_of_mem hy) _ hmem rfl
    have hright := ih true ((ch false).nodes.length + turns) _ (act x s) hrep₁ htrue hdeep'
    have hleft := ih false turns stack _ hrep₂ hfalse fun y hy => hx.trans (len_lt hwf hy).le
    rw [hcount, Option.toList_some, List.singleton_append, walkChecked, hcell, Option.bind_some,
      hfirst, Option.bind_some, hsecond, Option.bind_some, hvisit _ x s hdesc, hright, hleft,
      Option.map_map, Option.map_map, visits, List.foldl_cons, List.foldl_append]
    refine congrArg (Option.map · _) ?_
    funext r
    simp [Function.comp]

end Walk

section Table

variable {s : Table P} {d : Tree ℕ P} {root : ℕ}

/-- Addresses are given out in order, so there are turns for every node. -/
theorem length_le_next (hnodup : (d.nodes.map Entry.tag).Nodup)
    (hfresh : ∀ x ∈ d.nodes, x.tag < s.next) : d.nodes.length ≤ s.next := by
  have hsub : d.nodes.map Entry.tag ⊆ List.range s.next := by
    intro n hn
    rcases List.mem_map.mp hn with ⟨x, hx, rfl⟩
    exact List.mem_range.mpr (hfresh x hx)
  have hle := (hnodup.subperm hsub).length_le
  rwa [List.length_map, List.length_range] at hle

/-- A walk over a whole trie. -/
theorem walk_trie {visit : ℕ → NodeData P → Table P → Table P} (act : Entry ℕ P → Table P → Table P)
    (hvisit : ∀ node x s, Describes e f node x → visit x.tag node s = act x s)
    (hcells : ∀ x s n, n ≠ x.tag → (act x s).heap.cells n = s.heap.cells n)
    (hrep : Rep (Describes e f) s.heap.cells (.root f) (some root) d) (hwf : d.WF f.bits)
    (hnodup : (d.nodes.map Entry.tag).Nodup) (hfresh : ∀ x ∈ d.nodes, x.tag < s.next) :
    walkChecked visit s.next [root] s =
      some ((visits d).map Entry.tag, (visits d).foldl (fun s x => act x s) s) := by
  have hle := length_le_next hnodup hfresh
  have hwalk := walkChecked_tree hvisit hcells hwf (s.next - d.nodes.length) [] s hrep hnodup
    fun x _ => Nat.zero_le x.len
  rw [Nat.add_sub_cancel' hle] at hwalk
  rw [Option.toList_some, List.singleton_append] at hwalk
  rw [hwalk, walkChecked, Option.map_some, List.append_nil]

def unlist (x : Entry ℕ P) (s : Table P) : Table P :=
  if x.val.isSome then { s with lists := listDel x.tag s.lists } else s

/-- Taking nodes off the lists changes nothing else. -/
theorem unlist_fold (order : List (Entry ℕ P)) (hnodup : ∀ p, (s.lists p).Nodup) :
    ∃ lists, order.foldl (fun s x => unlist x s) s = { s with lists } ∧ (∀ p, (lists p).Nodup) ∧
      ∀ p i, i ∈ lists p ↔ i ∈ s.lists p ∧ ∀ q v, ¬ Valued order i q v := by
  induction order generalizing s with
  | nil =>
    refine ⟨s.lists, rfl, hnodup, ?_⟩
    intro p i
    refine ⟨fun h => ⟨h, ?_⟩, And.left⟩
    rintro q v ⟨x, hx, -⟩
    cases hx
  | cons x order ih =>
    rw [List.foldl_cons]
    cases hval : x.val with
    | none =>
      obtain ⟨lists, hfold, hlists, hmem⟩ := ih hnodup
      refine ⟨lists, by rw [unlist, hval]; exact hfold, hlists, ?_⟩
      intro p i
      rw [hmem]
      simp [valued_cons, hval]
    | some u =>
      obtain ⟨lists, hfold, hlists, hmem⟩ := @ih { s with lists := listDel x.tag s.lists }
        fun p => (hnodup p).erase _
      refine ⟨lists, by rw [unlist, hval]; exact hfold, hlists, ?_⟩
      intro p i
      rw [hmem, mem_listDel hnodup, and_assoc]
      refine and_congr_right fun _ => ?_
      constructor
      · rintro ⟨hne, hrest⟩ q v hvalued
        rcases valued_cons.mp hvalued with ⟨rfl, -, -⟩ | hvalued
        · exact hne rfl
        · exact hrest q v hvalued
      · intro hall
        refine ⟨?_, fun q v hvalued => hall q v (valued_cons.mpr (.inr hvalued))⟩
        rintro rfl
        exact hall x.pre u (valued_cons.mpr (.inl ⟨rfl, rfl, hval⟩))

def release (x : Entry ℕ P) (s : Table P) : Table P := { s with heap := s.heap.set x.tag none }

/-- Freeing nodes changes nothing else. -/
theorem release_fold (order : List (Entry ℕ P)) :
    ∃ heap, order.foldl (fun s x => release x s) s = { s with heap } ∧ heap.root = s.heap.root ∧
      ∀ n ∉ order.map Entry.tag, heap.cells n = s.heap.cells n := by
  induction order generalizing s with
  | nil => exact ⟨s.heap, rfl, rfl, fun _ _ => rfl⟩
  | cons x order ih =>
    obtain ⟨heap, hfold, hroot, hcells⟩ := @ih (release x s)
    refine ⟨heap, hfold, hroot, ?_⟩
    intro n hn
    rw [List.map_cons, List.mem_cons, not_or] at hn
    rw [hcells n hn.2]
    exact Heap.set_other _ _ hn.1

/-- A trie that no root points to any more is freed, and its nodes leave the lists. -/
theorem freeTrie_spec {root : Option ℕ}
    (hrep : Rep (Describes e f) s.heap.cells (.root f) root d) (hwf : d.WF f.bits)
    (hnodup : (d.nodes.map Entry.tag).Nodup) (hfresh : ∀ x ∈ d.nodes, x.tag < s.next)
    (hlists : ∀ p, (s.lists p).Nodup) :
    ∃ heap lists, freeTrie root s = some { s with heap, lists } ∧ heap.root = s.heap.root ∧
      (∀ n ∉ d.nodes.map Entry.tag, heap.cells n = s.heap.cells n) ∧ (∀ p, (lists p).Nodup) ∧
      ∀ p i, i ∈ lists p ↔ i ∈ s.lists p ∧ ∀ q v, ¬ Valued d.nodes i q v := by
  cases root with
  | none =>
    obtain rfl := isNil_iff.mp hrep.isNil
    refine ⟨s.heap, s.lists, rfl, rfl, fun _ _ => rfl, hlists, ?_⟩
    intro p i
    refine ⟨fun h => ⟨h, ?_⟩, And.left⟩
    rintro q v ⟨x, hx, -⟩
    cases hx
  | some root =>
    have hwalk := walk_of_checked (@walk_trie _ e f s d root
      (fun n node s => if node.peer.isSome then { s with lists := listDel n s.lists } else s) unlist
      (fun node x s hdesc => by rw [unlist, ← hdesc.peer])
      (fun x s n _ => by rw [unlist]; split <;> rfl) hrep hwf hnodup hfresh)
    obtain ⟨lists, hfold, hnodup', hmem⟩ := unlist_fold (visits d) hlists
    have hwalk' := walk_of_checked (@walk_trie _ e f { s with lists } d root
      (fun n _ s => { s with heap := s.heap.set n none }) release (fun _ _ _ _ => rfl)
      (fun x s n hne => Heap.set_other _ _ hne) hrep hwf hnodup hfresh)
    obtain ⟨heap, hfold', hroot, hcells⟩ := @release_fold _ { s with lists } (visits d)
    refine ⟨heap, lists, ?_, hroot, ?_, hnodup', ?_⟩
    · rw [freeTrie, rootRemovePeerLists, hwalk, hfold, Option.bind_some, rootFreeRcu, hwalk',
        hfold']
    · intro n hn
      rw [← ((visits_perm d).map _).mem_iff] at hn
      exact hcells n hn
    · intro p i
      rw [hmem]
      simp only [valued_perm (visits_perm d)]

end Table

/-! ## Step -/

/-- `wg_allowedips_free` leaves an empty table. -/
theorem free_spec {s : Table P} {t : Family → Tree ℕ P} (hinv : Inv e s t) :
    ∃ s', wgAllowedipsFree s = some s' ∧ Inv e s' fun _ => .nil := by
  obtain ⟨heap, lists, hfree4, hroot4, hcells4, hnodup4, hmem4⟩ := @freeTrie_spec _ e .v4
    { s with seq := s.seq + 1, heap := { s.heap with root := fun _ => none } } (t .v4)
    (s.heap.root .v4) (hinv.rep .v4) (hinv.wf .v4) (hinv.nodup .v4) (hinv.fresh .v4) hinv.lists_nodup
  -- the other trie is still there
  have hrep6 : Rep (Describes e .v6) heap.cells (.root .v6) (s.heap.root .v6) (t .v6) := by
    refine (hinv.rep .v6).congr fun x hx => hcells4 _ ?_
    intro hmem
    rcases List.mem_map.mp hmem with ⟨y, hy, heq⟩
    exact hinv.disjoint .v4 .v6 nofun y hy x hx heq
  obtain ⟨heap', lists', hfree6, hroot6, -, hnodup6, hmem6⟩ := @freeTrie_spec _ e .v6
    { s with seq := s.seq + 1, heap, lists } (t .v6) (s.heap.root .v6) hrep6 (hinv.wf .v6) (hinv.nodup .v6)
    (hinv.fresh .v6) hnodup4
  refine ⟨_, by rw [wgAllowedipsFree, hfree4, Option.bind_some, hfree6], ?_⟩
  have hroots : ∀ f, heap'.root f = none := by
    intro f
    rw [hroot6, hroot4]
  constructor
  · exact hroots
  · intro f
    exact .nil
  · intro f
    exact List.nodup_nil
  · intro f g _ x hx
    cases hx
  · intro f x hx
    cases hx
  · -- a listed node was in one of the tries
    intro p n
    constructor
    · intro hn
      obtain ⟨hn, hnot6⟩ := (hmem6 p n).mp hn
      obtain ⟨hn, hnot4⟩ := (hmem4 p n).mp hn
      obtain ⟨f, q, hq⟩ := (hinv.lists p n).mp hn
      cases f
      · exact absurd hq (hnot4 q p)
      · exact absurd hq (hnot6 q p)
    · rintro ⟨f, q, x, hx, -⟩
      cases hx
  · exact hnodup6

end AmneziaWg.AllowedIps
