import AmneziaWg.AllowedIps.Refinement

/-!
# Bounds of the loops

`find_node` and `node_placement` read a bit of the key behind the prefix of a node, and the walks
over a trie have a stack of fixed size. Neither is checked by the code; both rest on prefixes
that get longer on the way down and do not exceed the address.

* **Model**: `findNodeWith`, `nodePlacementWith`, the loops for any way to read the bit;
  `chooseChecked`, which reads it only inside the key.
* **Bounds**: the checked loops do what the loops do, in every table that calls lead to.
-/

namespace AmneziaWg.AllowedIps

open Linux PrefixTree PrefixTree.Tree TreeHeap

variable {P : Type}

/-! ## Model layer -/

/-- `choose`, unless the prefix of the node is a whole address or the byte lies outside the key. -/
def chooseChecked (f : Family) (node : NodeData P) (key : Bytes) : Option Bool :=
  if node.cidr ≠ f.bits ∧ node.bitAtA < key.length then some (choose node key) else none

/-- The loop of `find_node`, with any way to read the bit. -/
def findNodeWith (pick : NodeData P → Bytes → Option Bool) (e : Endian) (f : Family)
    (heap : Heap Family (NodeData P)) (key : Bytes) :
    ℕ → Option ℕ → Option ℕ → Option (Option ℕ)
  | 0, _, _ => none
  | _ + 1, none, found => some found
  | turns + 1, some n, found =>
    (heap.cells n).bind fun node =>
      if prefixMatches e f node.data key then
        let found := if node.data.peer.isSome then some n else found
        if node.data.cidr = f.bits then some found
        else (pick node.data key).bind fun b =>
          findNodeWith pick e f heap key turns (node.bit b) found
      else some found

/-- The loop of `node_placement`, with any way to read the bit. -/
def nodePlacementWith (pick : NodeData P → Bytes → Option Bool) (e : Endian) (f : Family)
    (heap : Heap Family (NodeData P)) (key : Bytes) (cidr : ℕ) :
    ℕ → Option ℕ → Option ℕ → Option (Option ℕ × Bool)
  | 0, _, _ => none
  | _ + 1, none, parent => some (parent, false)
  | turns + 1, some n, parent =>
    (heap.cells n).bind fun node =>
      if node.data.cidr ≤ cidr ∧ prefixMatches e f node.data key then
        if node.data.cidr = cidr then some (some n, true)
        else (pick node.data key).bind fun b =>
          nodePlacementWith pick e f heap key cidr turns (node.bit b) (some n)
      else some (parent, false)

section Walks

variable [DecidableEq P]

/-- `root_remove_peer_lists`, with the nodes in the order of their visits. -/
def rootRemovePeerListsChecked (root : ℕ) (s : Table P) : Option (List ℕ × Table P) :=
  walkChecked (fun n node s => if node.peer.isSome then { s with lists := listDel n s.lists } else s)
    s.next [root] s

/-- `root_free_rcu`, with the nodes in the order of their visits. -/
def rootFreeRcuChecked (root : ℕ) (s : Table P) : Option (List ℕ × Table P) :=
  walkChecked (fun n _ s => { s with heap := s.heap.set n none }) s.next [root] s

end Walks

section Loops

variable {e : Endian} {f : Family} {heap : Heap Family (NodeData P)} {key : Bytes}

/-! ## Bounds -/

/-- The byte of a bit inside the address. -/
theorem bitAtA_lt {cidr : ℕ} (h : cidr < f.bits) : bitAtA e f cidr < f.bits / 8 := by
  have hv4 : ∀ a < 4, a ^^^ 3 < 4 := by decide
  have hv6 : ∀ a < 16, a ^^^ 7 < 16 := by decide
  have hbyte : cidr / 8 < f.bits / 8 := by
    cases f
    · exact (Nat.div_lt_iff_lt_mul (by omega)).mpr h
    · exact (Nat.div_lt_iff_lt_mul (by omega)).mpr h
  cases e with
  | big => exact hbyte
  | little =>
    cases f with
    | v4 => exact hv4 _ hbyte
    | v6 => exact hv6 _ hbyte

theorem chooseChecked_eq {node : NodeData P} {x : Entry ℕ P} (h : Describes e f node x)
    (hkey : key.length = f.bits / 8) (hlt : x.len < f.bits) :
    chooseChecked f node key = some (choose node key) := by
  have hcidr : node.cidr < f.bits := by
    rw [h.cidr]
    exact hlt
  refine if_pos ⟨Nat.ne_of_lt hcidr, ?_⟩
  rw [h.a, hkey]
  exact bitAtA_lt hcidr

theorem findNode_checked (hkey : key.length = f.bits / 8) {t : Tree ℕ P} (hwf : t.WF f.bits) :
    ∀ {slot : Slot Family} {p : Option ℕ} (turns : ℕ) (found : Option ℕ),
      Rep (Describes e f) heap.cells slot p t →
      findNodeWith (chooseChecked f) e f heap key turns p found =
        findNode e f heap key turns p found := by
  induction hwf with
  | nil =>
    intro slot p turns found hrep
    obtain rfl : p = none := hrep
    cases turns <;> rfl
  | @node x ch hkeylen hxlen sides full children ih =>
    intro slot p turns found hrep
    rcases hrep with ⟨rfl, cell, hcell, hdesc, -, hchildren⟩
    cases turns with
    | zero => rfl
    | succ turns =>
      rw [findNodeWith, findNode, hcell, Option.bind_some, Option.bind_some]
      by_cases hfull : cell.data.cidr = f.bits
      · -- the loop ends here
        rw [if_pos hfull, if_pos hfull]
      · have hlt : x.len < f.bits := by
          rw [← hdesc.cidr]
          exact Nat.lt_of_le_of_ne (hdesc.cidr ▸ hxlen) hfull
        rw [if_neg hfull, if_neg hfull, chooseChecked_eq hdesc hkey hlt, Option.bind_some,
          ih _ turns _ (hchildren _)]

theorem nodePlacement_checked (hkey : key.length = f.bits / 8) {n : ℕ} (hn : n ≤ f.bits)
    {t : Tree ℕ P} (hwf : t.WF f.bits) :
    ∀ {slot : Slot Family} {p : Option ℕ} (turns : ℕ) (parent : Option ℕ),
      Rep (Describes e f) heap.cells slot p t →
      nodePlacementWith (chooseChecked f) e f heap key n turns p parent =
        nodePlacement e f heap key n turns p parent := by
  induction hwf with
  | nil =>
    intro slot p turns parent hrep
    obtain rfl : p = none := hrep
    cases turns <;> rfl
  | @node x ch hkeylen hxlen sides full children ih =>
    intro slot p turns parent hrep
    rcases hrep with ⟨rfl, cell, hcell, hdesc, -, hchildren⟩
    cases turns with
    | zero => rfl
    | succ turns =>
      rw [nodePlacementWith, nodePlacement, hcell, Option.bind_some, Option.bind_some]
      by_cases hgo : cell.data.cidr ≤ n ∧ prefixMatches e f cell.data key = true
      swap
      · rw [if_neg hgo, if_neg hgo]
      rw [if_pos hgo, if_pos hgo]
      by_cases hexact : cell.data.cidr = n
      · rw [if_pos hexact, if_pos hexact]
      · -- the prefix of the node is shorter than the one that is looked for
        have hlt : x.len < f.bits := by
          rw [← hdesc.cidr]
          exact (Nat.lt_of_le_of_ne hgo.1 hexact).trans_le hn
        rw [if_neg hexact, if_neg hexact, chooseChecked_eq hdesc hkey hlt, Option.bind_some,
          ih _ turns _ (hchildren _)]

end Loops

section Tables

variable {e : Endian} {f : Family} {s s₁ : Table P} {t : Family → Tree ℕ P} {root : ℕ}

/-- The order visits every node of a trie once. -/
def VisitsOnce (heap : Heap Family (NodeData P)) (f : Family) (order : List ℕ) : Prop :=
  order.Nodup ∧ ∀ n, n ∈ order ↔ InTrie heap f n

theorem visits_once (hinv : Inv e s t) (f : Family) :
    VisitsOnce s.heap f ((visits (t f)).map Entry.tag) := by
  have hperm := (visits_perm (t f)).map Entry.tag
  refine ⟨hperm.nodup_iff.mpr (hinv.nodup f), ?_⟩
  intro n
  rw [hperm.mem_iff, List.mem_map, hinv.inTrie_iff]

/-- A walk over a trie of the table, in a table that may have lost other nodes. -/
theorem walkChecked_table {visit : ℕ → NodeData P → Table P → Table P}
    (act : Entry ℕ P → Table P → Table P)
    (hvisit : ∀ node x s, Describes e f node x → visit x.tag node s = act x s)
    (hcells : ∀ x s n, n ≠ x.tag → (act x s).heap.cells n = s.heap.cells n)
    (hinv : Inv e s t) (hroot : s.heap.root f = some root) (hnext : s.next ≤ s₁.next)
    (hsame : ∀ n, InTrie s.heap f n → s₁.heap.cells n = s.heap.cells n) :
    ∃ order s', walkChecked visit s₁.next [root] s₁ = some (order, s') ∧
      walk visit s₁.next [root] s₁ = some s' ∧ VisitsOnce s.heap f order := by
  have hrep : Rep (Describes e f) s₁.heap.cells (.root f) (some root) (t f) := by
    rw [← hroot]
    exact (hinv.rep f).congr fun x hx => hsame x.tag (hinv.inTrie_iff.mpr ⟨x, hx, rfl⟩)
  have hwalk := walk_trie act hvisit hcells hrep (hinv.wf f) (hinv.nodup f)
    fun x hx => (hinv.fresh f x hx).trans_le hnext
  exact ⟨_, _, hwalk, walk_of_checked hwalk, visits_once hinv f⟩

/-- After every sequence of calls and for every key: `find_node` and `node_placement` end, and
read no bit behind the address; the two walks over a trie end, keep to their stack, and visit
every node of it once. -/
theorem traversals_bounded [DecidableEq P] (e : Endian) (ops : List (Op P)) :
    ∃ results s, run e wgAllowedipsInit ops = some (results, s) ∧
      (∀ (f : Family) (key : Bytes), key.length = f.bits / 8 →
        ∃ r, findNodeWith (chooseChecked f) e f s.heap key (f.bits + 2) (s.heap.root f) none = some r ∧
          findNode e f s.heap key (f.bits + 2) (s.heap.root f) none = some r) ∧
      (∀ (f : Family) (key : Bytes) (cidr : ℕ), key.length = f.bits / 8 → cidr ≤ f.bits →
        ∃ r, nodePlacementWith (chooseChecked f) e f s.heap key cidr (f.bits + 2) (s.heap.root f)
            none = some r ∧
          nodePlacement e f s.heap key cidr (f.bits + 2) (s.heap.root f) none = some r) ∧
      ∀ (f : Family) (root : ℕ) (s₁ : Table P), s.heap.root f = some root → s.next ≤ s₁.next →
        (∀ n, InTrie s.heap f n → s₁.heap.cells n = s.heap.cells n) →
        (∃ order s', rootRemovePeerListsChecked root s₁ = some (order, s') ∧
          rootRemovePeerLists root s₁ = some s' ∧ VisitsOnce s.heap f order) ∧
        ∃ order s', rootFreeRcuChecked root s₁ = some (order, s') ∧
          rootFreeRcu root s₁ = some s' ∧ VisitsOnce s.heap f order := by
  obtain ⟨results, s, hrun, -, t, hinv, -⟩ := run_refines (@init_refines P e) ops
  refine ⟨results, s, hrun, ?_, ?_, ?_⟩
  · intro f key hkey
    obtain ⟨r, hfind, -⟩ := findNode_spec hkey (hinv.wf f) (f.bits + 2) none (hinv.rep f)
      (fun _ _ => List.nil_prefix) (Nat.zero_le _) (Nat.le_refl _)
    exact ⟨r, (findNode_checked hkey (hinv.wf f) _ _ (hinv.rep f)).trans hfind, hfind⟩
  · intro f key cidr hkey hcidr
    obtain ⟨c, d, -, -, hplace⟩ := hinv.located hkey hcidr
    exact ⟨_, (nodePlacement_checked hkey hcidr (hinv.wf f) _ _ (hinv.rep f)).trans hplace, hplace⟩
  · intro f root s₁ hroot hnext hsame
    constructor
    · exact walkChecked_table unlist (fun node x s hdesc => by rw [unlist, ← hdesc.peer])
        (fun x s n _ => by rw [unlist]; split <;> rfl) hinv hroot hnext hsame
    · exact walkChecked_table release (fun _ _ _ _ => rfl)
        (fun x s n hne => Heap.set_other _ _ hne) hinv hroot hnext hsame

end Tables

/-- A host route, whose node has no bits left. -/
theorem traversals_bounded_host :
    ∃ results s, run .little wgAllowedipsInit
        [.insert .v4 ⟨[10, 0, 0, 1], rfl⟩ 32 true (true, true)] = some (results, s) ∧
      (∃ r, findNodeWith (chooseChecked .v4) .little .v4 s.heap [1, 0, 0, 10] 34 (s.heap.root .v4)
        none = some r) ∧
      ∀ root, s.heap.root .v4 = some root → ∃ order s', rootFreeRcuChecked root s = some (order, s') ∧
        VisitsOnce s.heap .v4 order := by
  rcases traversals_bounded .little [.insert .v4 ⟨[10, 0, 0, 1], rfl⟩ 32 true (true, true)] with
    ⟨results, s, hrun, hfind, -, hwalks⟩
  refine ⟨results, s, hrun, ?_, ?_⟩
  · rcases hfind .v4 [1, 0, 0, 10] rfl with ⟨r, hr, -⟩
    exact ⟨r, hr⟩
  · intro root hroot
    rcases (hwalks .v4 root s hroot (Nat.le_refl _) fun _ _ => rfl).2 with
      ⟨order, s', hwalk, -, honce⟩
    exact ⟨order, s', hwalk, honce⟩

end AmneziaWg.AllowedIps
