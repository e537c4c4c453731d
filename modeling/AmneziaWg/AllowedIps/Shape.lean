import AmneziaWg.AllowedIps.Trie
import Mathlib.Data.List.Nodup

/-!
# The shape of a trie

What the nodes of a table represent: a path-compressed tree of addresses for each family,
and the loops that only read it.

* **Representation**: `Describes` for one node, `Inv` for a table.
* **Bit addressing**: what `choose` and `common_bits` say about addresses in network order.
* **Lookup**: `lookup_eq`.
* **Placement**: `Inv.located`.
* **Changes**: `Inv.place` takes a trie apart at a place, `Inv.replace` is the invariant
  after a change of one trie.
-/

namespace AmneziaWg.AllowedIps

open Linux PrefixTree PrefixTree.Tree TreeHeap

variable {P : Type} {e : Endian} {f : Family}

/-! ## Representation -/

/-- A node of the heap and an entry of the tree. -/
structure Describes (e : Endian) (f : Family) (node : NodeData P) (x : Entry ℕ P) : Prop where
  peer : node.peer = x.val
  cidr : node.cidr = x.len
  a : node.bitAtA = bitAtA e f node.cidr
  b : node.bitAtB = bitAtB node.cidr
  bitlen : node.bitlen = f.bits
  length : node.bits.length = f.bits / 8
  key : hostBits e f node.bits = x.key

/-- The trees of a table. -/
structure Inv (e : Endian) (s : Table P) (t : Family → Tree ℕ P) : Prop where
  rep : ∀ f, Rep (Describes e f) s.heap.cells (.root f) (s.heap.root f) (t f)
  wf : ∀ f, (t f).WF f.bits
  /-- No two nodes share an address, within a trie or between them. -/
  nodup : ∀ f, ((t f).nodes.map Entry.tag).Nodup
  disjoint : ∀ f g, f ≠ g → ∀ x ∈ (t f).nodes, ∀ y ∈ (t g).nodes, x.tag ≠ y.tag
  fresh : ∀ f, ∀ x ∈ (t f).nodes, x.tag < s.next
  /-- A peer's list holds its nodes. -/
  lists : ∀ p n, n ∈ s.lists p ↔ ∃ f q, Valued (t f).nodes n q p
  lists_nodup : ∀ p, (s.lists p).Nodup

theorem describes_copy (peer : Option P) {src : Bytes} {cidr : ℕ} (n : ℕ)
    (hsrc : src.length = f.bits / 8) :
    Describes e f (copyAndAssignCidr e f peer src cidr) ⟨n, hostBits e f src, cidr, peer⟩ := by
  have hcopy : src.take (f.bits / 8) = src := List.take_of_length_le hsrc.le
  constructor
  · rfl
  · rfl
  · rfl
  · rfl
  · rfl
  · rw [copyAndAssignCidr, hcopy, hsrc]
  · rw [copyAndAssignCidr, hcopy]

variable {key : Bytes}

theorem choose_eq {node : NodeData P} {x : Entry ℕ P} (h : Describes e f node x)
    (hkey : key.length = f.bits / 8) (hlt : x.len < f.bits) :
    choose node key = bitAt (hostBits e f key) x.len := by
  rw [choose, h.a, h.b, h.cidr]
  exact chooseBit_eq e f hkey hlt

theorem prefixMatches_iff {node : NodeData P} {x : Entry ℕ P} {key : Bytes}
    (h : Describes e f node x) :
    prefixMatches e f node key = true ↔ x.Matches (hostBits e f key) := by
  rw [prefixMatches, decide_eq_true_iff, commonBits_eq, h.cidr, h.key]
  rfl

/-! ## Bit addressing -/

/-- Bytes, words and network order name the same bits. A node sends a key to the side of bit
`cidr` of the address, and `common_bits` counts the bits that two addresses share. -/
theorem bit_addressing (e : Endian) (f : Family) (peer : Option P) (ip ip' : Address f) :
    (∀ (src : Bytes) (cidr : ℕ), cidr < f.bits →
      choose (copyAndAssignCidr e f peer src cidr) (swapEndian e f ip.bytes) =
        netBit ip.bytes cidr) ∧
    ∀ cidr, IsGreatest {n | n ≤ f.bits ∧ ∀ i < n, netBit ip.bytes i = netBit ip'.bytes i}
      (commonBits e f (copyAndAssignCidr e f peer (swapEndian e f ip.bytes) cidr).bits
        (swapEndian e f ip'.bytes)) := by
  have hwidth : ∀ a : Address f, 8 * a.bytes.length = f.bits := by
    intro a
    rw [a.length]
    cases f <;> rfl
  constructor
  · intro src cidr hcidr
    have hchoose := chooseBit_eq e f (length_swapEndian e f ip.bytes) hcidr
    rw [hostBits_swapEndian e f ip.length, bitAt_netBits_eq ((hwidth ip).symm ▸ hcidr)] at hchoose
    exact hchoose
  · intro cidr
    have hcopy := (describes_copy peer 0 (length_swapEndian e f ip.bytes) :
      Describes e f (copyAndAssignCidr e f peer (swapEndian e f ip.bytes) cidr) _).key
    have hlen : (netBits ip.bytes).length = f.bits := (length_netBits _).trans (hwidth ip)
    have hlen' : (netBits ip'.bytes).length = f.bits := (length_netBits _).trans (hwidth ip')
    have hgreatest := common_isGreatest (hlen.trans hlen'.symm)
    -- bit strings are compared at the positions of an address only
    have hset : {n | n ≤ f.bits ∧ ∀ i < n, netBit ip.bytes i = netBit ip'.bytes i} =
        {n | n ≤ (netBits ip.bytes).length ∧
          ∀ i < n, bitAt (netBits ip.bytes) i = bitAt (netBits ip'.bytes) i} := by
      ext n
      rw [Set.mem_ofPred_eq, Set.mem_ofPred_eq, hlen]
      refine and_congr_right fun hn => forall₂_congr fun i hi => ?_
      have hpos : i < f.bits := hi.trans_le hn
      rw [bitAt_netBits_eq ((hwidth ip).symm ▸ hpos), bitAt_netBits_eq ((hwidth ip').symm ▸ hpos)]
    rw [commonBits_eq, hcopy, hostBits_swapEndian e f ip.length,
      hostBits_swapEndian e f ip'.length, hset]
    exact hgreatest

/-- The third byte of `192.168.128.1` begins with a one; up to there it is `192.168.0.1`. -/
theorem bit_addressing_third_byte :
    choose (copyAndAssignCidr .little .v4 (none : Option Unit) [] 16)
        (swapEndian .little .v4 [192, 168, 128, 1]) = true ∧
      commonBits .little .v4
        (copyAndAssignCidr .little .v4 (none : Option Unit)
          (swapEndian .little .v4 [192, 168, 128, 1]) 24).bits
        (swapEndian .little .v4 [192, 168, 0, 1]) ≥ 16 := by
  obtain ⟨hchoose, hcommon⟩ := bit_addressing .little .v4 (none : Option Unit)
    ⟨[192, 168, 128, 1], rfl⟩ ⟨[192, 168, 0, 1], rfl⟩
  exact ⟨(hchoose [] 16 (by decide)).trans (by decide), (hcommon 24).2 ⟨by decide, by decide⟩⟩

variable {s : Table P} {t : Family → Tree ℕ P}

/-- The nodes of a trie differ in their addresses and in their prefixes. -/
theorem Inv.tag_eq_iff (hinv : Inv e s t) {x y : Entry ℕ P} (hy : y ∈ (t f).nodes)
    (hx : x ∈ (t f).nodes) : y.tag = x.tag ↔ y.pre = x.pre := by
  constructor
  · intro htag
    rw [List.inj_on_of_nodup_map (hinv.nodup f) hy hx htag]
  · intro hpre
    rw [List.inj_on_of_nodup_map (hinv.wf f).nodup_pre hy hx hpre]

/-- What is no part of the tries may change. -/
theorem Inv.congr {s' : Table P} (hinv : Inv e s t) (hroot : s'.heap.root = s.heap.root)
    (hcells : ∀ n < s.next, s'.heap.cells n = s.heap.cells n) (hlists : s'.lists = s.lists)
    (hnext : s.next ≤ s'.next) : Inv e s' t := by
  constructor
  · intro f
    rw [hroot]
    exact (hinv.rep f).congr fun x hx => hcells _ (hinv.fresh f x hx)
  · exact hinv.wf
  · exact hinv.nodup
  · exact hinv.disjoint
  · intro f x hx
    exact (hinv.fresh f x hx).trans_le hnext
  · rw [hlists]
    exact hinv.lists
  · rw [hlists]
    exact hinv.lists_nodup

/-! ## Lookup -/

/-- `find_node` returns the node whose value `find` returns, or what it was given. It has turns
left as long as prefixes can get longer. -/
theorem findNode_spec {heap : Heap Family (NodeData P)} (hkey : key.length = f.bits / 8)
    {t : Tree ℕ P} (hwf : t.WF f.bits) :
    ∀ {slot : Slot Family} {p : Option ℕ} {q : Bits} (turns : ℕ) (found : Option ℕ),
      Rep (Describes e f) heap.cells slot p t → t.Extends q → q.length ≤ f.bits →
      f.bits + 2 ≤ turns + q.length →
      ∃ r, findNode e f heap key turns p found = some r ∧
        ((t.find (hostBits e f key) = none ∧ r = found) ∨
          ∃ x ∈ t.nodes, r = some x.tag ∧ x.val ≠ none ∧ t.find (hostBits e f key) = x.val) := by
  have hlen := length_hostBits e f key
  induction hwf with
  | nil =>
    intro slot p q turns found hrep hext hq hturns
    obtain ⟨turns, rfl⟩ : ∃ m, turns = m + 1 := ⟨turns - 1, by omega⟩
    obtain rfl : p = none := hrep
    exact ⟨found, rfl, .inl ⟨rfl, rfl⟩⟩
  | @node x ch hkeylen hxlen sides full children ih =>
    intro slot p q turns found hrep hext hq hturns
    obtain ⟨turns, rfl⟩ : ∃ m, turns = m + 1 := ⟨turns - 1, by omega⟩
    rcases hrep with ⟨rfl, cell, hcell, hdesc, -, hchildren⟩
    have hroot : q <+: x.pre := hext x (mem_nodes_node.mpr (.inl rfl))
    have hpre : x.pre.length = x.len := length_pre (by omega)
    have hle := hroot.length_le
    have hmatch := @prefixMatches_iff _ e f cell.data x key hdesc
    rw [findNode, hcell, Option.bind_some, find, hdesc.cidr, hdesc.peer, hlen]
    by_cases hm : x.Matches (hostBits e f key)
    swap
    · rw [if_neg (fun h => hm (hmatch.mp h)), if_neg hm]
      exact ⟨found, rfl, .inl ⟨rfl, rfl⟩⟩
    rw [if_pos (hmatch.mpr hm), if_pos hm]
    dsimp only
    by_cases hfull : x.len = f.bits
    · -- no bits left
      rw [if_pos hfull, if_pos hfull]
      refine ⟨_, rfl, ?_⟩
      cases hval : x.val with
      | none => exact .inl ⟨rfl, rfl⟩
      | some v =>
        have hsome : x.val ≠ none := by
          rw [hval]
          exact Option.some_ne_none v
        exact .inr ⟨x, mem_nodes_node.mpr (.inl rfl), rfl, hsome, hval.symm⟩
    rw [if_neg hfull, if_neg hfull, choose_eq hdesc hkey (by omega)]
    obtain ⟨r, hfind, hr⟩ := ih (bitAt (hostBits e f key) x.len) turns
      (if x.val.isSome then some x.tag else found) (hchildren _) (sides _)
      (by rw [List.length_append, hpre]; exact Nat.lt_of_le_of_ne hxlen hfull)
      (by rw [List.length_append, hpre, List.length_singleton]; omega)
    refine ⟨r, hfind, ?_⟩
    rcases hr with ⟨hnone, rfl⟩ | ⟨y, hy, rfl, hyval, hyfind⟩
    · -- nothing below: the node itself, if it has a peer
      rw [hnone, Option.none_or]
      cases hval : x.val with
      | none => exact .inl ⟨rfl, rfl⟩
      | some v =>
        have hsome : x.val ≠ none := by
          rw [hval]
          exact Option.some_ne_none v
        exact .inr ⟨x, mem_nodes_node.mpr (.inl rfl), rfl, hsome, hval.symm⟩
    · refine .inr ⟨y, mem_nodes_node.mpr (.inr ⟨_, hy⟩), rfl, hyval, ?_⟩
      rw [hyfind]
      cases hv : y.val with
      | none => exact absurd hv hyval
      | some v => rfl

/-- Lookup is longest prefix match. -/
theorem lookup_eq (hinv : Inv e s t) {m : Bits → Option P} (hm : (t f).Represents m)
    (ip : Address f) : lookup e s f ip.bytes = some (lpm m (netBits ip.bytes)) := by
  have hbits := hostBits_swapEndian e f ip.length
  obtain ⟨r, hfind, hr⟩ := findNode_spec (length_swapEndian e f ip.bytes) (hinv.wf f) (f.bits + 2) none
    (hinv.rep f) (fun _ _ => List.nil_prefix) (Nat.zero_le _) (Nat.le_refl _)
  rw [hbits, find_eq_lpm (hinv.wf f) hm (by rw [← hbits, length_hostBits])] at hr
  rw [lookup, hfind, Option.bind_some]
  rcases hr with ⟨hnone, rfl⟩ | ⟨x, hx, rfl, hval, hlpm⟩
  · rw [hnone]
  · obtain ⟨c, hc, hdesc⟩ := (hinv.rep f).cell x hx
    obtain ⟨v, hv⟩ := Option.ne_none_iff_exists'.mp hval
    show (s.heap.cells x.tag).bind _ = _
    rw [hc, Option.bind_some, hdesc.peer, hlpm, hv, Option.map_some]

/-! ## Placement -/

/-- The last node of a context. -/
def top : Ctx ℕ P → Option ℕ
  | [] => none
  | fr :: _ => some fr.e.tag

/-- What `node_placement` says about a place. -/
def placeOf (k : Bits) (n : ℕ) (c : Ctx ℕ P) : Tree ℕ P → Option ℕ × Bool
  | .nil => (top c, false)
  | .node x _ => if Exact k n x then (some x.tag, true) else (top c, false)

theorem nodePlacement_spec {heap : Heap Family (NodeData P)} (hkey : key.length = f.bits / 8)
    {n : ℕ} (hn : n ≤ f.bits) {t : Tree ℕ P} (hwf : t.WF f.bits) :
    ∀ {slot : Slot Family} {p : Option ℕ} {q : Bits} (turns : ℕ) (c : Ctx ℕ P),
      Rep (Describes e f) heap.cells slot p t → t.Extends q → q.length ≤ f.bits →
      f.bits + 2 ≤ turns + q.length →
      nodePlacement e f heap key n turns p (top c) =
        some (placeOf (hostBits e f key) n (locate (hostBits e f key) n t c).1
          (locate (hostBits e f key) n t c).2) := by
  induction hwf with
  | nil =>
    intro slot p q turns c hrep hext hq hturns
    obtain ⟨turns, rfl⟩ : ∃ m, turns = m + 1 := ⟨turns - 1, by omega⟩
    obtain rfl : p = none := hrep
    rfl
  | @node x ch hkeylen hxlen sides full children ih =>
    intro slot p q turns c hrep hext hq hturns
    obtain ⟨turns, rfl⟩ : ∃ m, turns = m + 1 := ⟨turns - 1, by omega⟩
    rcases hrep with ⟨rfl, cell, hcell, hdesc, -, hchildren⟩
    have hroot : q <+: x.pre := hext x (mem_nodes_node.mpr (.inl rfl))
    have hpre : x.pre.length = x.len := length_pre (by omega)
    have hle := hroot.length_le
    rw [nodePlacement, hcell, Option.bind_some, locate, hdesc.cidr]
    simp only [prefixMatches_iff hdesc]
    by_cases hgo : x.len < n ∧ x.Matches (hostBits e f key)
    · -- down to the side of the key
      rw [if_pos ⟨hgo.1.le, hgo.2⟩, if_neg (Nat.ne_of_lt hgo.1), if_pos hgo,
        choose_eq hdesc hkey (by omega)]
      refine ih _ turns (⟨x, _, _⟩ :: c) (hchildren _) (sides _) ?_ ?_
      · rw [List.length_append, hpre, List.length_singleton]
        omega
      · rw [List.length_append, hpre, List.length_singleton]
        omega
    rw [if_neg hgo, placeOf]
    by_cases hexact : Exact (hostBits e f key) n x
    · rw [if_pos ⟨hexact.2.le, hexact.1⟩, if_pos hexact.2, if_pos hexact]
    · rw [if_neg hexact, if_neg ?_]
      rintro ⟨hlen, hmatch⟩
      rcases Nat.lt_or_eq_of_le hlen with hlt | heq
      · exact hgo ⟨hlt, hmatch⟩
      · exact hexact ⟨hmatch, heq⟩

/-- `node_placement` finds the place of a prefix. -/
theorem Inv.located (hinv : Inv e s t) (hkey : key.length = f.bits / 8) {n : ℕ} (hn : n ≤ f.bits) :
    ∃ c d, plug c d = t f ∧ Located (hostBits e f key) n c d ∧
      nodePlacement e f s.heap key n (f.bits + 2) (s.heap.root f) none =
        some (placeOf (hostBits e f key) n c d) := by
  refine ⟨_, _, plug_locate (hostBits e f key) n (t f) [], ?_, ?_⟩
  · exact locate_located (length_hostBits e f key) hn (c := []) (hinv.wf f) List.nil_prefix
      fun x hx => nomatch hx
  · exact nodePlacement_spec hkey hn (hinv.wf f) (f.bits + 2) [] (hinv.rep f)
      (fun _ _ => List.nil_prefix) (Nat.zero_le _) (Nat.le_refl _)

/-- Without a node at its place, a prefix has none. -/
theorem Inv.absent (hinv : Inv e s t) {k : Bits} (hk : k.length = f.bits) {n : ℕ} (hn : n ≤ f.bits)
    {c : Ctx ℕ P} {d : Tree ℕ P} (hplug : plug c d = t f) (hloc : Located k n c d)
    (hexact : ∀ x ch, d = .node x ch → ¬ Exact k n x) : ∀ y ∈ (t f).nodes, y.pre ≠ k.take n := by
  have hwf := hinv.wf f
  rw [← hplug] at hwf ⊢
  intro y hy
  rcases mem_plug.mp hy with hy | hy
  · exact hloc.fresh y hy
  · cases d with
    | nil => cases hy
    | node x ch =>
      exact fresh_of_not_exact (wf_plug.mp hwf).2.1 hk hn (hloc.stop x ch rfl) (hexact x ch rfl) y hy

/-- An empty trie has no root. -/
theorem Inv.root_isNone (hinv : Inv e s t) (f : Family) : s.heap.root f = none ↔ t f = .nil := by
  rw [← isNil_iff, (hinv.rep f).isNil, Option.isNone_iff_eq_none]

/-! ## Places -/

/-- A trie taken apart: a context, and the tree in its hole. -/
structure Place (e : Endian) (f : Family) (h : Heap Family (NodeData P)) (next : ℕ) (c : Ctx ℕ P)
    (d : Tree ℕ P) : Prop where
  wf : (plug c d).WF f.bits
  ctx : RepCtx (Describes e f) h f c
  tree : Rep (Describes e f) h.cells (hole f c) (h.load (hole f c)) d
  ctx_nodup : ((ctxNodes c).map Entry.tag).Nodup
  tree_nodup : (d.nodes.map Entry.tag).Nodup
  disjoint : ∀ x ∈ d.nodes, x.tag ∉ (ctxNodes c).map Entry.tag
  ctx_fresh : ∀ x ∈ ctxNodes c, x.tag < next
  tree_fresh : ∀ x ∈ d.nodes, x.tag < next

theorem Inv.place (hinv : Inv e s t) {c : Ctx ℕ P} {d : Tree ℕ P} (hplug : plug c d = t f) :
    Place e f s.heap s.next c d := by
  have hwf := hinv.wf f
  have hrep := hinv.rep f
  have hnodup := hinv.nodup f
  have hfresh := hinv.fresh f
  rw [← hplug] at hwf hrep hnodup hfresh
  rw [((nodes_plug c d).map _).nodup_iff, List.map_append, List.nodup_append] at hnodup
  rw [rep_plug] at hrep
  constructor
  · exact hwf
  · exact hrep.1
  · exact hrep.2
  · exact hnodup.1
  · exact hnodup.2.1
  · intro x hx hmem
    exact hnodup.2.2 _ hmem _ (List.mem_map_of_mem hx) rfl
  · intro x hx
    exact hfresh x (mem_plug.mpr (.inl hx))
  · intro x hx
    exact hfresh x (mem_plug.mpr (.inr hx))

/-- Another peer, or none, for the node at a place. -/
theorem Place.setPeer {h : Heap Family (NodeData P)} {next : ℕ} {c : Ctx ℕ P} {x : Entry ℕ P}
    {ch : Bool → Tree ℕ P} (hp : Place e f h next c (.node x ch)) (v : Option P) :
    ∃ h', h.write x.tag (AllowedIps.setPeer v) = some h' ∧
      RepCtx (Describes e f) h' f c ∧
      Rep (Describes e f) h'.cells (hole f c) (h'.load (hole f c)) (.node { x with val := v } ch) ∧
      (∀ n, n ≠ x.tag → h'.cells n = h.cells n) ∧ h'.root = h.root := by
  rcases hp.tree with ⟨hload, cell, hcell, hdesc, hparent, hchildren⟩
  have hctx : ∀ y ∈ ctxNodes c, y.tag ≠ x.tag := by
    intro y hy heq
    exact hp.disjoint x (mem_nodes_node.mpr (.inl rfl)) (heq ▸ List.mem_map_of_mem hy)
  have hbelow : ∀ b, ∀ y ∈ (ch b).nodes, y.tag ≠ x.tag := fun b y hy => tag_ne_of_nodup hp.tree_nodup hy
  refine ⟨_, Heap.write_eq hcell _, ?_, ?_, fun n hn => Heap.set_other _ _ hn, rfl⟩
  · exact hp.ctx.congr rfl fun y hy => Heap.set_other _ _ (hctx y hy)
  · refine ⟨?_, _, Heap.set_same .., ?_, hparent, ?_⟩
    · rw [← hload]
      apply load_hole_congr
      · rfl
      · intro y hy
        exact Heap.set_other _ _ (hctx y hy)
    · exact ⟨rfl, hdesc.cidr, hdesc.a, hdesc.b, hdesc.bitlen, hdesc.length, hdesc.key⟩
    · intro b
      exact (hchildren b).congr fun y hy => Heap.set_other _ _ (hbelow b y hy)

/-- The trie of a family was changed between two heaps, at a place. -/
structure Replaced (e : Endian) (f : Family) (next : ℕ) (old : Tree ℕ P)
    (h h' : Heap Family (NodeData P)) (new : Tree ℕ P) : Prop where
  rep : Rep (Describes e f) h'.cells (.root f) (h'.root f) new
  /-- Nodes of other tries stay as they are. -/
  cells : ∀ n < next, n ∉ old.nodes.map Entry.tag → h'.cells n = h.cells n
  root : ∀ g ≠ f, h'.root g = h.root g

/-- The invariant after a change of one trie. -/
theorem Inv.replace {s' : Table P} (hinv : Inv e s t) {t' : Tree ℕ P}
    (hrep : Replaced e f s.next (t f) s.heap s'.heap t') (hwf : t'.WF f.bits)
    (hnodup : (t'.nodes.map Entry.tag).Nodup)
    (htags : ∀ x ∈ t'.nodes, x.tag ∈ (t f).nodes.map Entry.tag ∨ s.next ≤ x.tag)
    (hfresh : ∀ x ∈ t'.nodes, x.tag < s'.next) (hnext : s.next ≤ s'.next)
    (hlists : ∀ p n, n ∈ s'.lists p ↔
      (∃ q, Valued t'.nodes n q p) ∨ ∃ g, g ≠ f ∧ ∃ q, Valued (t g).nodes n q p)
    (hlists_nodup : ∀ p, (s'.lists p).Nodup) : Inv e s' (Function.update t f t') := by
  -- a node of another trie is none of the new one
  have hother : ∀ g, g ≠ f → ∀ x ∈ (t g).nodes, ∀ y ∈ t'.nodes, x.tag ≠ y.tag := by
    intro g hg x hx y hy heq
    rcases htags y hy with hmem | hge
    · rcases List.mem_map.mp hmem with ⟨z, hz, hzy⟩
      exact hinv.disjoint g f hg x hx z hz (heq.trans hzy.symm)
    · have := hinv.fresh g x hx
      omega
  constructor
  · intro g
    by_cases hg : g = f
    · subst hg
      rw [Function.update_self]
      exact hrep.rep
    · rw [Function.update_of_ne hg, hrep.root g hg]
      refine (hinv.rep g).congr fun x hx => hrep.cells _ (hinv.fresh g x hx) ?_
      intro hmem
      rcases List.mem_map.mp hmem with ⟨z, hz, hzx⟩
      exact hinv.disjoint g f hg x hx z hz hzx.symm
  · intro g
    by_cases hg : g = f
    · subst hg
      rw [Function.update_self]
      exact hwf
    · rw [Function.update_of_ne hg]
      exact hinv.wf g
  · intro g
    by_cases hg : g = f
    · subst hg
      rw [Function.update_self]
      exact hnodup
    · rw [Function.update_of_ne hg]
      exact hinv.nodup g
  · intro g g' hne x hx y hy
    by_cases hg : g = f
    · subst hg
      rw [Function.update_self] at hx
      rw [Function.update_of_ne hne.symm] at hy
      exact (hother g' hne.symm y hy x hx).symm
    · rw [Function.update_of_ne hg] at hx
      by_cases hg' : g' = f
      · subst hg'
        rw [Function.update_self] at hy
        exact hother g hg x hx y hy
      · rw [Function.update_of_ne hg'] at hy
        exact hinv.disjoint g g' hne x hx y hy
  · intro g x hx
    by_cases hg : g = f
    · subst hg
      rw [Function.update_self] at hx
      exact hfresh x hx
    · rw [Function.update_of_ne hg] at hx
      exact (hinv.fresh g x hx).trans_le hnext
  · intro p n
    rw [hlists]
    constructor
    · rintro (⟨q, hq⟩ | ⟨g, hg, q, hq⟩)
      · exact ⟨f, q, by rwa [Function.update_self]⟩
      · exact ⟨g, q, by rwa [Function.update_of_ne hg]⟩
    · rintro ⟨g, q, hq⟩
      by_cases hg : g = f
      · subst hg
        rw [Function.update_self] at hq
        exact .inl ⟨q, hq⟩
      · rw [Function.update_of_ne hg] at hq
        exact .inr ⟨g, hg, q, hq⟩
  · exact hlists_nodup

end AmneziaWg.AllowedIps
