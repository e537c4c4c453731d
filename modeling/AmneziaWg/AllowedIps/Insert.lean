import AmneziaWg.AllowedIps.Shape

/-!
# Insertion

`add` puts a prefix where the tree has its place: below the last node on the way, in front
of what is there, or beside it below a new node without a peer.

* **Heap**: what the connections of `add` leave, case by case.
* **Step**: `add_spec`.
-/

namespace AmneziaWg.AllowedIps

open Linux PrefixTree PrefixTree.Tree TreeHeap

variable {P : Type} {e : Endian} {f : Family}

section Heap

variable {h h' : Heap Family (NodeData P)} {next next' : ℕ} {c : Ctx ℕ P} {d : Tree ℕ P}
  {key : Bytes} {n : ℕ}

/-! ## Heap -/

/-- Cells outside of a place may change. -/
theorem Place.congr (hp : Place e f h next c d) (hroot : h'.root f = h.root f)
    (hcells : ∀ m < next, h'.cells m = h.cells m) (hnext : next ≤ next') :
    Place e f h' next' c d := by
  have hctx : ∀ x ∈ ctxNodes c, h'.cells x.tag = h.cells x.tag := fun x hx =>
    hcells _ (hp.ctx_fresh x hx)
  constructor
  · exact hp.wf
  · exact hp.ctx.congr hroot hctx
  · rw [load_hole_congr hroot hctx]
    exact hp.tree.congr fun x hx => hcells _ (hp.tree_fresh x hx)
  · exact hp.ctx_nodup
  · exact hp.tree_nodup
  · exact hp.disjoint
  · intro x hx
    exact (hp.ctx_fresh x hx).trans_le hnext
  · intro x hx
    exact (hp.tree_fresh x hx).trans_le hnext

theorem Place.alloc (hp : Place e f h next c d) (data : NodeData P) :
    Place e f (h.set next (some (freshCell f data))) (next + 1) c d :=
  hp.congr rfl (fun _ hm => Heap.set_other _ _ (Nat.ne_of_lt hm)) (Nat.le_succ next)

variable {m : ℕ}

theorem Place.not_mem (hp : Place e f h next c d) (hm : next ≤ m) :
    m ∉ (ctxNodes c).map Entry.tag := by
  intro hmem
  rcases List.mem_map.mp hmem with ⟨x, hx, rfl⟩
  have := hp.ctx_fresh x hx
  omega

/-- The node above a hole chooses the hole for a key that belongs there. -/
theorem choose_side {fr : Frame ℕ P} {node : NodeData P} (hwf : CtxWF f.bits (fr :: c))
    (hdesc : Describes e f node fr.e) (hkey : key.length = f.bits / 8)
    (hbound : bound (fr :: c) <+: hostBits e f key) : choose node key = fr.side := by
  have hfr := hwf.1
  have hlen : fr.e.pre.length = fr.e.len := length_pre (by rw [hfr.key]; exact hfr.len)
  have hlt := hbound.length_le
  rw [bound, List.length_append, hlen, length_hostBits, List.length_singleton] at hlt
  rw [choose_eq hdesc hkey hlt, ← hlen]
  exact bitAt_of_snoc hbound

/-- `connect_node` at the place, whatever is above it. -/
theorem connectTop_eq (hwf : CtxWF f.bits c) (hctx : RepCtx (Describes e f) h f c)
    {cell : Cell Family (NodeData P)} {y : Entry ℕ P} (hcell : h.cells m = some cell)
    (hdesc : Describes e f cell.data y) (hbound : bound c <+: y.key) :
    connectTop h f (top c) m = h.connect (hole f c) m := by
  cases c with
  | nil => rfl
  | cons fr c =>
    rcases hctx with ⟨⟨parent, hparent, hpdesc, -⟩, -⟩
    rw [← hdesc.key] at hbound
    show chooseAndConnectNode h fr.e.tag m = _
    rw [chooseAndConnectNode, hparent, hcell]
    show h.connect (.child fr.e.tag (choose parent.data cell.data.bits)) m = _
    rw [choose_side hwf hpdesc hdesc.length hbound]
    rfl

/-- A new leaf below the last node on the way, or as the first node of a trie. -/
theorem insert_leaf (hp : Place e f h next c .nil) (peer : P) (hkey : key.length = f.bits / 8) :
    ∃ h', (h.set next (some (freshCell f (copyAndAssignCidr e f (some peer) key n)))).connect
        (hole f c) next = some h' ∧
      Replaced e f next (plug c .nil) h h'
        (plug c (leaf ⟨next, hostBits e f key, n, some peer⟩)) := by
  have hctx := (hp.alloc (copyAndAssignCidr e f (some peer) key n)).ctx
  obtain ⟨h', hconnect, hrep, hcells, hroot⟩ := hctx.attach (y := ⟨next, hostBits e f key, n, some peer⟩)
    (t := fun _ => .nil) hp.ctx_nodup (Heap.set_same ..) (describes_copy (some peer) next hkey)
    (hp.not_mem (Nat.le_refl next)) (fun _ => rfl) (fun _ _ hx => nomatch hx)
  refine ⟨h', hconnect, hrep, ?_, hroot⟩
  intro m hm hmem
  rw [hcells m (Nat.ne_of_lt hm) ?_, Heap.set_other _ _ (Nat.ne_of_lt hm)]
  intro hctx
  rcases List.mem_map.mp hctx with ⟨x, hx, rfl⟩
  exact hmem (List.mem_map_of_mem (mem_plug.mpr (.inl hx)))

section Above

variable {x : Entry ℕ P} {ch : Bool → Tree ℕ P}

/-- The nodes in the hole of a place, apart from the context and from fresh nodes. -/
theorem Place.apart (hp : Place e f h next c (.node x ch)) (hm : next ≤ m) :
    ∀ y ∈ (PrefixTree.Tree.node x ch).nodes, y.tag ≠ m ∧ y.tag ∉ (ctxNodes c).map Entry.tag := by
  intro y hy
  refine ⟨?_, hp.disjoint y hy⟩
  have := hp.tree_fresh y hy
  omega

theorem Place.not_in_plug (hmem : m ∉ (plug c (.node x ch)).nodes.map Entry.tag) :
    m ∉ (ctxNodes c).map Entry.tag ∧ m ≠ x.tag := by
  constructor
  · intro hctx
    rcases List.mem_map.mp hctx with ⟨y, hy, rfl⟩
    exact hmem (List.mem_map_of_mem (mem_plug.mpr (.inl hy)))
  · rintro rfl
    exact hmem (List.mem_map_of_mem (mem_plug.mpr (.inr (mem_nodes_node.mpr (.inl rfl)))))

/-- A new node in front of what is at the place. -/
theorem insert_above (hp : Place e f h next c (.node x ch)) (peer : P)
    (hkey : key.length = f.bits / 8) (hbound : bound c <+: hostBits e f key) (hlt : n < x.len) :
    ∃ h₁ h₂, chooseAndConnectNode
        (h.set next (some (freshCell f (copyAndAssignCidr e f (some peer) key n)))) next x.tag =
          some h₁ ∧
      connectTop h₁ f (top c) next = some h₂ ∧
      Replaced e f next (plug c (.node x ch)) h h₂
        (plug c (Frame.fill ⟨⟨next, hostBits e f key, n, some peer⟩, bitAt x.key n, .nil⟩
          (.node x ch))) := by
  have hplace := hp.alloc (copyAndAssignCidr e f (some peer) key n)
  obtain ⟨hctxwf, htree, -, -⟩ := wf_plug.mp hp.wf
  obtain ⟨hxkey, hxlen⟩ := htree.len_le x (mem_nodes_node.mpr (.inl rfl))
  generalize hnew : copyAndAssignCidr e f (some peer) key n = data at hplace ⊢
  have hdesc : Describes e f data ⟨next, hostBits e f key, n, some peer⟩ :=
    hnew ▸ describes_copy (some peer) next hkey
  have hcell := Heap.set_same h next (some (freshCell f data))
  obtain ⟨xcell, hxcell, hxdesc⟩ := hplace.tree.cell x (mem_nodes_node.mpr (.inl rfl))
  -- `down` goes below the new node
  obtain ⟨h₁, hbelow, hnewcell, hdown, hsame, hroot⟩ := hplace.tree.below hp.tree_nodup hcell
    (fun y hy => (hp.apart (Nat.le_refl next) y hy).1) (bitAt x.key n)
  have hchoose : chooseAndConnectNode (h.set next (some (freshCell f data))) next x.tag = some h₁ := by
    rw [chooseAndConnectNode, hcell, hxcell]
    show Heap.connect _ (.child next (choose data xcell.data.bits)) x.tag = _
    rw [choose_eq hdesc hxdesc.length (hlt.trans_le hxlen), hxdesc.key]
    exact hbelow
  have hctx : RepCtx (Describes e f) h₁ f c := by
    refine hplace.ctx.congr (by rw [hroot]) fun y hy => hsame _ ?_ ?_
    · have := hp.ctx_fresh y hy
      omega
    · intro heq
      exact hp.disjoint x (mem_nodes_node.mpr (.inl rfl)) (heq ▸ List.mem_map_of_mem hy)
  -- and the new node goes where `down` was
  have hchildren : ∀ b, Rep (Describes e f) h₁.cells (.child next b)
      (Function.update (fun _ => none) (bitAt x.key n) (some x.tag) b)
      (if b = bitAt x.key n then .node x ch else .nil) := by
    intro b
    by_cases hb : b = bitAt x.key n
    · rw [hb, Function.update_self, if_pos rfl]
      exact hdown
    · rw [Function.update_of_ne hb, if_neg hb]
      rfl
  obtain ⟨h₂, hconnect, hrep, hcells, hroots⟩ :=
    hctx.attach (y := ⟨next, hostBits e f key, n, some peer⟩) hp.ctx_nodup hnewcell hdesc
      (hp.not_mem (Nat.le_refl next)) hchildren (by
        intro b y hy
        by_cases hb : b = bitAt x.key n
        · rw [if_pos hb] at hy
          exact hp.apart (Nat.le_refl next) y hy
        · rw [if_neg hb] at hy
          cases hy)
  refine ⟨h₁, h₂, hchoose, ?_, hrep, ?_, ?_⟩
  · rw [connectTop_eq hctxwf hctx hnewcell hdesc hbound, hconnect]
  · intro m hm hmem
    obtain ⟨hmctx, hmx⟩ := Place.not_in_plug hmem
    rw [hcells m (Nat.ne_of_lt hm) hmctx, hsame m (Nat.ne_of_lt hm) hmx,
      Heap.set_other _ _ (Nat.ne_of_lt hm)]
  · intro g hg
    rw [hroots g hg, hroot]
    rfl

/-- A node without a peer that joins a new node and what is at the place: `m` bits are shared. -/
theorem insert_fork (hp : Place e f h next c (.node x ch)) (peer : P)
    (hkey : key.length = f.bits / 8) (hbound : bound c <+: hostBits e f key) (hlt : m < x.len)
    (hside : bitAt (hostBits e f key) m = !bitAt x.key m) :
    ∃ h₁ h₂ h₃, chooseAndConnectNode
        ((h.set next (some (freshCell f (copyAndAssignCidr e f (some peer) key n)))).set (next + 1)
          (some (freshCell f (copyAndAssignCidr e f none key m)))) (next + 1) x.tag = some h₁ ∧
      chooseAndConnectNode h₁ (next + 1) next = some h₂ ∧
      connectTop h₂ f (top c) (next + 1) = some h₃ ∧
      Replaced e f next (plug c (.node x ch)) h h₃
        (plug c (Frame.fill ⟨⟨next + 1, hostBits e f key, m, none⟩, bitAt x.key m,
          leaf ⟨next, hostBits e f key, n, some peer⟩⟩ (.node x ch))) := by
  have hplace := (hp.alloc (copyAndAssignCidr e f (some peer) key n)).alloc
    (copyAndAssignCidr e f none key m)
  obtain ⟨hctxwf, htree, -, -⟩ := wf_plug.mp hp.wf
  obtain ⟨hxkey, hxlen⟩ := htree.len_le x (mem_nodes_node.mpr (.inl rfl))
  generalize hnew : copyAndAssignCidr e f (some peer) key n = data at hplace ⊢
  generalize hjoin : copyAndAssignCidr e f none key m = join at hplace ⊢
  have hdesc : Describes e f data ⟨next, hostBits e f key, n, some peer⟩ :=
    hnew ▸ describes_copy (some peer) next hkey
  have hjdesc : Describes e f join ⟨next + 1, hostBits e f key, m, none⟩ :=
    hjoin ▸ describes_copy none (next + 1) hkey
  have hjcell := Heap.set_same (h.set next (some (freshCell f data))) (next + 1) (some (freshCell f join))
  have hncell : ((h.set next (some (freshCell f data))).set (next + 1) (some (freshCell f join))).cells next =
      some (freshCell f data) := by
    rw [Heap.set_other _ _ (Nat.ne_of_lt (Nat.lt_succ_self next)), Heap.set_same]
  obtain ⟨xcell, hxcell, hxdesc⟩ := hplace.tree.cell x (mem_nodes_node.mpr (.inl rfl))
  -- `down` goes to the side of its next bit
  obtain ⟨h₁, hbelow, hjcell₁, hdown, hsame, hroot⟩ := hplace.tree.below hp.tree_nodup hjcell
    (fun y hy => (hp.apart (Nat.le_succ next) y hy).1) (bitAt x.key m)
  have hxnext : x.tag ≠ next := (hp.apart (Nat.le_refl next) x (mem_nodes_node.mpr (.inl rfl))).1
  have hncell₁ : h₁.cells next = some (freshCell f data) := by
    rw [hsame next (Nat.ne_of_lt (Nat.lt_succ_self next)) hxnext.symm, hncell]
  -- the new node to the other one
  have hleaf : Rep (Describes e f) h₁.cells (.root f) (some next)
      (leaf ⟨next, hostBits e f key, n, some peer⟩) :=
    ⟨rfl, _, hncell₁, hdesc, rfl, fun _ => rfl⟩
  obtain ⟨h₂, hbeside, hjcell₂, hnewleaf, hsame₂, hroot₂⟩ := hleaf.below (m := next + 1)
    (by simp [Tree.nodes]) hjcell₁ (by
      intro y hy
      rw [← leaf, nodes_leaf, List.mem_singleton] at hy
      subst hy
      exact Nat.ne_of_lt (Nat.lt_succ_self next)) (!bitAt x.key m)
  have hchoose : chooseAndConnectNode ((h.set next (some (freshCell f data))).set (next + 1)
      (some (freshCell f join))) (next + 1) x.tag = some h₁ := by
    rw [chooseAndConnectNode, hjcell, hxcell]
    show Heap.connect _ (.child (next + 1) (choose join xcell.data.bits)) x.tag = _
    rw [choose_eq hjdesc hxdesc.length (hlt.trans_le hxlen), hxdesc.key]
    exact hbelow
  have hchoose₂ : chooseAndConnectNode h₁ (next + 1) next = some h₂ := by
    rw [chooseAndConnectNode, hjcell₁, hncell₁]
    show Heap.connect _ (.child (next + 1) (choose join data.bits)) next = _
    rw [choose_eq hjdesc hdesc.length (hlt.trans_le hxlen), hdesc.key, hside]
    exact hbeside
  -- other nodes do not change
  have hkeep : ∀ i, i < next → i ≠ x.tag → h₂.cells i = h.cells i := by
    intro i hi hix
    rw [hsame₂ i (by omega) (Nat.ne_of_lt hi), hsame i (by omega) hix,
      Heap.set_other _ _ (by omega), Heap.set_other _ _ (Nat.ne_of_lt hi)]
  have hctx : RepCtx (Describes e f) h₂ f c := by
    refine hp.ctx.congr (by rw [hroot₂, hroot]; rfl) fun y hy => hkeep _ (hp.ctx_fresh y hy) ?_
    intro heq
    exact hp.disjoint x (mem_nodes_node.mpr (.inl rfl)) (heq ▸ List.mem_map_of_mem hy)
  have hdown₂ : Rep (Describes e f) h₂.cells (.child (next + 1) (bitAt x.key m)) (some x.tag)
      (.node x ch) :=
    hdown.congr fun y hy => hsame₂ _ (hp.apart (Nat.le_succ next) y hy).1
      (hp.apart (Nat.le_refl next) y hy).1
  have hchildren : ∀ b, Rep (Describes e f) h₂.cells (.child (next + 1) b)
      (Function.update (Function.update (fun _ => none) (bitAt x.key m) (some x.tag))
        (!bitAt x.key m) (some next) b)
      (if b = bitAt x.key m then .node x ch else leaf ⟨next, hostBits e f key, n, some peer⟩) := by
    intro b
    by_cases hb : b = bitAt x.key m
    · have hne : b ≠ !bitAt x.key m := by
        rw [hb]
        cases bitAt x.key m <;> decide
      rw [Function.update_of_ne hne, if_pos hb, hb, Function.update_self]
      exact hdown₂
    · rw [if_neg hb, Bool.eq_not_of_ne hb, Function.update_self]
      exact hnewleaf
  obtain ⟨h₃, hconnect, hrep, hcells, hroots⟩ :=
    hctx.attach (y := ⟨next + 1, hostBits e f key, m, none⟩) hp.ctx_nodup hjcell₂ hjdesc
      (hp.not_mem (Nat.le_succ next)) hchildren (by
        intro b y hy
        by_cases hb : b = bitAt x.key m
        · rw [if_pos hb] at hy
          exact hp.apart (Nat.le_succ next) y hy
        · rw [if_neg hb, nodes_leaf, List.mem_singleton] at hy
          subst hy
          exact ⟨Nat.ne_of_lt (Nat.lt_succ_self next), hp.not_mem (Nat.le_refl next)⟩)
  refine ⟨h₁, h₂, h₃, hchoose, hchoose₂, ?_, hrep, ?_, ?_⟩
  · rw [connectTop_eq hctxwf hctx hjcell₂ hjdesc hbound, hconnect]
  · intro i hi hmem
    obtain ⟨hictx, hix⟩ := Place.not_in_plug hmem
    rw [hcells i (Nat.ne_of_lt (Nat.lt_succ_of_lt hi)) hictx, hkeep i hi hix]
  · intro g hg
    rw [hroots g hg, hroot₂, hroot]
    rfl

end Above

end Heap

/-! ## Lists -/

variable {lists : P → List ℕ} {n : ℕ}

theorem mem_listDel (hnodup : ∀ p, (lists p).Nodup) {i : ℕ} {p : P} :
    i ∈ listDel n lists p ↔ i ∈ lists p ∧ i ≠ n := by
  rw [listDel, (hnodup p).mem_erase_iff, and_comm]

theorem listDel_of_not_mem (h : ∀ p, n ∉ lists p) : listDel n lists = lists := by
  funext p
  exact List.erase_of_not_mem (h p)

theorem mem_listMoveTail [DecidableEq P] (hnodup : ∀ p, (lists p).Nodup) {peer p : P} {i : ℕ} :
    i ∈ listMoveTail peer n lists p ↔ (i ∈ lists p ∧ i ≠ n) ∨ (p = peer ∧ i = n) := by
  rw [listMoveTail, listAddTail]
  by_cases hp : p = peer
  · subst hp
    rw [Function.update_self, List.mem_append, mem_listDel hnodup, List.mem_singleton]
    simp
  · rw [Function.update_of_ne hp, mem_listDel hnodup]
    simp [hp]

theorem nodup_listMoveTail [DecidableEq P] (hnodup : ∀ p, (lists p).Nodup) (peer : P) (n : ℕ)
    (p : P) : (listMoveTail peer n lists p).Nodup := by
  rw [listMoveTail, listAddTail]
  by_cases hp : p = peer
  · subst hp
    rw [Function.update_self, List.nodup_append]
    refine ⟨(hnodup p).erase n, by simp, ?_⟩
    intro i hi j hj heq
    rw [List.mem_singleton] at hj
    exact ((mem_listDel hnodup).mp hi).2 (heq.trans hj)
  · rw [Function.update_of_ne hp]
    exact (hnodup p).erase n

/-- Taking a node off again, after it was added. -/
theorem listDel_listAddTail [DecidableEq P] (h : ∀ p, n ∉ lists p) (peer : P) :
    listDel n (listAddTail peer n lists) = lists := by
  funext p
  rw [listDel, listAddTail]
  by_cases hp : p = peer
  · subst hp
    rw [Function.update_self, List.erase_append_right _ (h p)]
    simp
  · rw [Function.update_of_ne hp]
    exact List.erase_of_not_mem (h p)

/-! ## Step -/

section Step

variable {s s' : Table P} {t : Family → Tree ℕ P} {key : Bytes} {cidr : ℕ} {peer : P}

variable {c : Ctx ℕ P} {d : Tree ℕ P}

/-- The node of a prefix is the one at its place. -/
theorem tag_eq_placeTag_iff (hinv : Inv e s t) (hcidr : cidr ≤ f.bits) (hplug : plug c d = t f)
    (hloc : Located (hostBits e f key) cidr c d) :
    ∀ y ∈ (t f).nodes, y.tag = placeTag (hostBits e f key) cidr s.next d ↔
      y.pre = (hostBits e f key).take cidr := by
  have hk := length_hostBits e f key
  -- without a node for the prefix, both sides are false
  have hnew : (∀ x ch, d = .node x ch → ¬ Exact (hostBits e f key) cidr x) →
      ∀ y ∈ (t f).nodes, y.tag = s.next ↔ y.pre = (hostBits e f key).take cidr := by
    intro hexact y hy
    have hlt := hinv.fresh f y hy
    exact iff_of_false (by omega) (hinv.absent hk hcidr hplug hloc hexact y hy)
  cases d with
  | nil => exact hnew fun x ch h => nomatch h
  | node x ch =>
    have hx : x ∈ (t f).nodes := by
      rw [← hplug]
      exact mem_plug.mpr (.inr (mem_nodes_node.mpr (.inl rfl)))
    by_cases hexact : Exact (hostBits e f key) cidr x
    · obtain ⟨hxkey, hxlen⟩ := (hinv.wf f).len_le x hx
      intro y hy
      rw [placeTag, if_pos hexact, ← pre_of_exact (by omega) hexact]
      exact hinv.tag_eq_iff hy hx
    · rw [placeTag, if_neg hexact]
      refine hnew ?_
      intro y ch' heq
      cases heq
      exact hexact

/-- No node of the other trie is at the place. -/
theorem ne_placeTag (hinv : Inv e s t) (hplug : plug c d = t f) (k : Bits) {g : Family}
    (hg : g ≠ f) : ∀ y ∈ (t g).nodes, y.tag ≠ placeTag k cidr s.next d := by
  have hnew : ∀ y ∈ (t g).nodes, y.tag ≠ s.next := fun y hy => Nat.ne_of_lt (hinv.fresh g y hy)
  cases d with
  | nil => exact hnew
  | node x ch =>
    rw [placeTag]
    split
    · intro y hy
      refine hinv.disjoint g f hg y hy x ?_
      rw [← hplug]
      exact mem_plug.mpr (.inr (mem_nodes_node.mpr (.inl rfl)))
    · exact hnew

/-- A fresh node is on no list. -/
theorem Inv.not_listed (hinv : Inv e s t) (p : P) : s.next ∉ s.lists p := by
  intro hmem
  rcases (hinv.lists p s.next).mp hmem with ⟨g, q, x, hx, htag, -, -⟩
  have := hinv.fresh g x hx
  omega

variable [DecidableEq P]

/-- The table after an insertion. -/
theorem Inv.inserted (hinv : Inv e s t) (hcidr : cidr ≤ f.bits) {c : Ctx ℕ P} {d : Tree ℕ P}
    (hplug : plug c d = t f) (hloc : Located (hostBits e f key) cidr c d)
    (hrep : Replaced e f s.next (t f) s.heap s'.heap
      (plug c (insertAt (hostBits e f key) cidr peer s.next (s.next + 1) d)))
    (hfresh : ∀ x ∈ (plug c (insertAt (hostBits e f key) cidr peer s.next (s.next + 1) d)).nodes,
      x.tag < s'.next)
    (hnext : s.next ≤ s'.next)
    (hlists : s'.lists = listMoveTail peer (placeTag (hostBits e f key) cidr s.next d) s.lists) :
    ∃ t', Inv e s' (Function.update t f t') ∧ ∀ m, (t f).Represents m →
      t'.Represents (Function.update m ((hostBits e f key).take cidr) (some peer)) := by
  have hk := length_hostBits e f key
  have hwf := hinv.wf f
  have htag := tag_eq_placeTag_iff hinv hcidr hplug hloc
  have hsub := insert_tags (hostBits e f key) cidr peer s.next (s.next + 1) c d
  rw [hplug] at hsub
  rw [← hplug] at hwf
  refine ⟨_, hinv.replace hrep (insert_wf hwf hk hcidr hloc) ?_ ?_ hfresh hnext ?_ ?_, ?_⟩
  · -- the new addresses are new
    obtain ⟨l, hperm, hsublist⟩ := hsub
    refine hperm.nodup_iff.mp (hsublist.nodup ?_)
    have hold : ∀ i, s.next ≤ i → i ∉ (t f).nodes.map Entry.tag := by
      intro i hi hmem
      rcases List.mem_map.mp hmem with ⟨x, hx, rfl⟩
      have := hinv.fresh f x hx
      omega
    rw [List.nodup_cons, List.nodup_cons, List.mem_cons]
    refine ⟨?_, hold _ (Nat.le_succ _), hinv.nodup f⟩
    rintro (h | h)
    · omega
    · exact hold _ (Nat.le_refl _) h
  · intro x hx
    have hmem := hsub.subset (List.mem_map_of_mem hx)
    rw [List.mem_cons, List.mem_cons] at hmem
    rcases hmem with h | h | h
    · exact .inr h.ge
    · exact .inr (by omega)
    · exact .inl h
  · intro p i
    rw [hlists, mem_listMoveTail hinv.lists_nodup, hinv.lists]
    simp only [valued_insert s.next (s.next + 1) hwf hk hcidr hloc]
    rw [hplug]
    constructor
    · rintro (⟨⟨g, q, hq⟩, hne⟩ | ⟨rfl, rfl⟩)
      · by_cases hg : g = f
        · subst hg
          refine .inl ⟨q, .inr ⟨hq, ?_⟩⟩
          rcases hq with ⟨y, hy, rfl, rfl, -⟩
          exact fun hpre => hne ((htag y hy).mpr hpre)
        · exact .inr ⟨g, hg, q, hq⟩
      · exact .inl ⟨_, .inl ⟨rfl, rfl, rfl⟩⟩
    · rintro (⟨q, ⟨rfl, rfl, rfl⟩ | ⟨hq, hne⟩⟩ | ⟨g, hg, q, hq⟩)
      · exact .inr ⟨rfl, rfl⟩
      · refine .inl ⟨⟨f, q, hq⟩, ?_⟩
        rcases hq with ⟨y, hy, rfl, rfl, -⟩
        exact fun htag' => hne ((htag y hy).mp htag')
      · refine .inl ⟨⟨g, q, hq⟩, ?_⟩
        rcases hq with ⟨y, hy, rfl, -, -⟩
        exact ne_placeTag hinv hplug _ hg y hy
  · intro p
    rw [hlists]
    exact nodup_listMoveTail hinv.lists_nodup ..
  · intro m hm
    rw [← hplug] at hm
    exact insert_represents hwf hk hcidr hloc hm

/-- What `add` may return, and the table it leaves. -/
inductive Added (e : Endian) (f : Family) (key : Bytes) (cidr : ℕ) (peer : P) (granted : Bool × Bool)
    (t : Family → Tree ℕ P) : Int → Table P → Prop
  | invalid {s' : Table P} (hcidr : f.bits < cidr) (hinv : Inv e s' t) :
      Added e f key cidr peer granted t (-22) s'
  | noMemory {s' : Table P} (hcidr : cidr ≤ f.bits) (hdenied : granted ≠ (true, true))
      (hinv : Inv e s' t) : Added e f key cidr peer granted t (-12) s'
  | inserted {s' : Table P} (hcidr : cidr ≤ f.bits) (t' : Tree ℕ P)
      (hinv : Inv e s' (Function.update t f t'))
      (hmap : ∀ m, (t f).Represents m →
        t'.Represents (Function.update m ((hostBits e f key).take cidr) (some peer))) :
      Added e f key cidr peer granted t 0 s'

/-- Insertions that make a new node for the prefix. -/
theorem added_new (hinv : Inv e s t) (hcidr : cidr ≤ f.bits) (granted : Bool × Bool)
    (hplug : plug c d = t f) (hloc : Located (hostBits e f key) cidr c d)
    (hnew : placeTag (hostBits e f key) cidr s.next d = s.next) {h' : Heap Family (NodeData P)}
    {next' : ℕ} (hnext : s.next ≤ next') (hrep : Replaced e f s.next (t f) s.heap h'
      (plug c (insertAt (hostBits e f key) cidr peer s.next (s.next + 1) d)))
    (hfresh : ∀ x ∈ (insertAt (hostBits e f key) cidr peer s.next (s.next + 1) d).nodes,
      x.tag < next') :
    Added e f key cidr peer granted t 0
      { s with heap := h', lists := listAddTail peer s.next s.lists, next := next' } := by
  have hlists : listAddTail peer s.next s.lists =
      listMoveTail peer (placeTag (hostBits e f key) cidr s.next d) s.lists := by
    rw [hnew, listMoveTail, listDel_of_not_mem hinv.not_listed]
  have hall : ∀ x ∈ (plug c (insertAt (hostBits e f key) cidr peer s.next (s.next + 1) d)).nodes,
      x.tag < next' := by
    intro x hx
    rcases mem_plug.mp hx with hx | hx
    · exact ((hinv.place hplug).ctx_fresh x hx).trans_le hnext
    · exact hfresh x hx
  obtain ⟨t', hinv', hmap⟩ := @Inv.inserted _ e f s
    { s with heap := h', lists := listAddTail peer s.next s.lists, next := next' } t key cidr peer _
    hinv hcidr c d hplug hloc hrep hall hnext hlists
  exact .inserted hcidr t' hinv' hmap

/-- The end of `add`, with something at the place that is not the prefix itself. -/
theorem addAbove_spec (hinv : Inv e s t) (hkey : key.length = f.bits / 8) (hcidr : cidr ≤ f.bits)
    (granted : Bool) {x : Entry ℕ P} {ch : Bool → Tree ℕ P} (hplug : plug c (.node x ch) = t f)
    (hloc : Located (hostBits e f key) cidr c (.node x ch))
    (hexact : ¬ Exact (hostBits e f key) cidr x) :
    ∃ r s', addAbove e f key cidr granted (top c) s.next x.tag
        { s.allocNode f (copyAndAssignCidr e f (some peer) key cidr) with
          lists := listAddTail peer s.next s.lists } = some (r, s') ∧
      Added e f key cidr peer (true, granted) t r s' := by
  have hp := hinv.place hplug
  have hk := length_hostBits e f key
  have hlt := common_lt_len (hloc.stop x ch rfl) hexact
  have htree := (wf_plug.mp hp.wf).2.1
  obtain ⟨hxkey, hxlen⟩ := htree.len_le x (mem_nodes_node.mpr (.inl rfl))
  have hbound : bound c <+: hostBits e f key := hloc.bound.trans (List.take_prefix ..)
  have hlen : (freshCell f (copyAndAssignCidr e f (some peer) key cidr)).data.cidr = cidr := rfl
  have hbits : (freshCell f (copyAndAssignCidr e f (some peer) key cidr)).data.bits = key :=
    List.take_of_length_le hkey.le
  have htag : placeTag (hostBits e f key) cidr s.next (.node x ch) = s.next := by
    rw [placeTag, if_neg hexact]
  obtain ⟨xcell, hxcell, hxdesc⟩ := hp.tree.cell x (mem_nodes_node.mpr (.inl rfl))
  have hxcell' : (s.heap.set s.next (some (freshCell f (copyAndAssignCidr e f (some peer) key cidr)))).cells
      x.tag = some xcell := by
    rw [Heap.set_other _ _ (hp.apart (Nat.le_refl _) x (mem_nodes_node.mpr (.inl rfl))).1, hxcell]
  have hcommon : min cidr (commonBits e f xcell.data.bits key) =
      min cidr (common x.key (hostBits e f key)) := by
    rw [commonBits_eq, hxdesc.key]
  rw [addAbove]
  simp only [Table.allocNode, hxcell', Heap.set_same, Option.bind_eq_bind, Option.bind_some, hcommon,
    hlen, hbits]
  have hins : insertAt (hostBits e f key) cidr peer s.next (s.next + 1) (.node x ch) =
      if min cidr (common x.key (hostBits e f key)) = cidr then
        Frame.fill ⟨⟨s.next, hostBits e f key, cidr, some peer⟩, bitAt x.key cidr, .nil⟩ (.node x ch)
      else
        Frame.fill ⟨⟨s.next + 1, hostBits e f key, min cidr (common x.key (hostBits e f key)), none⟩,
          bitAt x.key (min cidr (common x.key (hostBits e f key))),
          leaf ⟨s.next, hostBits e f key, cidr, some peer⟩⟩ (.node x ch) := by
    rw [insertAt, if_neg hexact]
  have hold : ∀ y ∈ (PrefixTree.Tree.node x ch).nodes, y.tag < s.next := hp.tree_fresh
  by_cases hmin : min cidr (common x.key (hostBits e f key)) = cidr
  · -- the new node goes above
    rw [hmin] at hlt
    rw [if_pos hmin] at hins
    obtain ⟨h₁, h₂, hchoose, htop, hrep⟩ := insert_above hp peer hkey hbound hlt
    rw [hplug, ← hins] at hrep
    rw [hmin, if_pos rfl, hchoose]
    simp only [Option.bind_some, htop]
    refine ⟨_, _, rfl, added_new hinv hcidr _ hplug hloc htag (Nat.le_succ s.next) hrep ?_⟩
    intro y hy
    rw [hins] at hy
    rcases List.mem_cons.mp ((nodes_fill _ _).mem_iff.mp hy) with rfl | hy
    · exact Nat.lt_succ_self s.next
    · exact Nat.lt_succ_of_lt (hold y hy)
  · rw [if_neg (Ne.symm hmin)]
    rw [if_neg hmin] at hins
    cases granted with
    | false =>
      -- the new node is given back
      refine ⟨_, _, rfl, .noMemory hcidr (by decide) ?_⟩
      refine hinv.congr rfl ?_ (listDel_listAddTail hinv.not_listed peer) (Nat.le_succ s.next)
      intro n hn
      rw [Heap.set_other _ _ (Nat.ne_of_lt hn), Heap.set_other _ _ (Nat.ne_of_lt hn)]
    | true =>
      -- the keys part behind what they share
      have hshared : min cidr (common x.key (hostBits e f key)) = common x.key (hostBits e f key) := by
        omega
      have hside : bitAt (hostBits e f key) (min cidr (common x.key (hostBits e f key))) =
          !bitAt x.key (min cidr (common x.key (hostBits e f key))) := by
        rw [hshared] at hlt ⊢
        exact Bool.eq_not_of_ne (bitAt_common_ne (by omega) (by omega)).symm
      obtain ⟨h₁, h₂, h₃, hdown, hbeside, htop, hrep⟩ :=
        insert_fork (n := cidr) hp peer hkey hbound hlt hside
      rw [hplug, ← hins] at hrep
      rw [if_pos rfl, hdown]
      simp only [Option.bind_some, hbeside, htop]
      refine ⟨_, _, rfl, added_new hinv hcidr _ hplug hloc htag (by omega) hrep ?_⟩
      intro y hy
      rw [hins] at hy
      rcases List.mem_cons.mp ((nodes_fill _ _).mem_iff.mp hy) with rfl | hy
      · exact Nat.lt_succ_self _
      · rcases List.mem_append.mp hy with hy | hy
        · rw [nodes_leaf, List.mem_singleton] at hy
          subst hy
          exact Nat.lt_succ_of_lt (Nat.lt_succ_self s.next)
        · exact (hold y hy).trans (by omega)

/-- A leaf at an empty place. -/
theorem connect_leaf_spec (hinv : Inv e s t) (hkey : key.length = f.bits / 8) (hcidr : cidr ≤ f.bits)
    (granted : Bool × Bool) {c : Ctx ℕ P} (hplug : plug c .nil = t f)
    (hloc : Located (hostBits e f key) cidr c .nil) :
    ∃ h', (s.heap.set s.next (some (freshCell f (copyAndAssignCidr e f (some peer) key cidr)))).connect
        (hole f c) s.next = some h' ∧
      Added e f key cidr peer granted t 0
        { s with heap := h', lists := listAddTail peer s.next s.lists, next := s.next + 1 } := by
  obtain ⟨h', hconnect, hrep⟩ := insert_leaf (n := cidr) (hinv.place hplug) peer hkey
  rw [hplug] at hrep
  refine ⟨h', hconnect, added_new hinv hcidr _ hplug hloc rfl (Nat.le_succ s.next) hrep ?_⟩
  intro y hy
  rw [insertAt, nodes_leaf, List.mem_singleton] at hy
  subst hy
  exact Nat.lt_succ_self s.next

/-- The part of `add` that makes a node for the prefix. -/
theorem addNew_spec (hinv : Inv e s t) (hkey : key.length = f.bits / 8) (hcidr : cidr ≤ f.bits)
    (granted : Bool) (hplug : plug c d = t f) (hloc : Located (hostBits e f key) cidr c d)
    (hne : t f ≠ .nil) (hexact : ∀ x ch, d = .node x ch → ¬ Exact (hostBits e f key) cidr x) :
    ∃ r s', addNew e f key cidr peer granted (top c) s = some (r, s') ∧
      Added e f key cidr peer (true, granted) t r s' := by
  have hp := hinv.place hplug
  have hbound : bound c <+: hostBits e f key := hloc.bound.trans (List.take_prefix ..)
  have halloc := hp.alloc (copyAndAssignCidr e f (some peer) key cidr)
  cases c with
  | nil =>
    cases d with
    | nil => exact absurd hplug.symm hne
    | node x ch =>
      -- in front of the whole trie
      have hroot : (s.heap.set s.next (some (freshCell f (copyAndAssignCidr e f (some peer) key
          cidr)))).root f = some x.tag := halloc.tree.1
      obtain ⟨r, s', hadd, hadded⟩ := addAbove_spec hinv hkey hcidr granted hplug hloc
        (hexact x ch rfl)
      refine ⟨r, s', ?_, hadded⟩
      rw [top, addNew]
      simp only [Table.allocNode, hroot]
      exact hadd
  | cons fr c =>
    rcases halloc.ctx with ⟨⟨parent, hparent, hpdesc, -⟩, -⟩
    have hchoose : choose parent.data key = fr.side :=
      choose_side (wf_plug.mp hp.wf).1 hpdesc hkey hbound
    have hload : (s.heap.set s.next (some (freshCell f (copyAndAssignCidr e f (some peer) key
        cidr)))).load (hole f (fr :: c)) = parent.bit fr.side := by
      rw [hole, Heap.load, hparent, Option.bind_some]
    have htree := halloc.tree
    rw [hload] at htree
    rw [top, addNew]
    simp only [Table.allocNode, hparent, Option.bind_some, hchoose]
    cases d with
    | nil =>
      have hbit : parent.bit fr.side = none := htree
      obtain ⟨h', hconnect, hadded⟩ := connect_leaf_spec hinv hkey hcidr (true, granted) hplug hloc
      refine ⟨0, _, ?_, hadded⟩
      simp only [hbit]
      rw [← hole, hconnect, Option.map_some]
    | node x ch =>
      have hbit : parent.bit fr.side = some x.tag := htree.1
      obtain ⟨r, s', hadd, hadded⟩ := addAbove_spec hinv hkey hcidr granted hplug hloc
        (hexact x ch rfl)
      refine ⟨r, s', ?_, hadded⟩
      simp only [hbit]
      exact hadd

/-- The prefix is there: its node gets the peer. -/
theorem added_exact (hinv : Inv e s t) (hcidr : cidr ≤ f.bits) (granted : Bool × Bool) {c : Ctx ℕ P}
    {x : Entry ℕ P} {ch : Bool → Tree ℕ P} (hplug : plug c (.node x ch) = t f)
    (hloc : Located (hostBits e f key) cidr c (.node x ch)) (hexact : Exact (hostBits e f key) cidr x) :
    ∃ h', s.heap.write x.tag (setPeer (some peer)) = some h' ∧
      Added e f key cidr peer granted t 0
        { s with heap := h', lists := listMoveTail peer x.tag s.lists } := by
  have hp := hinv.place hplug
  obtain ⟨h', hwrite, hctx, htree, hcells, hroots⟩ := hp.setPeer (some peer)
  refine ⟨h', hwrite, ?_⟩
  have hat : insertAt (hostBits e f key) cidr peer s.next (s.next + 1) (.node x ch) =
      .node { x with val := some peer } ch := by
    rw [insertAt, if_pos hexact]
  have hrep : Replaced e f s.next (t f) s.heap h'
      (plug c (insertAt (hostBits e f key) cidr peer s.next (s.next + 1) (.node x ch))) := by
    rw [hat, ← hplug]
    refine ⟨rep_plug.mpr ⟨hctx, htree⟩, ?_, fun g _ => by rw [hroots]⟩
    intro n _ hn
    exact hcells n (Place.not_in_plug hn).2
  have hfresh : ∀ y ∈ (plug c (insertAt (hostBits e f key) cidr peer s.next (s.next + 1)
      (.node x ch))).nodes, y.tag < s.next := by
    rw [hat]
    intro y hy
    rcases mem_plug.mp hy with hy | hy
    · exact hp.ctx_fresh y hy
    · rcases mem_nodes_node.mp hy with rfl | ⟨b, hy⟩
      · exact hp.tree_fresh x (mem_nodes_node.mpr (.inl rfl))
      · exact hp.tree_fresh y (mem_nodes_node.mpr (.inr ⟨b, hy⟩))
  obtain ⟨t', hinv', hmap⟩ := @Inv.inserted _ e f s
    { s with heap := h', lists := listMoveTail peer x.tag s.lists } t key cidr peer _
    hinv hcidr c _ hplug hloc hrep hfresh (Nat.le_refl s.next) (by rw [placeTag, if_pos hexact])
  exact .inserted hcidr t' hinv' hmap

/-- `add` inserts the prefix, or fails and leaves the tries alone. -/
theorem add_spec (hinv : Inv e s t) (hkey : key.length = f.bits / 8) (cidr : ℕ) (peer : P)
    (granted : Bool × Bool) :
    ∃ r s', add e f key cidr (some peer) granted s = some (r, s') ∧
      Added e f key cidr peer granted t r s' := by
  rw [add]
  by_cases hcidr : f.bits < cidr
  · rw [if_pos hcidr]
    exact ⟨_, _, rfl, .invalid hcidr hinv⟩
  rw [if_neg hcidr]
  have hle : cidr ≤ f.bits := Nat.le_of_not_lt hcidr
  obtain ⟨c, d, hplug, hloc, hplace⟩ := hinv.located hkey hle
  cases hroot : s.heap.root f with
  | none =>
    -- the first node of the trie
    have hnil : t f = .nil := (hinv.root_isNone f).mp hroot
    dsimp only
    split
    · next hgranted =>
      obtain ⟨h', hconnect, hadded⟩ := @connect_leaf_spec _ e f s t key cidr peer _ hinv hkey hle
        granted [] hnil.symm ⟨List.nil_prefix, (fun x hx => nomatch hx), fun x ch h => nomatch h⟩
      refine ⟨0, _, ?_, hadded⟩
      rw [Table.allocNode]
      show Option.map _ (Heap.connect _ (hole f ([] : Ctx ℕ P)) s.next) = _
      rw [hconnect, Option.map_some]
    · next hdenied =>
      refine ⟨_, _, rfl, .noMemory hle ?_ hinv⟩
      rintro rfl
      exact hdenied rfl
  | some root =>
    have hne : t f ≠ .nil := by
      rw [Ne, ← hinv.root_isNone, hroot]
      exact nofun
    dsimp only
    rw [← hroot, hplace, Option.bind_some]
    -- all cases but one go on with a new node
    have hnew : (∀ x ch, d = .node x ch → ¬ Exact (hostBits e f key) cidr x) →
        ∃ r s', (if granted.1 then addNew e f key cidr peer granted.2 (top c) s else some (-12, s)) =
          some (r, s') ∧ Added e f key cidr peer granted t r s' := by
      intro hexact
      obtain ⟨first, second⟩ := granted
      cases first with
      | false => exact ⟨_, _, rfl, .noMemory hle (by simp) hinv⟩
      | true => exact addNew_spec hinv hkey hle second hplug hloc hne hexact
    cases d with
    | nil => exact hnew fun x ch h => nomatch h
    | node x ch =>
      by_cases hexact : Exact (hostBits e f key) cidr x
      swap
      · rw [placeOf, if_neg hexact]
        refine hnew ?_
        intro y ch' heq
        cases heq
        exact hexact
      rw [placeOf, if_pos hexact]
      obtain ⟨h', hwrite, hadded⟩ := @added_exact _ e f s t key cidr peer _ hinv hle granted c x ch
        hplug hloc hexact
      exact ⟨0, _, by rw [if_pos rfl, Option.bind_some, hwrite]; rfl, hadded⟩

end Step

end AmneziaWg.AllowedIps
