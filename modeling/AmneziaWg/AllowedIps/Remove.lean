import AmneziaWg.AllowedIps.Insert

/-!
# Removal

`remove_node` takes the peer off a node. A node with two children stays, as a fork; another
one is spliced out, and its parent with it if that is a fork with nothing left to join.

* **Heap**: what the writes of `remove_node` leave.
* **Steps**: `removeNode_spec`, `remove_spec`, `removeByPeer_spec`.
-/

namespace AmneziaWg.AllowedIps

open Linux PrefixTree PrefixTree.Tree TreeHeap

variable {P : Type} {e : Endian} {f : Family}

/-! ## Heap -/

section Heap

variable {h : Heap Family (NodeData P)} {c : Ctx ℕ P} {d : Tree ℕ P} {n : ℕ}

/-- A trie without a node, which is left over, and perhaps without the fork above it. -/
theorem removeParent_spec (hrep : Rep (Describes e f) h.cells (.root f) (h.root f) (plug c d))
    (hnodup : ((plug c d).nodes.map Entry.tag).Nodup) (hn : n ∉ (plug c d).nodes.map Entry.tag) :
    ∃ h' t', removeParent h n d.isNil (hole f c) = some h' ∧
      ((t' = plug c d ∧ Fits c d) ∨
        ∃ fr c', c = fr :: c' ∧ d.isNil = true ∧ fr.e.val = none ∧ t' = plug c' fr.sibling) ∧
      Rep (Describes e f) h'.cells (.root f) (h'.root f) t' ∧
      (∀ m, m ≠ n → m ∉ (ctxNodes c).map Entry.tag → h'.cells m = h.cells m) ∧
      ∀ g ≠ f, h'.root g = h.root g := by
  cases c with
  | nil =>
    refine ⟨_, _, rfl, .inl ⟨rfl, trivial⟩, hrep.set hn none, ?_, fun _ _ => rfl⟩
    intro m hm _
    exact Heap.set_other _ _ hm
  | cons fr c =>
    obtain ⟨⟨⟨cell, hcell, hdesc, hparent, -, hsibling⟩, hctx⟩, -⟩ := rep_plug.mp hrep
    rw [hole, removeParent, hcell, Option.bind_some, hdesc.peer]
    by_cases hjoin : d.isNil = true ∧ fr.e.val.isNone = true
    swap
    · -- the parent stays
      rw [if_neg hjoin]
      refine ⟨_, _, rfl, .inl ⟨rfl, ?_⟩, hrep.set hn none, ?_, fun _ _ => rfl⟩
      · intro hval
        by_contra hnil
        exact hjoin ⟨eq_true_of_ne_false hnil, Option.isNone_iff_eq_none.mpr hval⟩
      · intro m hm _
        exact Heap.set_other _ _ hm
    rw [if_pos hjoin, hparent]
    -- the sibling takes the place of the parent
    have hlist : ((ctxNodes (fr :: c) ++ d.nodes).map Entry.tag).Nodup :=
      ((nodes_plug (fr :: c) d).map _).nodup_iff.mp hnodup
    rw [nodes_of_isNil hjoin.1, List.append_nil, ctxNodes, List.map_cons, List.nodup_cons,
      List.map_append, List.nodup_append] at hlist
    obtain ⟨htag, hsnodup, hcnodup, hapart⟩ := hlist
    have hin : ∀ y ∈ ctxNodes (fr :: c), y.tag ≠ n := by
      rintro y hy rfl
      exact hn (List.mem_map_of_mem (mem_plug.mpr (.inl hy)))
    have hns : n ∉ fr.sibling.nodes.map Entry.tag := by
      intro hmem
      rcases List.mem_map.mp hmem with ⟨y, hy, htag⟩
      exact hin y (List.mem_cons_of_mem _ (List.mem_append_left _ hy)) htag
    have hnc : n ∉ (ctxNodes c).map Entry.tag := by
      intro hmem
      rcases List.mem_map.mp hmem with ⟨y, hy, htag⟩
      exact hin y (List.mem_cons_of_mem _ (List.mem_append_right _ hy)) htag
    obtain ⟨h₂, hmove, hplug, hcells, hroot⟩ := (hctx.set hnc none).moveTo hcnodup
      (hsibling.set hns none) hsnodup fun y hy hmem =>
        hapart _ (List.mem_map_of_mem hy) _ hmem rfl
    rw [hmove, Option.map_some]
    refine ⟨_, _, rfl, .inr ⟨fr, c, rfl, hjoin.1, Option.isNone_iff_eq_none.mp hjoin.2, rfl⟩,
      hplug.set ?_ none, ?_, hroot⟩
    · intro hmem
      rw [((nodes_plug c fr.sibling).map _).mem_iff, List.map_append, List.mem_append] at hmem
      exact htag (List.mem_append.mpr hmem.symm)
    · intro m hm hmem
      rw [ctxNodes, List.map_cons, List.mem_cons, List.map_append, List.mem_append, not_or,
        not_or] at hmem
      rw [Heap.set_other _ _ hmem.1, hcells m hmem.2.2 hmem.2.1, Heap.set_other _ _ hm]

end Heap

/-! ## Steps -/

section Steps

variable {s : Table P} {t : Family → Tree ℕ P} {c : Ctx ℕ P} {x : Entry ℕ P} {ch : Bool → Tree ℕ P}
  {t' : Tree ℕ P}

/-- After a removal the tries hold the old entries of other nodes. -/
theorem valued_removed (hinv : Inv e s t) (hplug : plug c (.node x ch) = t f)
    (hrem : Removal c x ch t') {g : Family} {i : ℕ} {q : Bits} {p : P} :
    Valued (Function.update t f t' g).nodes i q p ↔ Valued (t g).nodes i q p ∧ i ≠ x.tag := by
  have hx : x ∈ (t f).nodes := by
    rw [← hplug]
    exact mem_plug.mpr (.inr (mem_nodes_node.mpr (.inl rfl)))
  by_cases hg : g = f
  · subst hg
    have hwf := hinv.wf g
    rw [← hplug] at hwf
    rw [Function.update_self, hrem.valued hwf, hplug]
    refine and_congr_right ?_
    rintro ⟨y, hy, rfl, rfl, -⟩
    exact not_congr (hinv.tag_eq_iff hy hx).symm
  · rw [Function.update_of_ne hg]
    refine ⟨fun h => ⟨h, ?_⟩, And.left⟩
    rcases h with ⟨y, hy, rfl, -, -⟩
    exact hinv.disjoint g f hg y hy x hx

/-- The table after a removal. -/
theorem Inv.removed (hinv : Inv e s t) (hplug : plug c (.node x ch) = t f) (hrem : Removal c x ch t')
    {h' : Heap Family (NodeData P)} (hrep : Replaced e f s.next (t f) s.heap h' t') :
    Inv e { s with heap := h', lists := listDel x.tag s.lists } (Function.update t f t') := by
  have hwf := hinv.wf f
  have htags := hrem.tags
  rw [hplug] at htags
  rw [← hplug] at hwf
  have hold : ∀ y ∈ t'.nodes, y.tag ∈ (t f).nodes.map Entry.tag := fun y hy =>
    htags.subset (List.mem_map_of_mem hy)
  refine hinv.replace hrep (hrem.wf hwf) ?_ (fun y hy => .inl (hold y hy)) ?_ (Nat.le_refl _) ?_ ?_
  · obtain ⟨l, hperm, hsub⟩ := htags
    exact hperm.nodup_iff.mp (hsub.nodup (hinv.nodup f))
  · intro y hy
    rcases List.mem_map.mp (hold y hy) with ⟨z, hz, hzy⟩
    rw [← hzy]
    exact hinv.fresh f z hz
  · intro p i
    have hvalued := @valued_removed _ e f s t c x ch t' hinv hplug hrem
    rw [mem_listDel hinv.lists_nodup, hinv.lists]
    constructor
    · rintro ⟨⟨g, q, hq⟩, hne⟩
      have hq' := hvalued.mpr ⟨hq, hne⟩
      by_cases hg : g = f
      · subst hg
        rw [Function.update_self] at hq'
        exact .inl ⟨q, hq'⟩
      · exact .inr ⟨g, hg, q, hq⟩
    · rintro (⟨q, hq⟩ | ⟨g, hg, q, hq⟩)
      · have hq' := (@hvalued f i q p).mp (by rwa [Function.update_self])
        exact ⟨⟨f, q, hq'.1⟩, hq'.2⟩
      · have hq' := (@hvalued g i q p).mp (by rwa [Function.update_of_ne hg])
        exact ⟨⟨g, q, hq'.1⟩, hq'.2⟩
  · intro p
    exact (hinv.lists_nodup p).erase _

/-- `remove_node` takes the entry of a node out of its trie. -/
theorem removeNode_spec (hinv : Inv e s t) (hplug : plug c (.node x ch) = t f) :
    ∃ s' t', removeNode x.tag s = some s' ∧ Removal c x ch t' ∧ Inv e s' (Function.update t f t') := by
  have hp := hinv.place hplug
  obtain ⟨-, cell, hcell, -, hparent, hchildren⟩ := hp.tree
  obtain ⟨h₁, hwrite, hctx, htree, hcells, hroots⟩ := hp.setPeer none
  have hnil : ∀ b, (ch b).isNil = (cell.bit b).isNone := fun b => (hchildren b).isNil
  rw [removeNode]
  simp only [hcell, hwrite, Option.bind_eq_bind, Option.bind_some]
  by_cases hboth : (cell.bit false).isSome = true ∧ (cell.bit true).isSome = true
  · -- the node stays
    rw [if_pos hboth]
    have hrem : Removal c x ch (plug c (.node { x with val := none } ch)) := by
      refine .kept ?_
      intro b
      rw [hnil]
      cases b
      · exact Option.isNone_eq_false_iff.mpr hboth.1
      · exact Option.isNone_eq_false_iff.mpr hboth.2
    refine ⟨_, _, rfl, hrem, hinv.removed hplug hrem ⟨rep_plug.mpr ⟨hctx, htree⟩, ?_, ?_⟩⟩
    · intro m _ hm
      rw [← hplug] at hm
      exact hcells m (Place.not_in_plug hm).2
    · intro g _
      rw [hroots]
  rw [if_neg hboth]
  -- one child at most: the other side is empty
  have hside : ∃ b, (ch b).isNil = true ∧ cell.bit (cell.bit false).isNone = cell.bit (!b) := by
    cases hfalse : cell.bit false with
    | none => exact ⟨false, by rw [hnil, hfalse]; rfl, rfl⟩
    | some m =>
      refine ⟨true, ?_, by rw [Option.isNone_some, Bool.not_true, hfalse]⟩
      rw [hnil, Option.isNone_iff_eq_none, ← Option.not_isSome_iff_eq_none]
      intro htrue
      exact hboth ⟨by rw [hfalse]; rfl, htrue⟩
  obtain ⟨b, hb, hchild⟩ := hside
  have hleaf : decide ((cell.bit false).isNone = true ∧ (cell.bit true).isNone = true) =
      (ch (!b)).isNil := by
    rw [← hnil, ← hnil]
    cases b
    · rw [Bool.not_false, hb]
      simp
    · rw [Bool.not_true, hb]
      simp
  -- the node is alone with what is below it
  have hbelow : ∀ y ∈ (ch (!b)).nodes, y.tag ≠ x.tag := fun y hy => tag_ne_of_nodup hp.tree_nodup hy
  have hnodup : ((plug c (ch (!b))).nodes.map Entry.tag).Nodup ∧
      x.tag ∉ (plug c (ch (!b))).nodes.map Entry.tag := by
    have hall := hinv.nodup f
    rw [← hplug, ((nodes_plug c _).map _).nodup_iff, nodes, nodes_spliced hb,
      (List.perm_middle.map _).nodup_iff, List.map_cons, List.nodup_cons] at hall
    rw [((nodes_plug c (ch (!b))).map _).nodup_iff, ((nodes_plug c (ch (!b))).map _).mem_iff]
    exact hall.symm
  have hsub : ((ch (!b)).nodes.map Entry.tag).Sublist ((PrefixTree.Tree.node x ch).nodes.map Entry.tag) := by
    rw [nodes, nodes_spliced hb]
    exact List.sublist_cons_self ..
  -- its child moves up
  obtain ⟨h₂, hmove, hrep, hcells₂, hroots₂⟩ := hctx.moveTo hp.ctx_nodup
    ((hchildren (!b)).congr fun y hy => hcells _ (hbelow y hy)) (hsub.nodup hp.tree_nodup)
    fun y hy => hp.disjoint y (mem_nodes_node.mpr (.inr ⟨_, hy⟩))
  obtain ⟨h₃, t', hparents, hcases, hrep', hcells₃, hroots₃⟩ :=
    removeParent_spec hrep hnodup.1 hnodup.2
  have hrem : Removal c x ch t' := by
    rcases hcases with ⟨rfl, hfits⟩ | ⟨fr, c', rfl, hleaf', hval, rfl⟩
    · exact .spliced b hb hfits
    · refine .joined fr c' rfl ?_ hval
      intro b'
      by_cases hb' : b' = b
      · rw [hb']
        exact hb
      · rw [Bool.eq_not_of_ne hb']
        exact hleaf'
  rw [hchild, hparent, hmove, Option.bind_some, hleaf, hparents, Option.bind_some]
  refine ⟨_, _, rfl, hrem, hinv.removed hplug hrem ⟨hrep', ?_, ?_⟩⟩
  · intro m _ hm
    rw [← hplug] at hm
    obtain ⟨hmctx, hmx⟩ := Place.not_in_plug hm
    rw [hcells₃ m hmx hmctx, hcells₂ m hmctx ?_, hcells m hmx]
    intro hmem
    rcases List.mem_map.mp hmem with ⟨y, hy, rfl⟩
    exact hm (List.mem_map_of_mem (mem_plug.mpr (.inr (mem_nodes_node.mpr (.inr ⟨_, hy⟩)))))
  · intro g hg
    rw [hroots₃ g hg, hroots₂ g hg, hroots]

/-- `remove_node` on an entry of a peer's list. -/
theorem removeNode_listed (hinv : Inv e s t) {peer : P} {n : ℕ} (hn : n ∈ s.lists peer) :
    ∃ s' t', removeNode n s = some s' ∧ Inv e s' t' ∧
      ∀ g i q p, Valued (t' g).nodes i q p ↔ Valued (t g).nodes i q p ∧ i ≠ n := by
  obtain ⟨f, q, x, hx, rfl, -, -⟩ := (hinv.lists peer n).mp hn
  obtain ⟨c, ch, hplug⟩ := exists_plug hx []
  obtain ⟨s', t', hremove, hrem, hinv'⟩ := removeNode_spec hinv hplug
  exact ⟨s', _, hremove, hinv', fun _ _ _ _ => valued_removed hinv hplug hrem⟩

/-- The loop of `wg_allowedips_remove_by_peer`, over entries that are on the list. -/
theorem removeAll_spec (hinv : Inv e s t) {peer : P} {l : List ℕ} (hnodup : l.Nodup)
    (hl : ∀ n ∈ l, n ∈ s.lists peer) :
    ∃ s' t', l.foldlM (fun s n => removeNode n s) s = some s' ∧ Inv e s' t' ∧
      ∀ g i q p, Valued (t' g).nodes i q p ↔ Valued (t g).nodes i q p ∧ i ∉ l := by
  induction l generalizing s t with
  | nil => exact ⟨s, t, rfl, hinv, fun g i q p => by simp⟩
  | cons n l ih =>
    rw [List.nodup_cons] at hnodup
    obtain ⟨s₁, t₁, hremove, hinv₁, hvalued₁⟩ := removeNode_listed hinv (hl n (List.mem_cons_self ..))
    -- the other entries stay on the list
    have hrest : ∀ i ∈ l, i ∈ s₁.lists peer := by
      intro i hi
      obtain ⟨g, q, hq⟩ := (hinv.lists peer i).mp (hl i (List.mem_cons_of_mem _ hi))
      refine (hinv₁.lists peer i).mpr ⟨g, q, (hvalued₁ g i q peer).mpr ⟨hq, ?_⟩⟩
      rintro rfl
      exact hnodup.1 hi
    obtain ⟨s₂, t₂, hloop, hinv₂, hvalued₂⟩ := ih hinv₁ hnodup.2 hrest
    refine ⟨s₂, t₂, ?_, hinv₂, ?_⟩
    · rw [List.foldlM_cons, hremove]
      exact hloop
    · intro g i q p
      rw [hvalued₂, hvalued₁, List.mem_cons, not_or, and_assoc]

/-- A node is on the list of its peer only. -/
theorem Inv.mem_list_iff (hinv : Inv e s t) {n : ℕ} {q : Bits} {v p : P}
    (hn : Valued (t f).nodes n q v) : n ∈ s.lists p ↔ v = p := by
  constructor
  · intro hmem
    obtain ⟨g, q', y, hy, hytag, -, hyval⟩ := (hinv.lists p n).mp hmem
    obtain ⟨x, hx, hxtag, -, hxval⟩ := hn
    have hg : g = f := by
      by_contra hne
      exact hinv.disjoint g f hne y hy x hx (hytag.trans hxtag.symm)
    subst hg
    have heq := List.inj_on_of_nodup_map (hinv.nodup g) hx hy (hxtag.trans hytag.symm)
    rw [heq, hyval] at hxval
    exact (Option.some.inj hxval).symm
  · rintro rfl
    exact (hinv.lists v n).mpr ⟨f, q, hn⟩

/-- What `remove` may return, and the table it leaves. -/
inductive Removed (e : Endian) (f : Family) (key : Bytes) (cidr : ℕ) (peer : P)
    (t : Family → Tree ℕ P) : Int → Table P → Prop
  | invalid {s' : Table P} (hcidr : f.bits < cidr) (hinv : Inv e s' t) :
      Removed e f key cidr peer t (-22) s'
  | absent {s' : Table P} (hcidr : cidr ≤ f.bits)
      (hother : ¬ (t f).Holds ((hostBits e f key).take cidr) peer) (hinv : Inv e s' t) :
      Removed e f key cidr peer t 0 s'
  | removed {s' : Table P} (hcidr : cidr ≤ f.bits)
      (hholds : (t f).Holds ((hostBits e f key).take cidr) peer) (t' : Tree ℕ P)
      (hinv : Inv e s' (Function.update t f t'))
      (hmap : ∀ m, (t f).Represents m →
        t'.Represents (Function.update m ((hostBits e f key).take cidr) none)) :
      Removed e f key cidr peer t 0 s'

variable [DecidableEq P]

/-- `remove` takes out the prefix if it belongs to the peer. -/
theorem remove_spec (hinv : Inv e s t) {key : Bytes} (hkey : key.length = f.bits / 8) (cidr : ℕ)
    (peer : P) :
    ∃ r s', remove e f key cidr peer s = some (r, s') ∧ Removed e f key cidr peer t r s' := by
  rw [remove]
  by_cases hcidr : f.bits < cidr
  · rw [if_pos hcidr]
    exact ⟨_, _, rfl, .invalid hcidr hinv⟩
  rw [if_neg hcidr]
  have hle : cidr ≤ f.bits := Nat.le_of_not_lt hcidr
  obtain ⟨c, d, hplug, hloc, hplace⟩ := hinv.located hkey hle
  -- without a node at the place there is nothing to remove
  have hnone : (∀ x ch, d = .node x ch → ¬ Exact (hostBits e f key) cidr x) →
      ¬ (t f).Holds ((hostBits e f key).take cidr) peer := by
    rintro hexact ⟨y, hy, hpre, -⟩
    exact hinv.absent (length_hostBits e f key) hle hplug hloc hexact y hy hpre
  cases hroot : s.heap.root f with
  | none =>
    refine ⟨_, _, rfl, .absent hle ?_ hinv⟩
    rw [(hinv.root_isNone f).mp hroot]
    rintro ⟨y, hy, -, -⟩
    cases hy
  | some root =>
    dsimp only
    rw [← hroot, hplace, Option.bind_some]
    cases d with
    | nil => exact ⟨_, _, rfl, .absent hle (hnone fun x ch h => nomatch h) hinv⟩
    | node x ch =>
      by_cases hexact : Exact (hostBits e f key) cidr x
      swap
      · rw [placeOf, if_neg hexact]
        refine ⟨_, _, rfl, .absent hle (hnone ?_) hinv⟩
        intro y ch' heq
        cases heq
        exact hexact
      rw [placeOf, if_pos hexact]
      have hx : x ∈ (t f).nodes := by
        rw [← hplug]
        exact mem_plug.mpr (.inr (mem_nodes_node.mpr (.inl rfl)))
      obtain ⟨hxkey, hxlen⟩ := (hinv.wf f).len_le x hx
      have hpre : x.pre = (hostBits e f key).take cidr := pre_of_exact (by omega) hexact
      obtain ⟨cell, hcell, hdesc⟩ := (hinv.rep f).cell x hx
      dsimp only
      rw [if_pos rfl, Option.bind_some, hcell, Option.bind_some, hdesc.peer]
      by_cases hval : x.val = some peer
      · obtain ⟨s', t', hremove, hrem, hinv'⟩ := removeNode_spec hinv hplug
        rw [if_pos hval, hremove]
        refine ⟨_, _, rfl, .removed hle ⟨x, hx, hpre, hval⟩ t' hinv' ?_⟩
        intro m hm
        have hwf := hinv.wf f
        rw [← hplug] at hm hwf
        rw [← hpre]
        exact hrem.represents hwf hm
      · -- the prefix belongs to another peer, or is a fork
        rw [if_neg hval]
        refine ⟨_, _, rfl, .absent hle ?_ hinv⟩
        rintro ⟨y, hy, hypre, hyval⟩
        have heq := List.inj_on_of_nodup_map (hinv.wf f).nodup_pre hy hx (hypre.trans hpre.symm)
        exact hval (heq ▸ hyval)

/-- `wg_allowedips_remove_by_peer` takes out all entries of the peer. -/
theorem removeByPeer_spec (hinv : Inv e s t) (peer : P) :
    ∃ s' t', wgAllowedipsRemoveByPeer peer s = some s' ∧ Inv e s' t' ∧
      ∀ f m, (t f).Represents m →
        (t' f).Represents fun q => if m q = some peer then none else m q := by
  -- what is left when every entry of the list is gone
  have hleft : ∀ (t' : Family → Tree ℕ P),
      (∀ g i q p, Valued (t' g).nodes i q p ↔ Valued (t g).nodes i q p ∧ i ∉ s.lists peer) →
      ∀ f m, (t f).Represents m →
        (t' f).Represents fun q => if m q = some peer then none else m q := by
    intro t' hvalued f m hm q v
    have hiff : (t' f).Holds q v ↔ (t f).Holds q v ∧ v ≠ peer := by
      rw [holds_iff, holds_iff, ← exists_and_right]
      refine exists_congr fun i => ?_
      rw [hvalued]
      exact and_congr_right fun h => not_congr (hinv.mem_list_iff h)
    rw [hiff, ← hm]
    dsimp only
    split
    · next hpeer =>
      rw [hpeer, Option.some.injEq]
      exact ⟨nofun, fun h => absurd h.1.symm h.2⟩
    · next hpeer =>
      refine ⟨fun h => ⟨h, ?_⟩, And.left⟩
      rintro rfl
      exact hpeer h
  rw [wgAllowedipsRemoveByPeer]
  split
  · next hempty =>
    refine ⟨s, t, rfl, hinv, hleft t ?_⟩
    intro g i q p
    rw [hempty]
    simp
  · have hseq : Inv e { s with seq := s.seq + 1 } t :=
      hinv.congr rfl (fun _ _ => rfl) rfl (Nat.le_refl _)
    obtain ⟨s', t', hloop, hinv', hvalued⟩ := removeAll_spec hseq (hinv.lists_nodup peer)
      fun n hn => hn
    exact ⟨s', t', hloop, hinv', hleft t' hvalued⟩

end Steps

end AmneziaWg.AllowedIps
