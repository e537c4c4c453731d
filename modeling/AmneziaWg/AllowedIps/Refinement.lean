import AmneziaWg.AllowedIps.Free

/-!
# The tries and the map they stand for

A table of allowed IPs is a map from prefixes to peers: an insertion sets the entry of a
prefix, a removal deletes it if it belongs to the peer, and a packet goes to the peer of
the longest prefix of its address.

* **Specification**: `Reference`, `apply`.
* **Refinement**: `step_refines` for a call, `run_refines` for every sequence of calls.
* **Representation**: `WellLinked`, what holds of the nodes in memory.
-/

namespace AmneziaWg.AllowedIps

open Linux PrefixTree PrefixTree.Tree TreeHeap

variable {P : Type}

/-! ## Specification -/

/-- The prefixes of a family, and whom they belong to. -/
abbrev Reference (P : Type) := Family → Bits → Option P

section Specification

variable [DecidableEq P]

/-- What a call that succeeds does to the map. -/
def Reference.apply (m : Reference P) : Op P → Reference P
  | .insert f ip cidr peer _ =>
    Function.update m f (Function.update (m f) ((netBits ip.bytes).take cidr) (some peer))
  | .remove f ip cidr peer =>
    if m f ((netBits ip.bytes).take cidr) = some peer then
      Function.update m f (Function.update (m f) ((netBits ip.bytes).take cidr) none)
    else m
  | .removeByPeer peer => fun f q => if m f q = some peer then none else m f q
  | .free => fun _ _ => none

/-- A call that fails does nothing. -/
def Reference.after (m : Reference P) (call : Op P × Int) : Reference P :=
  if call.2 = 0 then m.apply call.1 else m

/-- The map after a sequence of calls with their results. -/
def reference (calls : List (Op P × Int)) : Reference P :=
  calls.foldl Reference.after fun _ _ => none

end Specification

/-- What a call may return: `-EINVAL` for a prefix that is too long, and `-ENOMEM` only if an
allocation fails. -/
def Allowed : Op P → Int → Prop
  | .insert f _ cidr _ granted, r =>
    (f.bits < cidr ∧ r = -22) ∨ (cidr ≤ f.bits ∧ (r = 0 ∨ (granted ≠ (true, true) ∧ r = -12)))
  | .remove f _ cidr _, r => (f.bits < cidr ∧ r = -22) ∨ (cidr ≤ f.bits ∧ r = 0)
  | .removeByPeer _, r => r = 0
  | .free, r => r = 0

/-! ## Refinement -/

/-- The tries of a table hold the entries of a map. -/
def Refines (e : Endian) (s : Table P) (m : Reference P) : Prop :=
  ∃ t, Inv e s t ∧ ∀ f, (t f).Represents (m f)

section Refinement

variable {e : Endian} {s : Table P} {m : Reference P}

theorem Refines.bump (h : Refines e s m) : Refines e { s with seq := s.seq + 1 } m := by
  rcases h with ⟨t, hinv, hm⟩
  exact ⟨t, hinv.congr rfl (fun _ _ => rfl) rfl (Nat.le_refl _), hm⟩

/-- One trie was changed. -/
theorem Refines.update {t : Family → Tree ℕ P} {f : Family} {t' : Tree ℕ P} {m' : Bits → Option P}
    (hinv : Inv e s (Function.update t f t')) (hm : ∀ g, (t g).Represents (m g))
    (hm' : t'.Represents m') : Refines e s (Function.update m f m') := by
  refine ⟨_, hinv, ?_⟩
  intro g
  by_cases hg : g = f
  · subst hg
    rw [Function.update_self, Function.update_self]
    exact hm'
  · rw [Function.update_of_ne hg, Function.update_of_ne hg]
    exact hm g

theorem init_refines : Refines e (wgAllowedipsInit : Table P) fun _ _ => none := by
  refine ⟨fun _ => .nil, ?_, ?_⟩
  · constructor
    · intro f
      rfl
    · intro f
      exact .nil
    · intro f
      exact List.nodup_nil
    · intro f g _ x hx
      cases hx
    · intro f x hx
      cases hx
    · intro p n
      constructor
      · intro hn
        cases hn
      · rintro ⟨f, q, x, hx, -⟩
        cases hx
    · intro p
      exact List.nodup_nil
  · intro f q v
    constructor
    · intro h
      cases h
    · rintro ⟨x, hx, -⟩
      cases hx

variable [DecidableEq P]

/-- Every call returns, and does to the table what it does to the map. -/
theorem step_refines (h : Refines e s m) (op : Op P) :
    ∃ r s', step e s op = some (r, s') ∧ Allowed op r ∧ Refines e s' (m.after (op, r)) := by
  cases op with
  | insert f ip cidr peer granted =>
    obtain ⟨t, hinv, hm⟩ := h.bump
    obtain ⟨r, s', hadd, hadded⟩ := add_spec hinv (length_swapEndian e f ip.bytes) cidr peer granted
    refine ⟨r, s', hadd, ?_⟩
    cases hadded with
    | invalid hcidr hinv' => exact ⟨.inl ⟨hcidr, rfl⟩, t, hinv', hm⟩
    | noMemory hcidr hdenied hinv' => exact ⟨.inr ⟨hcidr, .inr ⟨hdenied, rfl⟩⟩, t, hinv', hm⟩
    | inserted hcidr t' hinv' hmap =>
      refine ⟨.inr ⟨hcidr, .inl rfl⟩, ?_⟩
      have hm' := hmap (m f) (hm f)
      rw [hostBits_swapEndian e f ip.length] at hm'
      exact Refines.update hinv' hm hm'
  | remove f ip cidr peer =>
    obtain ⟨t, hinv, hm⟩ := h.bump
    obtain ⟨r, s', hremove, hremoved⟩ := remove_spec hinv (length_swapEndian e f ip.bytes) cidr peer
    refine ⟨r, s', hremove, ?_⟩
    cases hremoved with
    | invalid hcidr hinv' => exact ⟨.inl ⟨hcidr, rfl⟩, t, hinv', hm⟩
    | absent hcidr hother hinv' =>
      rw [hostBits_swapEndian e f ip.length, ← hm f] at hother
      refine ⟨.inr ⟨hcidr, rfl⟩, t, hinv', ?_⟩
      rw [Reference.after, if_pos rfl, Reference.apply, if_neg hother]
      exact hm
    | removed hcidr hholds t' hinv' hmap =>
      have hm' := hmap (m f) (hm f)
      rw [hostBits_swapEndian e f ip.length] at hm' hholds
      rw [← hm f] at hholds
      refine ⟨.inr ⟨hcidr, rfl⟩, ?_⟩
      rw [Reference.after, if_pos rfl, Reference.apply, if_pos hholds]
      exact Refines.update hinv' hm hm'
  | removeByPeer peer =>
    obtain ⟨t, hinv, hm⟩ := h
    obtain ⟨s', t', hremove, hinv', hmap⟩ := removeByPeer_spec hinv peer
    exact ⟨0, s', by rw [step, hremove, Option.map_some], rfl, t', hinv', fun f => hmap f _ (hm f)⟩
  | free =>
    obtain ⟨t, hinv, -⟩ := h
    obtain ⟨s', hfree, hinv'⟩ := free_spec hinv
    refine ⟨0, s', by rw [step, hfree, Option.map_some], rfl, _, hinv', ?_⟩
    intro f q v
    constructor
    · intro h
      cases h
    · rintro ⟨x, hx, -⟩
      cases hx

theorem run_refines (h : Refines e s m) (ops : List (Op P)) :
    ∃ results s', run e s ops = some (results, s') ∧ List.Forall₂ Allowed ops results ∧
      Refines e s' ((ops.zip results).foldl Reference.after m) := by
  induction ops generalizing s m with
  | nil => exact ⟨[], s, rfl, .nil, h⟩
  | cons op ops ih =>
    obtain ⟨r, s₁, hstep, hallowed, h₁⟩ := step_refines h op
    obtain ⟨results, s₂, hrun, hall, h₂⟩ := ih h₁
    refine ⟨r :: results, s₂, ?_, .cons hallowed hall, h₂⟩
    rw [run, hstep, Option.bind_some]
    show Option.map _ (run e s₁ ops) = _
    rw [hrun, Option.map_some]

/-- After every sequence of calls a lookup is longest prefix match in the map. -/
theorem lookup_after_calls (e : Endian) (ops : List (Op P)) :
    ∃ results s, run e wgAllowedipsInit ops = some (results, s) ∧
      List.Forall₂ Allowed ops results ∧
      ∀ (f : Family) (ip : Address f), lookup e s f ip.bytes =
        some (lpm (reference (ops.zip results) f) (netBits ip.bytes)) := by
  obtain ⟨results, s, hrun, hallowed, t, hinv, hm⟩ := run_refines (@init_refines P e) ops
  exact ⟨results, s, hrun, hallowed, fun f ip => lookup_eq hinv (hm f) ip⟩

end Refinement

/-! ## Representation -/

/-- The nodes that can be reached from the root of a trie. -/
inductive InTrie (h : Heap Family (NodeData P)) (f : Family) : ℕ → Prop
  | root {n : ℕ} (hroot : h.root f = some n) : InTrie h f n
  | child {n m : ℕ} {node : Cell Family (NodeData P)} {b : Bool} (hm : InTrie h f m)
      (hnode : h.cells m = some node) (hbit : node.bit b = some n) : InTrie h f n

/-- What the pointers, back-pointers and lists of a table keep to. Keys are compared in network
order. -/
structure WellLinked (e : Endian) (s : Table P) : Prop where
  /-- Pointers lead to nodes. -/
  live : ∀ f n, InTrie s.heap f n → ∃ node, s.heap.cells n = some node
  /-- Children have longer prefixes, which continue the one of the node on their side. -/
  edge : ∀ f n node b m child, InTrie s.heap f n → s.heap.cells n = some node →
    node.bit b = some m → s.heap.cells m = some child →
    node.data.cidr < child.data.cidr ∧
    (hostBits e f child.data.bits).take node.data.cidr =
      (hostBits e f node.data.bits).take node.data.cidr ∧
    bitAt (hostBits e f child.data.bits) node.data.cidr = b
  /-- A node without a peer has two children. -/
  fork : ∀ f n node, InTrie s.heap f n → s.heap.cells n = some node → node.data.peer = none →
    ∀ b, node.bit b ≠ none
  /-- The back-pointer of a node names the slot that points to it, and no other slot does. -/
  back : ∀ f n node, InTrie s.heap f n → s.heap.cells n = some node →
    s.heap.load node.parent = some n
  back_root : ∀ f n node, s.heap.root f = some n → s.heap.cells n = some node →
    node.parent = .root f
  back_child : ∀ f n node b m child, InTrie s.heap f n → s.heap.cells n = some node →
    node.bit b = some m → s.heap.cells m = some child → child.parent = .child n b
  /-- The list of a peer holds its nodes, each once. -/
  lists : ∀ p n, n ∈ s.lists p ↔
    ∃ f node, InTrie s.heap f n ∧ s.heap.cells n = some node ∧ node.data.peer = some p
  lists_nodup : ∀ p, (s.lists p).Nodup
  /-- Without entries there are no nodes. -/
  empty : (∀ p, s.lists p = []) → ∀ f, s.heap.root f = none

section Representation

variable {e : Endian} {f : Family} {s : Table P} {t : Family → Tree ℕ P} {x : Entry ℕ P} {n : ℕ}
  {node : Cell Family (NodeData P)}

/-- A node in memory, at its place in the tree. -/
theorem Inv.at (hinv : Inv e s t) (hx : x ∈ (t f).nodes) (hnode : s.heap.cells x.tag = some node) :
    ∃ c ch, plug c (.node x ch) = t f ∧ Describes e f node.data x ∧ node.parent = hole f c ∧
      s.heap.load (hole f c) = some x.tag ∧
      ∀ b, Rep (Describes e f) s.heap.cells (.child x.tag b) (node.bit b) (ch b) := by
  obtain ⟨c, ch, hplug⟩ := exists_plug hx []
  obtain ⟨hload, cell, hcell, hdesc, hparent, hchildren⟩ := (hinv.place hplug).tree
  rw [hnode] at hcell
  cases hcell
  exact ⟨c, ch, hplug, hdesc, hparent, hload, hchildren⟩

/-- The nodes of the tree are those that can be reached. -/
theorem Inv.inTrie_iff (hinv : Inv e s t) : InTrie s.heap f n ↔ ∃ x ∈ (t f).nodes, x.tag = n := by
  constructor
  · intro h
    induction h with
    | @root n hroot =>
      have hrep := hinv.rep f
      rw [hroot] at hrep
      cases ht : t f with
      | nil =>
        rw [ht] at hrep
        cases hrep
      | node x ch =>
        rw [ht] at hrep
        exact ⟨x, mem_nodes_node.mpr (.inl rfl), (Option.some.inj hrep.1).symm⟩
    | @child n m node b hm hnode hbit ih =>
      obtain ⟨x, hx, rfl⟩ := ih
      obtain ⟨c, ch, hplug, -, -, -, hchildren⟩ := hinv.at hx hnode
      have hrep := hchildren b
      rw [hbit] at hrep
      cases hch : ch b with
      | nil =>
        rw [hch] at hrep
        cases hrep
      | node y ch' =>
        rw [hch] at hrep
        refine ⟨y, ?_, (Option.some.inj hrep.1).symm⟩
        rw [← hplug]
        exact mem_plug.mpr (.inr (mem_nodes_node.mpr
          (.inr ⟨b, by rw [hch]; exact mem_nodes_node.mpr (.inl rfl)⟩)))
  · rintro ⟨x, hx, rfl⟩
    -- from the root down to any node of a subtree
    have hdown : ∀ (d : Tree ℕ P) (slot : Slot Family) (p : Option ℕ),
        Rep (Describes e f) s.heap.cells slot p d → (∀ m, p = some m → InTrie s.heap f m) →
        ∀ y ∈ d.nodes, InTrie s.heap f y.tag := by
      intro d
      induction d with
      | nil =>
        intro slot p _ _ y hy
        cases hy
      | node z ch ih =>
        intro slot p hrep hp y hy
        rcases hrep with ⟨rfl, cell, hcell, -, -, hchildren⟩
        have hz := hp z.tag rfl
        rcases mem_nodes_node.mp hy with rfl | ⟨b, hy⟩
        · exact hz
        · exact ih b _ _ (hchildren b) (fun m hm => .child hz hcell hm) y hy
    exact hdown (t f) _ _ (hinv.rep f) (fun m hm => .root hm) x hx

theorem Inv.wellLinked (hinv : Inv e s t) : WellLinked e s := by
  constructor
  · intro f n hn
    obtain ⟨x, hx, rfl⟩ := hinv.inTrie_iff.mp hn
    obtain ⟨cell, hcell, -⟩ := (hinv.rep f).cell x hx
    exact ⟨cell, hcell⟩
  · intro f n node b m child hn hnode hbit hchild
    obtain ⟨x, hx, rfl⟩ := hinv.inTrie_iff.mp hn
    obtain ⟨c, ch, hplug, hdesc, -, -, hchildren⟩ := hinv.at hx hnode
    have hrep := hchildren b
    rw [hbit] at hrep
    obtain ⟨y, ch', hch, -, hydesc, -⟩ := hrep.of_cell hchild
    have hwf := hinv.wf f
    rw [← hplug] at hwf
    cases (wf_plug.mp hwf).2.1 with
    | node key len sides full children =>
      -- the prefix of the child goes on with the side
      have hext : x.pre ++ [b] <+: y.pre :=
        sides b y (by rw [hch]; exact mem_nodes_node.mpr (.inl rfl))
      have hykey : x.pre ++ [b] <+: y.key := hext.trans (List.take_prefix ..)
      have hxlen : x.pre.length = x.len := length_pre (by omega)
      rw [hdesc.cidr, hydesc.cidr, hdesc.key, hydesc.key]
      refine ⟨?_, ?_, ?_⟩
      · have hle := hext.length_le
        have hylen : y.pre.length ≤ y.len := by
          rw [Entry.pre, List.length_take]
          exact Nat.min_le_left ..
        rw [List.length_append, hxlen, List.length_singleton] at hle
        omega
      · have hpre := List.prefix_iff_eq_take.mp ((List.prefix_append ..).trans hykey)
        rw [hxlen] at hpre
        exact hpre.symm
      · have hbit := bitAt_of_snoc hykey
        rwa [hxlen] at hbit
  · intro f n node hn hnode hpeer b hnone
    obtain ⟨x, hx, rfl⟩ := hinv.inTrie_iff.mp hn
    obtain ⟨c, ch, hplug, hdesc, -, -, hchildren⟩ := hinv.at hx hnode
    have hwf := hinv.wf f
    rw [← hplug] at hwf
    cases (wf_plug.mp hwf).2.1 with
    | node key len sides full children =>
      have hnil := full (hdesc.peer.symm.trans hpeer) b
      rw [(hchildren b).isNil, hnone] at hnil
      cases hnil
  · intro f n node hn hnode
    obtain ⟨x, hx, rfl⟩ := hinv.inTrie_iff.mp hn
    obtain ⟨c, ch, -, -, hparent, hload, -⟩ := hinv.at hx hnode
    rw [hparent, hload]
  · intro f n node hroot hnode
    have hrep := hinv.rep f
    rw [hroot] at hrep
    obtain ⟨y, ch, -, -, -, hparent⟩ := hrep.of_cell hnode
    exact hparent
  · intro f n node b m child hn hnode hbit hchild
    obtain ⟨x, hx, rfl⟩ := hinv.inTrie_iff.mp hn
    obtain ⟨c, ch, -, -, -, -, hchildren⟩ := hinv.at hx hnode
    have hrep := hchildren b
    rw [hbit] at hrep
    obtain ⟨y, ch', -, -, -, hparent⟩ := hrep.of_cell hchild
    exact hparent
  · intro p n
    rw [hinv.lists]
    constructor
    · rintro ⟨f, q, x, hx, rfl, -, hval⟩
      obtain ⟨cell, hcell, hdesc⟩ := (hinv.rep f).cell x hx
      exact ⟨f, cell, hinv.inTrie_iff.mpr ⟨x, hx, rfl⟩, hcell, hdesc.peer.trans hval⟩
    · rintro ⟨f, node, hn, hnode, hpeer⟩
      obtain ⟨x, hx, rfl⟩ := hinv.inTrie_iff.mp hn
      obtain ⟨cell, hcell, hdesc⟩ := (hinv.rep f).cell x hx
      rw [hnode] at hcell
      cases hcell
      exact ⟨f, x.pre, x, hx, rfl, rfl, hdesc.peer.symm.trans hpeer⟩
  · exact hinv.lists_nodup
  · intro hempty f
    refine (hinv.root_isNone f).mpr ((hinv.wf f).eq_nil ?_)
    intro x hx
    cases hval : x.val with
    | none => rfl
    | some p =>
      have hmem := (hinv.lists p x.tag).mpr ⟨f, x.pre, x, hx, rfl, rfl, hval⟩
      rw [hempty p] at hmem
      cases hmem

/-- After every sequence of calls the tries, back-pointers and lists are consistent. -/
theorem wellLinked_after_calls [DecidableEq P] (e : Endian) (ops : List (Op P)) :
    ∃ results s, run e wgAllowedipsInit ops = some (results, s) ∧ WellLinked e s := by
  obtain ⟨results, s, hrun, -, t, hinv, -⟩ := run_refines (@init_refines P e) ops
  exact ⟨results, s, hrun, hinv.wellLinked⟩

end Representation

end AmneziaWg.AllowedIps
