import AmneziaWg.Lib.PrefixTreeUpdate

/-!
# Trees in a heap

Binary trees of linked cells. A cell points to its children, and back to the slot that
points to it: a child of its parent, or one of the roots. Several trees, one for each
root, share a heap.

* **Model**: `Heap`, with reads and writes that fail on an address that holds no cell.
* **Representation**: `Rep` says that a tree stands at a slot, `RepCtx` that a context
  stands around one; `rep_plug` joins and separates them.
* **Frames**: a tree is not affected by writes to other cells, and a context not by
  writes to its hole.
* **Writes**: what `store`, `connect` and `moveTo` leave.
-/

namespace TreeHeap

open PrefixTree Function

/-! ## Model -/

/-- Where a pointer to a cell is stored. -/
inductive Slot (R : Type) where
  | root (r : R)
  | child (n : ℕ) (b : Bool)
deriving DecidableEq

structure Cell (R D : Type) where
  data : D
  bit : Bool → Option ℕ
  parent : Slot R

structure Heap (R D : Type) where
  cells : ℕ → Option (Cell R D)
  root : R → Option ℕ

variable {R D V : Type}

namespace Heap

variable (h : Heap R D)

/-- The pointer in a slot. -/
def load : Slot R → Option ℕ
  | .root r => h.root r
  | .child n b => (h.cells n).bind fun c => c.bit b

def set (n : ℕ) (c : Option (Cell R D)) : Heap R D := { h with cells := update h.cells n c }

/-- Change a cell; there must be one. -/
def write (n : ℕ) (f : Cell R D → Cell R D) : Option (Heap R D) :=
  (h.cells n).map fun c => h.set n (some (f c))

/-- Write a pointer to a slot. -/
def store [DecidableEq R] : Slot R → Option ℕ → Option (Heap R D)
  | .root r, p => some { h with root := update h.root r p }
  | .child n b, p => h.write n fun c => { c with bit := update c.bit b p }

def setParent (slot : Slot R) (n : ℕ) : Option (Heap R D) :=
  h.write n fun c => { c with parent := slot }

/-- Let a slot point to a cell, and the cell back to the slot. -/
def connect [DecidableEq R] (slot : Slot R) (n : ℕ) : Option (Heap R D) :=
  (h.setParent slot n).bind fun h => h.store slot (some n)

/-- Let a slot point to a cell, or to nothing. -/
def moveTo [DecidableEq R] (slot : Slot R) : Option ℕ → Option (Heap R D)
  | none => h.store slot none
  | some n => h.connect slot n

end Heap

/-! ## Representation -/

variable (desc : D → Entry ℕ V → Prop)

/-- The tree stands at a slot that holds the pointer `p`. Its tags are addresses. -/
def Rep (cells : ℕ → Option (Cell R D)) : Slot R → Option ℕ → Tree ℕ V → Prop
  | _, p, .nil => p = none
  | slot, p, .node e ch =>
    p = some e.tag ∧ ∃ c, cells e.tag = some c ∧ desc c.data e ∧ c.parent = slot ∧
      ∀ b, Rep cells (.child e.tag b) (c.bit b) (ch b)

/-- The slot where a context ends. -/
def hole (r : R) : Ctx ℕ V → Slot R
  | [] => .root r
  | f :: _ => .child f.e.tag f.side

/-- The context stands in the heap; what its hole points to does not matter. -/
def RepCtx (h : Heap R D) (r : R) : Ctx ℕ V → Prop
  | [] => True
  | f :: c => (∃ cell, h.cells f.e.tag = some cell ∧ desc cell.data f.e ∧
      cell.parent = hole r c ∧ h.load (hole r c) = some f.e.tag ∧
      Rep desc h.cells (.child f.e.tag (!f.side)) (cell.bit (!f.side)) f.sibling) ∧ RepCtx h r c

variable {desc} {h h' : Heap R D} {r : R}

variable {c : Ctx ℕ V} {t : Tree ℕ V}

theorem rep_fill {f : Frame ℕ V} :
    RepCtx desc h r (f :: c) ∧ Rep desc h.cells (hole r (f :: c)) (h.load (hole r (f :: c))) t ↔
      RepCtx desc h r c ∧ Rep desc h.cells (hole r c) (h.load (hole r c)) (f.fill t) := by
  have hside : (if f.side = f.side then t else f.sibling) = t := if_pos rfl
  have hother : (if (!f.side) = f.side then t else f.sibling) = f.sibling := by
    cases f.side <;> rfl
  constructor
  · rintro ⟨⟨⟨cell, hcell, hdesc, hparent, hload, hsibling⟩, hctx⟩, ht⟩
    refine ⟨hctx, hload, cell, hcell, hdesc, hparent, ?_⟩
    intro b
    beta_reduce
    by_cases hb : b = f.side
    · subst hb
      rw [hside]
      simpa [hole, Heap.load, hcell] using ht
    · rw [Bool.eq_not_of_ne hb, hother]
      exact hsibling
  · rintro ⟨hctx, hload, cell, hcell, hdesc, hparent, hchildren⟩
    have h1 := hchildren f.side
    have h2 := hchildren (!f.side)
    beta_reduce at h1 h2
    rw [hside] at h1
    rw [hother] at h2
    refine ⟨⟨⟨cell, hcell, hdesc, hparent, hload, h2⟩, hctx⟩, ?_⟩
    simpa [hole, Heap.load, hcell] using h1

/-- A tree is a context and what stands in its hole. -/
theorem rep_plug :
    Rep desc h.cells (.root r) (h.root r) (plug c t) ↔
      RepCtx desc h r c ∧ Rep desc h.cells (hole r c) (h.load (hole r c)) t := by
  induction c generalizing t with
  | nil => exact (and_iff_right trivial).symm
  | cons f c ih => rw [plug, ih, rep_fill]

/-! ## Frames -/

variable {n : ℕ}

section Frames

variable {cells cells' : ℕ → Option (Cell R D)} {slot slot' : Slot R} {p : Option ℕ} {c : Ctx ℕ V}

theorem Rep.congr (hrep : Rep desc cells slot p t)
    (hsame : ∀ x ∈ t.nodes, cells' x.tag = cells x.tag) : Rep desc cells' slot p t := by
  induction t generalizing slot p with
  | nil => exact hrep
  | node e ch ih =>
    rcases hrep with ⟨hp, cell, hcell, hdesc, hparent, hchildren⟩
    refine ⟨hp, cell, ?_, hdesc, hparent, ?_⟩
    · rw [hsame e (Tree.mem_nodes_node.mpr (.inl rfl)), hcell]
    · intro b
      exact ih b (hchildren b) fun x hx => hsame x (Tree.mem_nodes_node.mpr (.inr ⟨b, hx⟩))

/-- The cell of a node. -/
theorem Rep.cell (hrep : Rep desc cells slot p t) :
    ∀ x ∈ t.nodes, ∃ c, cells x.tag = some c ∧ desc c.data x := by
  induction t generalizing slot p with
  | nil =>
    intro x hx
    cases hx
  | node e ch ih =>
    rcases hrep with ⟨-, c, hc, hdesc, -, hchildren⟩
    intro x hx
    rcases Tree.mem_nodes_node.mp hx with rfl | ⟨b, hb⟩
    · exact ⟨c, hc, hdesc⟩
    · exact ih b (hchildren b) x hb

variable {cell : Cell R D}

/-- The tree at a pointer to a known cell. -/
theorem Rep.of_cell (hrep : Rep desc cells slot (some n) t) (hcell : cells n = some cell) :
    ∃ x ch, t = .node x ch ∧ x.tag = n ∧ desc cell.data x ∧ cell.parent = slot := by
  cases t with
  | nil => cases hrep
  | node x ch =>
    rcases hrep with ⟨htag, cell', hcell', hdesc, hparent, -⟩
    cases htag
    rw [hcell] at hcell'
    cases hcell'
    exact ⟨x, ch, rfl, rfl, hdesc, hparent⟩

theorem Rep.isNil (hrep : Rep desc cells slot p t) : t.isNil = p.isNone := by
  cases t with
  | nil =>
    obtain rfl : p = none := hrep
    rfl
  | node e ch =>
    obtain rfl := hrep.1
    rfl

/-- A tree at another slot: only the root has to know. -/
theorem Rep.reparent {e : Entry ℕ V} {ch : Bool → Tree ℕ V}
    (hrep : Rep desc cells slot p (.node e ch)) (hcell : cells e.tag = some cell)
    (hcell' : cells' e.tag = some { cell with parent := slot' })
    (hsame : ∀ b, ∀ x ∈ (ch b).nodes, cells' x.tag = cells x.tag) :
    Rep desc cells' slot' p (.node e ch) := by
  rcases hrep with ⟨hp, cell', hcell'', hdesc, -, hchildren⟩
  rw [hcell] at hcell''
  cases hcell''
  exact ⟨hp, _, hcell', hdesc, rfl, fun b => (hchildren b).congr (hsame b)⟩

theorem load_hole_congr (hroot : h'.root r = h.root r)
    (hsame : ∀ x ∈ ctxNodes c, h'.cells x.tag = h.cells x.tag) :
    h'.load (hole r c) = h.load (hole r c) := by
  cases c with
  | nil => exact hroot
  | cons f c => rw [hole, Heap.load, Heap.load, hsame f.e (List.mem_cons_self ..)]

theorem RepCtx.congr (hrep : RepCtx desc h r c) (hroot : h'.root r = h.root r)
    (hsame : ∀ x ∈ ctxNodes c, h'.cells x.tag = h.cells x.tag) : RepCtx desc h' r c := by
  induction c with
  | nil => trivial
  | cons f c ih =>
    rcases hrep with ⟨⟨cell, hcell, hdesc, hparent, hload, hsibling⟩, hctx⟩
    have hbelow : ∀ x ∈ f.sibling.nodes, h'.cells x.tag = h.cells x.tag := fun x hx =>
      hsame x (List.mem_cons_of_mem _ (List.mem_append_left _ hx))
    have habove : ∀ x ∈ ctxNodes c, h'.cells x.tag = h.cells x.tag := fun x hx =>
      hsame x (List.mem_cons_of_mem _ (List.mem_append_right _ hx))
    refine ⟨⟨cell, ?_, hdesc, hparent, ?_, hsibling.congr hbelow⟩, ih hctx habove⟩
    · rw [hsame f.e (List.mem_cons_self ..), hcell]
    · rw [load_hole_congr hroot habove, hload]

end Frames

/-! ## Writes -/

theorem Heap.set_same (h : Heap R D) (n : ℕ) (x : Option (Cell R D)) : (h.set n x).cells n = x :=
  update_self ..

theorem Heap.set_other (h : Heap R D) {m : ℕ} (x : Option (Cell R D)) (hne : m ≠ n) :
    (h.set n x).cells m = h.cells m :=
  update_of_ne hne ..

/-- Writes to a cell that is none of a tree. -/
theorem Rep.set {slot : Slot R} {p : Option ℕ} (hrep : Rep desc h.cells slot p t)
    (hn : n ∉ t.nodes.map Entry.tag) (x : Option (Cell R D)) :
    Rep desc (h.set n x).cells slot p t := by
  refine hrep.congr fun y hy => Heap.set_other _ _ ?_
  rintro rfl
  exact hn (List.mem_map_of_mem hy)

theorem RepCtx.set (hrep : RepCtx desc h r c) (hn : n ∉ (ctxNodes c).map Entry.tag)
    (x : Option (Cell R D)) : RepCtx desc (h.set n x) r c := by
  refine hrep.congr rfl fun y hy => Heap.set_other _ _ ?_
  rintro rfl
  exact hn (List.mem_map_of_mem hy)

variable {cell : Cell R D}

theorem Heap.write_eq (hcell : h.cells n = some cell) (f : Cell R D → Cell R D) :
    h.write n f = some (h.set n (some (f cell))) := by
  rw [Heap.write, hcell, Option.map_some]

variable [DecidableEq R]

/-- What a write to the hole of a context leaves. -/
structure Stored (desc : D → Entry ℕ V → Prop) (h h' : Heap R D) (r : R) (c : Ctx ℕ V)
    (p : Option ℕ) : Prop where
  load : h'.load (hole r c) = p
  ctx : RepCtx desc h' r c
  cells : ∀ n ∉ (ctxNodes c).map Entry.tag, h'.cells n = h.cells n
  root : ∀ r' ≠ r, h'.root r' = h.root r'

theorem RepCtx.store (hrep : RepCtx desc h r c) (hnodup : ((ctxNodes c).map Entry.tag).Nodup)
    (p : Option ℕ) : ∃ h', h.store (hole r c) p = some h' ∧ Stored desc h h' r c p := by
  cases c with
  | nil =>
    refine ⟨_, rfl, ?_, trivial, fun n _ => rfl, ?_⟩
    · exact update_self ..
    · intro r' hne
      exact update_of_ne hne ..
  | cons f c =>
    rcases hrep with ⟨⟨cell, hcell, hdesc, hparent, hload, hsibling⟩, hctx⟩
    rw [ctxNodes, List.map_cons, List.nodup_cons, List.map_append] at hnodup
    -- the cell that changes is none of the others
    have hother : ∀ x ∈ f.sibling.nodes ++ ctxNodes c, x.tag ≠ f.e.tag := by
      intro x hx heq
      refine hnodup.1 ?_
      rw [← List.map_append, ← heq]
      exact List.mem_map_of_mem hx
    refine ⟨_, Heap.write_eq hcell _, ?_, ⟨⟨_, Heap.set_same .., hdesc, hparent, ?_, ?_⟩, ?_⟩, ?_, ?_⟩
    · show ((h.set _ _).cells f.e.tag).bind _ = p
      rw [Heap.set_same, Option.bind_some]
      exact update_self ..
    · rw [← hload]
      apply load_hole_congr
      · rfl
      · intro x hx
        exact Heap.set_other _ _ (hother x (List.mem_append_right _ hx))
    · show Rep _ _ _ (update cell.bit f.side p (!f.side)) _
      rw [update_of_ne (by cases f.side <;> decide)]
      exact hsibling.congr fun x hx => Heap.set_other _ _ (hother x (List.mem_append_left _ hx))
    · exact hctx.congr rfl fun x hx => Heap.set_other _ _ (hother x (List.mem_append_right _ hx))
    · intro n hn
      refine Heap.set_other _ _ ?_
      rintro rfl
      exact hn (List.mem_cons_self ..)
    · intro r' _
      rfl

/-- Connecting a cell to the hole of a context. -/
theorem RepCtx.connect (hrep : RepCtx desc h r c) (hnodup : ((ctxNodes c).map Entry.tag).Nodup)
    (hcell : h.cells n = some cell) (hn : n ∉ (ctxNodes c).map Entry.tag) :
    ∃ h', h.connect (hole r c) n = some h' ∧
      h'.cells n = some { cell with parent := hole r c } ∧
      Stored desc (h.set n (some { cell with parent := hole r c })) h' r c (some n) := by
  have hsame : ∀ x ∈ ctxNodes c,
      (h.set n (some { cell with parent := hole r c })).cells x.tag = h.cells x.tag := by
    intro x hx
    refine Heap.set_other _ _ ?_
    rintro rfl
    exact hn (List.mem_map_of_mem hx)
  have hctx : RepCtx desc (h.set n (some { cell with parent := hole r c })) r c :=
    hrep.congr rfl hsame
  obtain ⟨h', hstore, hstored⟩ := hctx.store hnodup (some n)
  refine ⟨h', ?_, ?_, hstored⟩
  · rw [Heap.connect, Heap.setParent, Heap.write_eq hcell, Option.bind_some, hstore]
  · rw [hstored.cells n hn, Heap.set_same]

/-- A cell with trees below it, connected to the hole of a context. -/
theorem RepCtx.attach {y : Entry ℕ V} {t : Bool → Tree ℕ V} (hrep : RepCtx desc h r c)
    (hnodup : ((ctxNodes c).map Entry.tag).Nodup) (hcell : h.cells y.tag = some cell)
    (hdesc : desc cell.data y) (hy : y.tag ∉ (ctxNodes c).map Entry.tag)
    (hchildren : ∀ b, Rep desc h.cells (.child y.tag b) (cell.bit b) (t b))
    (hbelow : ∀ b, ∀ x ∈ (t b).nodes, x.tag ≠ y.tag ∧ x.tag ∉ (ctxNodes c).map Entry.tag) :
    ∃ h', h.connect (hole r c) y.tag = some h' ∧
      Rep desc h'.cells (.root r) (h'.root r) (plug c (.node y t)) ∧
      (∀ n, n ≠ y.tag → n ∉ (ctxNodes c).map Entry.tag → h'.cells n = h.cells n) ∧
      ∀ r' ≠ r, h'.root r' = h.root r' := by
  obtain ⟨h', hconnect, hcell', hstored⟩ := hrep.connect hnodup hcell hy
  have hsame : ∀ n, n ≠ y.tag → n ∉ (ctxNodes c).map Entry.tag → h'.cells n = h.cells n := by
    intro n hne hn
    rw [hstored.cells n hn, Heap.set_other _ _ hne]
  refine ⟨h', hconnect, rep_plug.mpr ⟨hstored.ctx, hstored.load, _, hcell', hdesc, rfl, ?_⟩, hsame,
    hstored.root⟩
  intro b
  exact (hchildren b).congr fun x hx => hsame _ (hbelow b x hx).1 (hbelow b x hx).2

/-- A tree, or nothing, moved to the hole of a context. -/
theorem RepCtx.moveTo {d : Tree ℕ V} {slot : Slot R} {p : Option ℕ} (hrep : RepCtx desc h r c)
    (hnodup : ((ctxNodes c).map Entry.tag).Nodup) (htree : Rep desc h.cells slot p d)
    (hd : (d.nodes.map Entry.tag).Nodup)
    (hapart : ∀ x ∈ d.nodes, x.tag ∉ (ctxNodes c).map Entry.tag) :
    ∃ h', h.moveTo (hole r c) p = some h' ∧
      Rep desc h'.cells (.root r) (h'.root r) (plug c d) ∧
      (∀ n ∉ (ctxNodes c).map Entry.tag, n ∉ d.nodes.map Entry.tag → h'.cells n = h.cells n) ∧
      ∀ r' ≠ r, h'.root r' = h.root r' := by
  cases d with
  | nil =>
    obtain rfl : p = none := htree
    obtain ⟨h', hstore, hstored⟩ := hrep.store hnodup none
    exact ⟨h', hstore, rep_plug.mpr ⟨hstored.ctx, hstored.load⟩, fun n hn _ => hstored.cells n hn,
      hstored.root⟩
  | node y t =>
    rcases htree with ⟨rfl, cell, hcell, hdesc, -, hchildren⟩
    have hbelow : ∀ b, ∀ x ∈ (t b).nodes, x.tag ≠ y.tag ∧ x.tag ∉ (ctxNodes c).map Entry.tag :=
      fun b x hx => ⟨Tree.tag_ne_of_nodup hd hx, hapart x (Tree.mem_nodes_node.mpr (.inr ⟨b, hx⟩))⟩
    obtain ⟨h', hconnect, hplug, hcells, hroot⟩ := hrep.attach hnodup hcell hdesc
      (hapart y (Tree.mem_nodes_node.mpr (.inl rfl))) hchildren hbelow
    refine ⟨h', hconnect, hplug, ?_, hroot⟩
    intro n hn hmem
    refine hcells n ?_ hn
    rintro rfl
    exact hmem (List.mem_cons_self ..)

/-- A tree, connected below a cell. -/
theorem Rep.below {m : ℕ} {x : Entry ℕ V} {ch : Bool → Tree ℕ V} {parent : Cell R D}
    {slot : Slot R} {p : Option ℕ} (hrep : Rep desc h.cells slot p (.node x ch))
    (hnodup : ((PrefixTree.Tree.node x ch).nodes.map Entry.tag).Nodup) (hparent : h.cells m = some parent)
    (hm : ∀ y ∈ (PrefixTree.Tree.node x ch).nodes, y.tag ≠ m) (b : Bool) :
    ∃ h', h.connect (.child m b) x.tag = some h' ∧
      h'.cells m = some { parent with bit := update parent.bit b (some x.tag) } ∧
      Rep desc h'.cells (.child m b) (some x.tag) (.node x ch) ∧
      (∀ n, n ≠ m → n ≠ x.tag → h'.cells n = h.cells n) ∧ h'.root = h.root := by
  have hrep' := hrep
  rcases hrep' with ⟨-, cell, hcell, -, -, -⟩
  have hne : x.tag ≠ m := hm x (Tree.mem_nodes_node.mpr (.inl rfl))
  have hself : ∀ b, ∀ y ∈ (ch b).nodes, y.tag ≠ x.tag := fun b y hy => Tree.tag_ne_of_nodup hnodup hy
  refine ⟨(h.set x.tag (some { cell with parent := .child m b })).set m
    (some { parent with bit := update parent.bit b (some x.tag) }), ?_, ?_, ?_, ?_, rfl⟩
  · rw [Heap.connect, Heap.setParent, Heap.write_eq hcell, Option.bind_some, Heap.store,
      Heap.write_eq ((Heap.set_other _ _ hne.symm).trans hparent)]
  · exact Heap.set_same ..
  · have hp : p = some x.tag := hrep.1
    subst hp
    refine hrep.reparent hcell ?_ ?_
    · rw [Heap.set_other _ _ hne, Heap.set_same]
    · intro b y hy
      rw [Heap.set_other _ _ (hm y (Tree.mem_nodes_node.mpr (.inr ⟨b, hy⟩))),
        Heap.set_other _ _ (hself b y hy)]
  · intro n hnm hnx
    rw [Heap.set_other _ _ hnm, Heap.set_other _ _ hnx]

end TreeHeap
