import AmneziaWg.AllowedIps.Bits
import AmneziaWg.Lib.TreeHeap

/-!
# The trie of allowed IPs

`allowedips.c`: two tries of linked nodes, one for each address family. A node knows the
slot that points to it (`parent_bit_packed`), and the nodes of a peer are on a list of
that peer.

* **Model**: the functions of `allowedips.c` on a heap of nodes. Reads and writes at an
  address without a node fail, as does a loop that does not end; both are `none`.
* **Operations**: `Op`, the calls that change a table, and `step`.

Node addresses are numbers and are given out in order. What `call_rcu` frees is freed at
once: nothing runs between the updates here.
-/

namespace AmneziaWg.AllowedIps

open Linux PrefixTree TreeHeap

variable {P : Type}

/-! ## Nodes -/

/-- `struct allowedips_node`, without the pointers between nodes. -/
structure NodeData (P : Type) where
  peer : Option P
  cidr : ℕ
  bitAtA : ℕ
  bitAtB : ℕ
  bitlen : ℕ
  bits : Bytes

/-- `struct allowedips`, the nodes, and the `allowedips_list` of every peer. -/
structure Table (P : Type) where
  heap : Heap Family (NodeData P)
  seq : U64
  lists : P → List ℕ
  next : ℕ

/-- `copy_and_assign_cidr` on a fresh node. -/
def copyAndAssignCidr (e : Endian) (f : Family) (peer : Option P) (src : Bytes) (cidr : ℕ) :
    NodeData P where
  peer := peer
  cidr := cidr
  bitAtA := bitAtA e f cidr
  bitAtB := bitAtB cidr
  bitlen := f.bits
  bits := src.take (f.bits / 8)

/-- `choose`. -/
def choose (node : NodeData P) (key : Bytes) : Bool := chooseBit node.bitAtA node.bitAtB key

/-- `prefix_matches`. -/
def prefixMatches (e : Endian) (f : Family) (node : NodeData P) (key : Bytes) : Bool :=
  node.cidr ≤ commonBits e f node.bits key

/-! ## Lookup -/

/-- The loop of `find_node`. The first argument bounds its turns. -/
def findNode (e : Endian) (f : Family) (heap : Heap Family (NodeData P)) (key : Bytes) :
    ℕ → Option ℕ → Option ℕ → Option (Option ℕ)
  | 0, _, _ => none
  | _ + 1, none, found => some found
  | turns + 1, some n, found =>
    (heap.cells n).bind fun node =>
      if prefixMatches e f node.data key then
        let found := if node.data.peer.isSome then some n else found
        if node.data.cidr = f.bits then some found
        else findNode e f heap key turns (node.bit (choose node.data key)) found
      else some found

/-- `lookup`. All peers are live, so `wg_peer_get_maybe_zero` grants the reference; on a node
without a peer the code would go round for ever. -/
def lookup (e : Endian) (s : Table P) (f : Family) (beIp : Bytes) : Option (Option P) :=
  let ip := swapEndian e f beIp
  (findNode e f s.heap ip (f.bits + 2) (s.heap.root f) none).bind fun node =>
    match node with
    | none => some none
    | some n => (s.heap.cells n).bind fun node => node.data.peer.map some

/-- The loop of `node_placement`: the last node on the way, and whether it is the prefix. -/
def nodePlacement (e : Endian) (f : Family) (heap : Heap Family (NodeData P)) (key : Bytes)
    (cidr : ℕ) : ℕ → Option ℕ → Option ℕ → Option (Option ℕ × Bool)
  | 0, _, _ => none
  | _ + 1, none, parent => some (parent, false)
  | turns + 1, some n, parent =>
    (heap.cells n).bind fun node =>
      if node.data.cidr ≤ cidr ∧ prefixMatches e f node.data key then
        if node.data.cidr = cidr then some (some n, true)
        else nodePlacement e f heap key cidr turns (node.bit (choose node.data key)) (some n)
      else some (parent, false)

/-! ## Insertion -/

/-- `choose_and_connect_node`. -/
def chooseAndConnectNode (heap : Heap Family (NodeData P)) (parent node : ℕ) :
    Option (Heap Family (NodeData P)) := do
  let p ← heap.cells parent
  let n ← heap.cells node
  heap.connect (.child parent (choose p.data n.data.bits)) node

/-- The node takes the place of the trie, or of a child of `parent`. -/
def connectTop (heap : Heap Family (NodeData P)) (f : Family) (parent : Option ℕ) (node : ℕ) :
    Option (Heap Family (NodeData P)) :=
  match parent with
  | none => heap.connect (.root f) node
  | some p => chooseAndConnectNode heap p node

section Lists

variable [DecidableEq P]

def listAddTail (peer : P) (n : ℕ) (lists : P → List ℕ) : P → List ℕ :=
  Function.update lists peer (lists peer ++ [n])

/-- `list_del`, and `list_del_init`: a node is on one list at most. -/
def listDel (n : ℕ) (lists : P → List ℕ) : P → List ℕ := fun p => (lists p).erase n

def listMoveTail (peer : P) (n : ℕ) (lists : P → List ℕ) : P → List ℕ :=
  listAddTail peer n (listDel n lists)

end Lists

def setPeer (peer : Option P) (node : Cell Family (NodeData P)) : Cell Family (NodeData P) :=
  { node with data := { node.data with peer } }

/-- A node that `kmem_cache_zalloc` returned. Its back-pointer means nothing until it is
connected. -/
def freshCell (f : Family) (data : NodeData P) : Cell Family (NodeData P) :=
  ⟨data, fun _ => none, .root f⟩

def Table.allocNode (s : Table P) (f : Family) (data : NodeData P) : Table P :=
  { s with heap := s.heap.set s.next (some (freshCell f data)), next := s.next + 1 }

variable [DecidableEq P]

/-- The end of `add`: the new node goes above `down`, or a node without a peer joins the two. -/
def addAbove (e : Endian) (f : Family) (key : Bytes) (cidr : ℕ) (granted : Bool)
    (parent : Option ℕ) (newnode down : ℕ) (s : Table P) : Option (Int × Table P) := do
  let d ← s.heap.cells down
  let n ← s.heap.cells newnode
  let m := min cidr (commonBits e f d.data.bits key)
  if n.data.cidr = m then
    let heap ← chooseAndConnectNode s.heap newnode down
    let heap ← connectTop heap f parent newnode
    some (0, { s with heap })
  else if granted then
    let node := s.next
    let s := s.allocNode f (copyAndAssignCidr e f none n.data.bits m)
    let heap ← chooseAndConnectNode s.heap node down
    let heap ← chooseAndConnectNode heap node newnode
    let heap ← connectTop heap f parent node
    some (0, { s with heap })
  else
    some (-12, { s with heap := s.heap.set newnode none, lists := listDel newnode s.lists })

/-- The part of `add` behind `node_placement`, if the prefix has no node: `node` is the last
one on the way. -/
def addNew (e : Endian) (f : Family) (key : Bytes) (cidr : ℕ) (peer : P) (granted : Bool)
    (node : Option ℕ) (s : Table P) : Option (Int × Table P) :=
  let newnode := s.next
  let s := s.allocNode f (copyAndAssignCidr e f (some peer) key cidr)
  let s := { s with lists := listAddTail peer newnode s.lists }
  match node with
  | none =>
    match s.heap.root f with
    | none => none
    | some down => addAbove e f key cidr granted none newnode down s
  | some p =>
    (s.heap.cells p).bind fun node =>
      let bit := choose node.data key
      match node.bit bit with
      | none => (s.heap.connect (.child p bit) newnode).map fun heap => (0, { s with heap })
      | some down => addAbove e f key cidr granted (some p) newnode down s

/-- `add`. The two flags say whether the first and the second allocation succeed. -/
def add (e : Endian) (f : Family) (key : Bytes) (cidr : ℕ) (peer : Option P) (granted : Bool × Bool)
    (s : Table P) : Option (Int × Table P) :=
  match peer with
  | none => some (-22, s)
  | some peer =>
    if f.bits < cidr then some (-22, s)
    else
      match s.heap.root f with
      | none =>
        if granted.1 then
          let node := s.next
          let s := s.allocNode f (copyAndAssignCidr e f (some peer) key cidr)
          let s := { s with lists := listAddTail peer node s.lists }
          (s.heap.connect (.root f) node).map fun heap => (0, { s with heap })
        else some (-12, s)
      | some root =>
        (nodePlacement e f s.heap key cidr (f.bits + 2) (some root) none).bind fun (node, exact) =>
          if exact then
            node.bind fun n => (s.heap.write n (setPeer (some peer))).map fun heap =>
              (0, { s with heap, lists := listMoveTail peer n s.lists })
          else if granted.1 then addNew e f key cidr peer granted.2 node s
          else some (-12, s)

/-! ## Removal -/

/-- The part of `remove_node` behind the splice: without children of the node, a parent without
a peer is spliced out as well. -/
def removeParent (heap : Heap Family (NodeData P)) (n : ℕ) (leaf : Bool) (slot : Slot Family) :
    Option (Heap Family (NodeData P)) :=
  match slot with
  | .root _ => some (heap.set n none)
  | .child p b =>
    (heap.cells p).bind fun parent =>
      let heap := heap.set n none
      if leaf ∧ parent.data.peer.isNone then
        (heap.moveTo parent.parent (parent.bit (!b))).map fun heap => heap.set p none
      else some heap

/-- `remove_node`. -/
def removeNode (n : ℕ) (s : Table P) : Option (Table P) := do
  let node ← s.heap.cells n
  let lists := listDel n s.lists
  let heap ← s.heap.write n (setPeer none)
  if (node.bit false).isSome ∧ (node.bit true).isSome then
    some { s with heap, lists }
  else
    let heap ← heap.moveTo node.parent (node.bit (node.bit false).isNone)
    let heap ← removeParent heap n ((node.bit false).isNone ∧ (node.bit true).isNone) node.parent
    some { s with heap, lists }

/-- `remove`. -/
def remove (e : Endian) (f : Family) (key : Bytes) (cidr : ℕ) (peer : P) (s : Table P) :
    Option (Int × Table P) :=
  if f.bits < cidr then some (-22, s)
  else
    match s.heap.root f with
    | none => some (0, s)
    | some root =>
      (nodePlacement e f s.heap key cidr (f.bits + 2) (some root) none).bind fun (node, exact) =>
        if exact then
          node.bind fun n => (s.heap.cells n).bind fun node =>
            if node.data.peer = some peer then (removeNode n s).map fun s => (0, s)
            else some (0, s)
        else some (0, s)

/-! ## Tables -/

/-- `wg_allowedips_init`, before any peer has a list. -/
def wgAllowedipsInit : Table P where
  heap := ⟨fun _ => none, fun _ => none⟩
  seq := 1
  lists := fun _ => []
  next := 0

/-- The walks over a whole trie, with an explicit stack: the children are pushed, then the node
is visited. -/
def walk (visit : ℕ → NodeData P → Table P → Table P) : ℕ → List ℕ → Table P → Option (Table P)
  | _, [], s => some s
  | 0, _ :: _, _ => none
  | turns + 1, n :: stack, s =>
    (s.heap.cells n).bind fun node =>
      walk visit turns ((node.bit true).toList ++ ((node.bit false).toList ++ stack))
        (visit n node.data s)

/-- `root_remove_peer_lists`. -/
def rootRemovePeerLists (root : ℕ) (s : Table P) : Option (Table P) :=
  walk (fun n node s => if node.peer.isSome then { s with lists := listDel n s.lists } else s)
    s.next [root] s

/-- `root_free_rcu`. -/
def rootFreeRcu (root : ℕ) (s : Table P) : Option (Table P) :=
  walk (fun n _ s => { s with heap := s.heap.set n none }) s.next [root] s

/-- What `wg_allowedips_free` does with one of the old tries. -/
def freeTrie (root : Option ℕ) (s : Table P) : Option (Table P) :=
  match root with
  | none => some s
  | some root => (rootRemovePeerLists root s).bind (rootFreeRcu root)

/-- `wg_allowedips_free`. -/
def wgAllowedipsFree (s : Table P) : Option (Table P) :=
  let old4 := s.heap.root .v4
  let old6 := s.heap.root .v6
  let s := { s with seq := s.seq + 1, heap := { s.heap with root := fun _ => none } }
  (freeTrie old4 s).bind (freeTrie old6)

/-- `wg_allowedips_insert_v4` and `wg_allowedips_insert_v6`. -/
def wgAllowedipsInsert (e : Endian) (f : Family) (ip : Bytes) (cidr : ℕ) (peer : Option P)
    (granted : Bool × Bool) (s : Table P) : Option (Int × Table P) :=
  add e f (swapEndian e f ip) cidr peer granted { s with seq := s.seq + 1 }

/-- `wg_allowedips_remove_v4` and `wg_allowedips_remove_v6`. -/
def wgAllowedipsRemove (e : Endian) (f : Family) (ip : Bytes) (cidr : ℕ) (peer : P) (s : Table P) :
    Option (Int × Table P) :=
  remove e f (swapEndian e f ip) cidr peer { s with seq := s.seq + 1 }

/-- `wg_allowedips_remove_by_peer`. The loop reads the next entry before it removes a node, and
a removal takes no other node off the list. -/
def wgAllowedipsRemoveByPeer (peer : P) (s : Table P) : Option (Table P) :=
  if s.lists peer = [] then some s
  else (s.lists peer).foldlM (fun s n => removeNode n s) { s with seq := s.seq + 1 }

/-! ## Operations -/

/-- An address of a family, in network order. -/
structure Address (f : Family) where
  bytes : Bytes
  length : bytes.length = f.bits / 8

/-- The calls that change a table. -/
inductive Op (P : Type) where
  | insert (f : Family) (ip : Address f) (cidr : ℕ) (peer : P) (granted : Bool × Bool)
  | remove (f : Family) (ip : Address f) (cidr : ℕ) (peer : P)
  | removeByPeer (peer : P)
  | free

/-- What a call returns, `0` if it returns nothing, and the table after it. -/
def step (e : Endian) (s : Table P) : Op P → Option (Int × Table P)
  | .insert f ip cidr peer granted => wgAllowedipsInsert e f ip.bytes cidr (some peer) granted s
  | .remove f ip cidr peer => wgAllowedipsRemove e f ip.bytes cidr peer s
  | .removeByPeer peer => (wgAllowedipsRemoveByPeer peer s).map fun s => (0, s)
  | .free => (wgAllowedipsFree s).map fun s => (0, s)

/-- The results of a sequence of calls, and the table after them. -/
def run (e : Endian) : Table P → List (Op P) → Option (List Int × Table P)
  | s, [] => some ([], s)
  | s, op :: ops =>
    (step e s op).bind fun (r, s) => (run e s ops).map fun (rs, s) => (r :: rs, s)

end AmneziaWg.AllowedIps
