import AmneziaWg.AllowedIps.Refinement
import AmneziaWg.Lib.Splice

/-!
# Reading the nodes back

A dump reads every node on the list of every peer with `wg_allowedips_read_node`, which turns
the key of the node round into network order and clears the bits behind its prefix.

* **Model**: `wgAllowedipsReadNode`, `dump`.
* **Masking**: `readNode_spec`, the address is the prefix of the key and zeros.
* **Restoring**: the addresses of a dump, inserted into an empty table, stand for the same map.
-/

namespace AmneziaWg.AllowedIps

open Linux Wire PrefixTree PrefixTree.Tree TreeHeap

variable {P : Type}

/-! ## Model layer -/

/-- `swap_endian` into a buffer, by the width of the key. -/
def swapInto (e : Endian) (bitlen : ℕ) (src dst : Bytes) : Bytes :=
  if bitlen = 32 then Splice.overwrite 0 (swapEndian e .v4 src) dst
  else if bitlen = 128 then Splice.overwrite 0 (swapEndian e .v6 src) dst
  else dst

/-- `~0U << (-node->cidr % 8U)`, as far as a byte sees it. -/
def lastMask (cidr : ℕ) : U8 := ((0xFFFFFFFF : U32) <<< ((2 ^ 32 - cidr) % 8)).setWidth 8

/-- The last byte of the prefix, if there is one. -/
def maskLast (cidr cidrBytes : ℕ) (ip : Bytes) : Option Bytes :=
  if cidr = 0 then some ip
  else if cidrBytes - 1 < ip.length then
    some (ip.set (cidrBytes - 1) (ip.getD (cidrBytes - 1) 0 &&& lastMask cidr))
  else none

/-- `wg_allowedips_read_node`: the family, `ip` and `*cidr`. A write out of `ip` fails; the
count of the `memset` is unsigned. -/
def wgAllowedipsReadNode (e : Endian) (node : NodeData P) (ip : Bytes) :
    Option (Family × Bytes × ℕ) :=
  let cidrBytes := (node.cidr + 7) / 8
  let ip := swapInto e node.bitlen node.bits ip
  let count := (2 ^ 32 + node.bitlen / 8 - cidrBytes) % 2 ^ 32
  if cidrBytes + count ≤ ip.length then
    (maskLast node.cidr cidrBytes (Splice.overwrite cidrBytes (List.replicate count 0) ip)).map
      fun ip => (if node.bitlen = 32 then .v4 else .v6, ip, node.cidr)
  else none

/-- One entry of the dump, as the call that sets it. `ip` is what the buffer held before. -/
def dumpNode (e : Endian) (s : Table P) (ip : Bytes) (peer : P) (n : ℕ) : Option (Op P) := do
  let node ← s.heap.cells n
  let (f, ip, cidr) ← wgAllowedipsReadNode e node.data ip
  if h : (ip.take (f.bits / 8)).length = f.bits / 8 then
    return .insert f ⟨ip.take (f.bits / 8), h⟩ cidr peer (true, true)
  else none

/-- The lists of the peers, one after the other. -/
def dump (e : Endian) (s : Table P) (ip : Bytes) (peers : List P) : Option (List (Op P)) :=
  (peers.flatMap fun p => (s.lists p).map (p, ·)).mapM fun (p, n) => dumpNode e s ip p n

/-! ## Masking -/

theorem msbBits_and (w a m : ℕ) :
    msbBits w (a &&& m) = List.zipWith (· && ·) (msbBits w a) (msbBits w m) := by
  induction w with
  | zero => rfl
  | succ w ih => rw [msbBits, msbBits, msbBits, ih, Nat.testBit_and, List.zipWith_cons_cons]

/-- The mask has ones in front. -/
theorem byteBits_mask : ∀ c : Fin 8, byteBits (((0xFFFFFFFF : U32) <<< (7 - c.val)).setWidth 8) =
    List.replicate (c.val + 1) true ++ List.replicate (7 - c.val) false := by
  decide

variable {n : ℕ}

theorem zipWith_and_replicate {bits : Bits} {m : ℕ} (h : bits.length = n + m) :
    List.zipWith (· && ·) bits (List.replicate n true ++ List.replicate m false) =
      bits.take n ++ List.replicate m false := by
  have hzeros : ∀ (rest : Bits) (m : ℕ), rest.length = m →
      List.zipWith (· && ·) rest (List.replicate m false) = List.replicate m false := by
    intro rest
    induction rest with
    | nil =>
      rintro m rfl
      rfl
    | cons b rest ih =>
      rintro m rfl
      rw [List.length_cons, List.replicate_succ, List.zipWith_cons_cons, ih _ rfl, Bool.and_false]
  induction n generalizing bits with
  | zero => exact hzeros bits m (by omega)
  | succ n ih =>
    cases bits with
    | nil =>
      rw [List.length_nil] at h
      omega
    | cons b bits =>
      rw [List.length_cons] at h
      rw [List.replicate_succ, List.cons_append, List.zipWith_cons_cons, ih (by omega),
        Bool.and_true, List.take_succ_cons, List.cons_append]

/-- The first `c + 1` bits of a byte, and zeros. -/
theorem byteBits_and_mask (b : U8) {c : ℕ} (hc : c < 8) :
    byteBits (b &&& ((0xFFFFFFFF : U32) <<< (7 - c)).setWidth 8) =
      (byteBits b).take (c + 1) ++ List.replicate (7 - c) false := by
  have hmask := byteBits_mask ⟨c, hc⟩
  have hlen : (byteBits b).length = c + 1 + (7 - c) := by
    rw [byteBits, length_msbBits]
    omega
  rw [byteBits, BitVec.toNat_and, msbBits_and, ← byteBits, ← byteBits, hmask,
    zipWith_and_replicate hlen]

theorem netBits_append (xs ys : Bytes) : netBits (xs ++ ys) = netBits xs ++ netBits ys :=
  List.flatMap_append

theorem netBits_cons (b : U8) (ip : Bytes) : netBits (b :: ip) = byteBits b ++ netBits ip :=
  List.flatMap_cons

theorem netBits_zeros (n : ℕ) : netBits (List.replicate n 0) = List.replicate (8 * n) false := by
  induction n with
  | zero => rfl
  | succ n ih =>
    rw [List.replicate_succ, netBits_cons, ih, Nat.mul_succ, Nat.add_comm, List.replicate_add]
    rfl

/-- The bytes of an address behind `cidr` bits are cleared, in the byte of the last bit in part. -/
def maskedBytes (cidr : ℕ) (ip : Bytes) : Bytes :=
  if cidr = 0 then List.replicate ip.length 0
  else ip.take ((cidr - 1) / 8) ++ (ip.getD ((cidr - 1) / 8) 0 &&& lastMask cidr) ::
    List.replicate (ip.length - ((cidr - 1) / 8 + 1)) 0

variable {cidr : ℕ} {ip : Bytes}

theorem netBits_maskedBytes (h : cidr ≤ 8 * ip.length) (hmax : cidr ≤ 128) :
    netBits (maskedBytes cidr ip) =
      (netBits ip).take cidr ++ List.replicate (8 * ip.length - cidr) false := by
  unfold maskedBytes
  by_cases hzero : cidr = 0
  · rw [if_pos hzero, netBits_zeros, hzero]
    rfl
  · rw [if_neg hzero]
    obtain ⟨a, c, hc, rfl⟩ : ∃ a c, c < 8 ∧ cidr = 8 * a + (c + 1) :=
      ⟨(cidr - 1) / 8, (cidr - 1) % 8, by omega, by omega⟩
    have hbyte : (8 * a + (c + 1) - 1) / 8 = a := by omega
    have ha : a < ip.length := by omega
    have hshift : (2 ^ 32 - (8 * a + (c + 1))) % 8 = 7 - c := by omega
    rw [hbyte, lastMask, hshift]
    -- the key falls into the bytes in front, the byte of the last bit, and the others
    have hsplit : ip = ip.take a ++ ip.getD a 0 :: ip.drop (a + 1) := by
      rw [List.getD_eq_getElem _ _ ha, List.getElem_cons_drop, List.take_append_drop]
    have hfront : (netBits (ip.take a)).length = 8 * a := by
      rw [length_netBits, List.length_take, Nat.min_eq_left ha.le]
    have hbits : (netBits ip).take (8 * a + (c + 1)) =
        netBits (ip.take a) ++ (byteBits (ip.getD a 0)).take (c + 1) := by
      have hlen : (byteBits (ip.getD a 0)).length = 8 := length_msbBits ..
      conv_lhs => rw [hsplit]
      rw [netBits_append, ← hfront, List.take_length_add_append, netBits_cons,
        List.take_append_of_le_length (by omega)]
    have hzeros : 8 * ip.length - (8 * a + (c + 1)) = (7 - c) + 8 * (ip.length - (a + 1)) := by omega
    rw [hbits, netBits_append, netBits_cons, byteBits_and_mask _ hc, netBits_zeros, hzeros,
      List.replicate_add]
    simp only [List.append_assoc]

/-- `swap_endian` turns a key into network order as well. -/
theorem netBits_swapEndian (e : Endian) (f : Family) {key : Bytes}
    (hkey : key.length = f.bits / 8) : netBits (swapEndian e f key) = hostBits e f key := by
  have hword : ∀ (bs : Bytes) (k : ℕ), bs.length = k →
      netBits (e.store k (beValue bs)) = msbBits (8 * k) (e.load bs) := by
    rintro bs k rfl
    rw [msbBits_load e rfl]
    cases e with
    | little => rw [Endian.store, be_beValue]
    | big => rw [Endian.store, be_beValue]
  cases f with
  | v4 =>
    have hlen : key.length = 4 := hkey
    rw [swapEndian, hostBits, hword _ 4 (by rw [List.length_take]; omega)]
  | v6 =>
    have hlen : key.length = 16 := hkey
    rw [swapEndian, hostBits, netBits_append, hword _ 8 (by rw [List.length_take]; omega),
      hword _ 8 (by rw [List.length_take, List.length_drop]; omega)]

section Read

variable {e : Endian} {f : Family}

theorem bits_le (f : Family) : f.bits ≤ 128 ∧ 8 * (f.bits / 8) = f.bits := by
  cases f <;> decide

theorem swapInto_eq (src dst : Bytes) :
    swapInto e f.bits src dst = swapEndian e f src ++ dst.drop (f.bits / 8) := by
  have hlen := length_swapEndian e f src
  rw [← hlen, ← Splice.overwrite_zero]
  cases f <;> rfl

/-- What the `memset` leaves, in front of the rest of the buffer. -/
theorem overwrite_zeros {rest : Bytes} (hn : n ≤ ip.length) :
    Splice.overwrite n (List.replicate (ip.length - n) 0) (ip ++ rest) =
      ip.take n ++ (List.replicate (ip.length - n) 0 ++ rest) := by
  have hend : n + (ip.length - n) = ip.length := by omega
  rw [Splice.overwrite, List.length_replicate, hend, List.drop_left,
    List.take_append_of_le_length hn, List.append_assoc]

/-- `&=` on the last byte of the prefix. -/
theorem set_behind {front rest : Bytes} {b : U8} (hn : front.length = n) (g : U8 → U8) :
    (front ++ b :: rest).set n (g ((front ++ b :: rest).getD n 0)) = front ++ g b :: rest := by
  subst hn
  simp

/-- For every length of the prefix, no write leaves the buffer, and the address is the masked
key. -/
theorem readNode_spec {node : NodeData P} {ip : Bytes} (hbitlen : node.bitlen = f.bits)
    (hcidr : node.cidr ≤ f.bits) (hip : ip.length = 16) :
    ∃ ip', wgAllowedipsReadNode e node ip = some (f, ip', node.cidr) ∧
      ip'.take (f.bits / 8) = maskedBytes node.cidr (swapEndian e f node.bits) := by
  have hkey := length_swapEndian e f node.bits
  have hwidth := bits_le f
  have hfamily : (if f.bits = 32 then Family.v4 else .v6) = f := by cases f <;> rfl
  have hcount : (2 ^ 32 + f.bits / 8 - (node.cidr + 7) / 8) % 2 ^ 32 =
      (swapEndian e f node.bits).length - (node.cidr + 7) / 8 := by omega
  rw [wgAllowedipsReadNode, hbitlen, hcount, hfamily, swapInto_eq, overwrite_zeros (by omega),
    if_pos (by rw [List.length_append, List.length_drop]; omega), maskLast, maskedBytes]
  generalize swapEndian e f node.bits = key at hkey hcount
  by_cases hzero : node.cidr = 0
  · rw [if_pos hzero, if_pos hzero, Option.map_some]
    refine ⟨_, rfl, ?_⟩
    have hnone : (node.cidr + 7) / 8 = 0 := by omega
    have hall : (List.replicate key.length (0 : U8)).length = f.bits / 8 := by
      rw [List.length_replicate, hkey]
    rw [hnone, List.take_zero, List.nil_append, Nat.sub_zero, List.take_left' hall]
  · -- the byte of the last bit is the last one in front of the zeros
    rw [if_neg hzero, if_neg hzero]
    generalize hlast : (node.cidr - 1) / 8 = a
    have hbytes : (node.cidr + 7) / 8 = a + 1 := by omega
    have ha : a < key.length := by omega
    have hsplit : key.take (a + 1) = key.take a ++ [key.getD a 0] := by
      rw [List.getD_eq_getElem _ _ ha, List.take_succ_eq_append_getElem ha]
    have hfront : (key.take a).length = a := by
      rw [List.length_take]
      omega
    rw [hbytes, Nat.add_sub_cancel, hsplit, List.append_assoc, List.singleton_append,
      if_pos (by rw [List.length_append, hfront, List.length_cons]; omega), Option.map_some,
      set_behind hfront (· &&& lastMask node.cidr)]
    refine ⟨_, rfl, ?_⟩
    rw [← List.cons_append, ← List.append_assoc]
    refine List.take_left' ?_
    rw [List.length_append, hfront, List.length_cons, List.length_replicate]
    omega

/-- The bits of such an address. -/
theorem netBits_masked {key : Bytes} (hkey : key.length = f.bits / 8) (hcidr : cidr ≤ f.bits) :
    netBits (maskedBytes cidr (swapEndian e f key)) =
      (hostBits e f key).take cidr ++ List.replicate (f.bits - cidr) false := by
  have hlen := length_swapEndian e f key
  have hwidth := bits_le f
  rw [netBits_maskedBytes (by omega) (by omega), netBits_swapEndian e f hkey, hlen, hwidth.2]

end Read

/-! ## Restoring -/

section Restore

variable {e : Endian} {s : Table P} {t : Family → Tree ℕ P} {m : Reference P}

/-- The call sets the entry of `q` to what it is in `m`. -/
def Restores (m : Reference P) (f : Family) (q : Bits) (op : Op P) : Prop :=
  ∃ ip cidr peer, op = .insert f ip cidr peer (true, true) ∧ cidr ≤ f.bits ∧
    (netBits ip.bytes).take cidr = q ∧ m f q = some peer

theorem length_maskedBytes (h : cidr ≤ 8 * ip.length) :
    (maskedBytes cidr ip).length = ip.length := by
  unfold maskedBytes
  split
  · exact List.length_replicate
  · rw [List.length_append, List.length_take, List.length_cons, List.length_replicate]
    omega

/-- Each node on a list is read, as the entry of its prefix. -/
theorem dumpNode_restores (hinv : Inv e s t) (hm : ∀ f, (t f).Represents (m f))
    (hip : ip.length = 16) {p : P} (hn : n ∈ s.lists p) :
    ∃ op f q, dumpNode e s ip p n = some op ∧ Restores m f q op ∧ Valued (t f).nodes n q p := by
  obtain ⟨f, q, x, hx, rfl, rfl, hval⟩ := (hinv.lists p n).mp hn
  obtain ⟨cell, hcell, hdesc⟩ := (hinv.rep f).cell x hx
  have hcidr : cell.data.cidr ≤ f.bits := by
    rw [hdesc.cidr]
    exact ((hinv.wf f).len_le x hx).2
  obtain ⟨ip', hread, htake⟩ := @readNode_spec P e f cell.data ip hdesc.bitlen hcidr hip
  have hkey := length_swapEndian e f cell.data.bits
  have hwidth := bits_le f
  have haddr : (ip'.take (f.bits / 8)).length = f.bits / 8 := by
    rw [htake, length_maskedBytes (by omega), hkey]
  refine ⟨.insert f ⟨ip'.take (f.bits / 8), haddr⟩ cell.data.cidr p (true, true), f, x.pre, ?_,
    ⟨_, _, p, rfl, hcidr, ?_, ?_⟩, x, hx, rfl, rfl, hval⟩
  · rw [dumpNode, hcell]
    simp only [Option.bind_eq_bind, Option.bind_some, hread]
    exact dif_pos haddr
  · -- the first bits are those of the key
    have hfront : ((hostBits e f cell.data.bits).take cell.data.cidr).length = cell.data.cidr := by
      rw [List.length_take, length_hostBits]
      omega
    show (netBits (ip'.take (f.bits / 8))).take cell.data.cidr = x.pre
    rw [htake, netBits_masked hdesc.length hcidr, List.take_left' hfront, hdesc.key, hdesc.cidr]
    rfl
  · exact (hm f x.pre p).mpr ⟨x, hx, rfl, hval⟩

/-- A call that succeeds on every element: what it returns, in both directions. -/
theorem mapM_exists {α β : Type*} {g : α → Option β} {R : α → β → Prop} {l : List α}
    (h : ∀ a ∈ l, ∃ b, g a = some b ∧ R a b) :
    ∃ bs, l.mapM g = some bs ∧ (∀ b ∈ bs, ∃ a ∈ l, R a b) ∧ ∀ a ∈ l, ∃ b ∈ bs, R a b := by
  induction l with
  | nil =>
    refine ⟨[], rfl, ?_, ?_⟩
    · intro b hb
      cases hb
    · intro a ha
      cases ha
  | cons a l ih =>
    rcases h a (List.mem_cons_self ..) with ⟨b, hb, hab⟩
    rcases ih fun c hc => h c (List.mem_cons_of_mem a hc) with ⟨bs, hbs, hsound, hcomplete⟩
    refine ⟨b :: bs, ?_, ?_, ?_⟩
    · rw [List.mapM_cons, hb, hbs]
      rfl
    · intro c hc
      rcases List.mem_cons.mp hc with rfl | hc
      · exact ⟨a, List.mem_cons_self .., hab⟩
      · rcases hsound c hc with ⟨d, hd, hR⟩
        exact ⟨d, List.mem_cons_of_mem a hd, hR⟩
    · intro c hc
      rcases List.mem_cons.mp hc with rfl | hc
      · exact ⟨b, List.mem_cons_self .., hab⟩
      · rcases hcomplete c hc with ⟨d, hd, hR⟩
        exact ⟨d, List.mem_cons_of_mem b hd, hR⟩

/-- A dump restores every entry, and nothing else. -/
theorem dump_restores (hinv : Inv e s t) (hm : ∀ f, (t f).Represents (m f)) (hip : ip.length = 16)
    {peers : List P} (hpeers : ∀ p, s.lists p ≠ [] → p ∈ peers) :
    ∃ calls, dump e s ip peers = some calls ∧ (∀ op ∈ calls, ∃ f q, Restores m f q op) ∧
      ∀ f q p, m f q = some p → ∃ op ∈ calls, Restores m f q op := by
  have hread : ∀ entry ∈ peers.flatMap fun p => (s.lists p).map (p, ·), ∃ op,
      dumpNode e s ip entry.1 entry.2 = some op ∧
        ∃ f q, Restores m f q op ∧ Valued (t f).nodes entry.2 q entry.1 := by
    intro entry hentry
    rcases List.mem_flatMap.mp hentry with ⟨p, -, hp⟩
    rcases List.mem_map.mp hp with ⟨n, hn, rfl⟩
    obtain ⟨op, f, q, hdump, hop, hvalued⟩ := dumpNode_restores hinv hm hip hn
    exact ⟨op, hdump, f, q, hop, hvalued⟩
  obtain ⟨calls, hcalls, hsound, hcomplete⟩ := mapM_exists hread
  refine ⟨calls, hcalls, ?_, ?_⟩
  · intro op hop
    rcases hsound op hop with ⟨entry, -, f, q, hres, -⟩
    exact ⟨f, q, hres⟩
  · -- the node of the entry is on the list of its peer, and it has this prefix only
    intro f q p hq
    obtain ⟨x, hx, rfl, hval⟩ := (hm f q p).mp hq
    have hlisted : x.tag ∈ s.lists p := (hinv.lists p x.tag).mpr ⟨f, x.pre, x, hx, rfl, rfl, hval⟩
    have hentry : (p, x.tag) ∈ peers.flatMap fun p => (s.lists p).map (p, ·) :=
      List.mem_flatMap.mpr
        ⟨p, hpeers p (List.ne_nil_of_mem hlisted), List.mem_map_of_mem hlisted⟩
    rcases hcomplete _ hentry with ⟨op, hop, g, r, hres, y, hy, htag, rfl, -⟩
    have hsame : g = f := by
      by_contra hne
      exact hinv.disjoint g f hne y hy x hx htag
    subst hsame
    rw [(hinv.tag_eq_iff hy hx).mp htag] at hres
    exact ⟨op, hop, hres⟩

variable [DecidableEq P]

theorem Restores.apply_eq {f : Family} {q : Bits} {op : Op P} (h : Restores m f q op)
    (m₀ : Reference P) : m₀.apply op = Function.update m₀ f (Function.update (m₀ f) q (m f q)) := by
  rcases h with ⟨ip, cidr, peer, rfl, -, rfl, hq⟩
  rw [hq]
  rfl

/-- After such calls an entry is as in `m`, or as it was if no call was about it. -/
theorem foldl_restores {calls : List (Op P)} (h : ∀ op ∈ calls, ∃ f q, Restores m f q op)
    (m₀ : Reference P) (g : Family) (r : Bits) :
    calls.foldl Reference.apply m₀ g r = m g r ∨
      (calls.foldl Reference.apply m₀ g r = m₀ g r ∧ ∀ op ∈ calls, ¬Restores m g r op) := by
  induction calls generalizing m₀ with
  | nil =>
    refine .inr ⟨rfl, ?_⟩
    intro op hop
    cases hop
  | cons op calls ih =>
    rcases h op (List.mem_cons_self ..) with ⟨f, q, hop⟩
    rw [List.foldl_cons]
    rcases ih (fun op' hop' => h op' (List.mem_cons_of_mem op hop')) (m₀.apply op) with hm | hm
    · exact .inl hm
    · -- the entry is the one of this call, or none that a call is about
      rw [hm.1, hop.apply_eq]
      by_cases hentry : g = f ∧ r = q
      · rcases hentry with ⟨rfl, rfl⟩
        rw [Function.update_self, Function.update_self]
        exact .inl rfl
      · refine .inr ⟨?_, ?_⟩
        · by_cases hg : g = f
          · subst hg
            rw [Function.update_self, Function.update_of_ne fun hr => hentry ⟨rfl, hr⟩]
          · rw [Function.update_of_ne hg]
        · intro op' hop' hres
          rcases List.mem_cons.mp hop' with rfl | hop'
          · rcases hop with ⟨ip, cidr, peer, rfl, -, rfl, -⟩
            rcases hres with ⟨ip', cidr', peer', heq, -, rfl, -⟩
            cases heq
            exact hentry ⟨rfl, rfl⟩
          · exact hm.2 op' hop' hres

/-- Insertions of valid prefixes with enough memory succeed. -/
theorem foldl_after {calls : List (Op P)} (h : ∀ op ∈ calls, ∃ f q, Restores m f q op)
    {results : List Int} (hallowed : List.Forall₂ Allowed calls results) (m₀ : Reference P) :
    (∀ r ∈ results, r = 0) ∧
      (calls.zip results).foldl Reference.after m₀ = calls.foldl Reference.apply m₀ := by
  induction hallowed generalizing m₀ with
  | nil =>
    refine ⟨?_, rfl⟩
    intro r hr
    cases hr
  | @cons op r calls results hr _ ih =>
    have hzero : r = 0 := by
      rcases h op (List.mem_cons_self ..) with ⟨f, q, ip, cidr, peer, rfl, hcidr, -, -⟩
      rcases hr with ⟨hlt, -⟩ | ⟨-, hr | ⟨hdenied, -⟩⟩
      · omega
      · exact hr
      · exact absurd rfl hdenied
    rcases ih (fun op' hop' => h op' (List.mem_cons_of_mem op hop')) (m₀.apply op) with
      ⟨hall, hfold⟩
    refine ⟨List.forall_mem_cons.mpr ⟨hzero, hall⟩, ?_⟩
    rw [List.zip_cons_cons, List.foldl_cons, List.foldl_cons, ← hfold, Reference.after,
      if_pos hzero]

/-- After every sequence of calls: what is read of the nodes on the lists of all peers, inserted
into an empty table, gives a table with the same lookups. What is read of a node, for every
length of its prefix, is its key in network order with zeros behind the prefix, and nothing is
written outside of the buffer. -/
theorem dump_reinserted (e : Endian) (ops : List (Op P)) :
    (∃ results s, run e wgAllowedipsInit ops = some (results, s) ∧
      ∀ (ip : Bytes) (peers : List P), ip.length = 16 → (∀ p, s.lists p ≠ [] → p ∈ peers) →
        ∃ calls results' s', dump e s ip peers = some calls ∧
          run e wgAllowedipsInit calls = some (results', s') ∧ (∀ r ∈ results', r = 0) ∧
          ∀ (f : Family) (addr : Address f), lookup e s' f addr.bytes = lookup e s f addr.bytes) ∧
    ∀ (f : Family) (node : NodeData P) (ip : Bytes), node.bitlen = f.bits →
      node.bits.length = f.bits / 8 → node.cidr ≤ f.bits → ip.length = 16 →
      ∃ ip', wgAllowedipsReadNode e node ip = some (f, ip', node.cidr) ∧
        netBits (ip'.take (f.bits / 8)) =
          (hostBits e f node.bits).take node.cidr ++ List.replicate (f.bits - node.cidr) false := by
  constructor
  · obtain ⟨results, s, hrun, -, t, hinv, hm⟩ := run_refines (@init_refines P e) ops
    refine ⟨results, s, hrun, ?_⟩
    intro ip peers hip hpeers
    obtain ⟨calls, hdump, hsound, hcomplete⟩ := dump_restores hinv hm hip hpeers
    obtain ⟨results', s', hrun', hallowed, t', hinv', hm'⟩ := run_refines (@init_refines P e) calls
    obtain ⟨hzero, hfold⟩ := foldl_after hsound hallowed fun _ _ => none
    refine ⟨calls, results', s', hdump, hrun', hzero, ?_⟩
    rw [hfold] at hm'
    have hsame : calls.foldl Reference.apply (fun _ _ => none) = reference (ops.zip results) := by
      funext g r
      rcases foldl_restores hsound (fun _ _ => none) g r with heq | ⟨hnone, hmissing⟩
      · exact heq
      · rw [hnone]
        cases hentry : reference (ops.zip results) g r with
        | none => rfl
        | some p =>
          rcases hcomplete g r p hentry with ⟨op, hop, hres⟩
          exact absurd hres (hmissing op hop)
    intro f addr
    rw [lookup_eq hinv' (hm' f) addr, hsame]
    exact (lookup_eq hinv (hm f) addr).symm
  · intro f node ip hbitlen hbits hcidr hip
    obtain ⟨ip', hread, htake⟩ := @readNode_spec P e f node ip hbitlen hcidr hip
    refine ⟨ip', hread, ?_⟩
    rw [htake, netBits_masked hbits hcidr]

end Restore

/-- Two nested prefixes, with bits behind them. -/
def nestedInserts : List (Op Bool) :=
  [.insert .v4 ⟨[10, 255, 2, 3], rfl⟩ 9 true (true, true),
    .insert .v4 ⟨[10, 1, 2, 3], rfl⟩ 8 false (true, true)]

theorem dump_reinserted_nested :
    (∃ results s, run .little wgAllowedipsInit nestedInserts = some (results, s) ∧
      ∃ calls results' s', dump .little s (List.replicate 16 0xff) [false, true] = some calls ∧
        run .little wgAllowedipsInit calls = some (results', s') ∧
        ∀ (f : Family) (addr : Address f),
          lookup .little s' f addr.bytes = lookup .little s f addr.bytes) ∧
    ∃ ip', wgAllowedipsReadNode .little
        (copyAndAssignCidr .little .v4 (some true) [3, 2, 255, 10] 9) (List.replicate 16 0xff) =
          some (.v4, ip', 9) ∧
      netBits (ip'.take 4) =
        (hostBits .little .v4 [3, 2, 255, 10]).take 9 ++ List.replicate 23 false := by
  have hboth := dump_reinserted .little nestedInserts
  constructor
  · rcases hboth.1 with ⟨results, s, hrun, hdump⟩
    have hpeers : ∀ p, s.lists p ≠ [] → p ∈ [false, true] := by
      intro p _
      cases p <;> decide
    rcases hdump (List.replicate 16 0xff) [false, true] rfl hpeers with
      ⟨calls, results', s', hcalls, hrun', -, hlookup⟩
    exact ⟨results, s, hrun, calls, results', s', hcalls, hrun', hlookup⟩
  · exact hboth.2 .v4 (copyAndAssignCidr .little .v4 (some true) [3, 2, 255, 10] 9)
      (List.replicate 16 0xff) rfl rfl (by decide) rfl

end AmneziaWg.AllowedIps
