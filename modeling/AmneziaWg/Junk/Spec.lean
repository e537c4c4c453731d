import AmneziaWg.Junk.Tags
import AmneziaWg.Lib.Segments
import AmneziaWg.Messages
import Mathlib.Data.List.GetD
import Mathlib.Data.List.Perm.Basic
import Mathlib.Algebra.Order.BigOperators.Group.List

/-!
# I-packet descriptors: the compiled packet

`jp_spec_setup` of `junk.c`. It sums the tag lengths in an `int`, checks the sum
against `MESSAGE_MAX_SIZE`, allocates the packet and the modifier table, and
walks the tags again with a second running `int` sum to place them.

The model keeps, beside the `jp_spec`, every `memcpy` into the packet.
`LayoutSafe` is what the packet has to satisfy whether the call fails or not; on
success it ties the packet to the tags of the descriptor, one after the other in
the order of the text. `jpSpecSetup_layoutSafe_iff` says for which descriptors it
holds.

* **Model**: `countTag`, `layTags`, `jpSpecSetup`.
* **Layout**: `along` (what the tags give at their places), `Holds`, `LayoutSafe`.
* **Walk**: `Laid.place` (one round), `layTags_laid` (the whole walk).
* **Result**: `jpSpecSetup_layoutSafe_iff`.
-/

namespace AmneziaWg.Junk

open Linux Segments

/-! ## Model layer -/

/-- `struct jp_modifier`; `buf` is the offset from `spec->pkt`. -/
structure JpModifier where
  func : JpModifierFunc
  buf : ℤ
  bufLen : ℤ
  ctx : Option Bytes
deriving DecidableEq, Repr

/-- `struct jp_spec`; `mods` holds the first `mods_size` entries of the table. -/
structure JpSpec where
  desc : Option Bytes
  pkt : Option Bytes
  mods : List JpModifier
  pktSize : ℤ
deriving DecidableEq, Repr

/-- `sizeof(struct jp_modifier)`. -/
def jpModifierSize : ℕ := 32

/-- The bytes that a modifier is called on. -/
def JpModifier.window (mod : JpModifier) : Segment := ⟨mod.buf, mod.bufLen⟩

/-- The bytes that `spec->pkt` points to. -/
def JpSpec.allocated (spec : JpSpec) : ℤ := (spec.pkt.getD []).length

/-- The counters of the first walk. -/
structure Totals where
  pktSize : ℤ := 0
  modsSize : ℕ := 0
  ntags : ℕ := 0
  nqinit : ℕ := 0
deriving DecidableEq, Repr

/-- One round of the first walk. -/
def countTag (t : Totals) (tag : JpTag) : Totals where
  pktSize := wrapInt (t.pktSize + tag.pktSize)
  modsSize := if tag.func.isSome then t.modsSize + 1 else t.modsSize
  ntags := t.ntags + 1
  nqinit := if tag.func = some .qinitModifier then t.nqinit + 1 else t.nqinit

def totals (head : List JpTag) : Totals := head.foldl countTag {}

/-- `memcpy` to `buf + off`. What falls outside `buf` hits other memory. -/
def memcpy (buf : Bytes) (off : ℤ) (src : Bytes) : Bytes :=
  buf.mapIdx fun k b =>
    if off ≤ (k : ℤ) ∧ (k : ℤ) < off + src.length then src.getD ((k : ℤ) - off).toNat b else b

/-- A call of `jp_spec_setup` under way: the spec, the `memcpy`s into its packet,
the error and the number of the next allocation. -/
structure Setup where
  spec : JpSpec
  copies : List Segment
  err : Option Errno
  next : ℕ
deriving DecidableEq, Repr

namespace Setup

/-- `if (tag->pkt) memcpy(...)`. -/
def copyLiteral (r : Setup) (tag : JpTag) : Setup :=
  match tag.pkt with
  | none => r
  | some pkt =>
    { r with
      spec := { r.spec with pkt := r.spec.pkt.map fun buf => memcpy buf r.spec.pktSize pkt }
      copies := r.copies ++ [⟨r.spec.pktSize, tag.pktSize⟩] }

/-- Fill the next entry of the modifier table and count it. -/
def addModifier (r : Setup) (func : JpModifierFunc) (tag : JpTag) : Setup :=
  let mod : JpModifier := ⟨func, r.spec.pktSize, tag.pktSize, tag.ctx⟩
  { r with spec := { r.spec with mods := r.spec.mods ++ [mod] } }

/-- `spec->pkt_size += tag->pkt_size`. -/
def advance (r : Setup) (tag : JpTag) : Setup :=
  { r with spec := { r.spec with pktSize := wrapInt (r.spec.pktSize + tag.pktSize) } }

/-- The windows of the modifiers counted so far. -/
def windows (r : Setup) : List Segment := r.spec.mods.map JpModifier.window

end Setup

/-- The second walk, over the tags in the order of the descriptor. -/
def layTags (mem : Kmalloc) : List JpTag → Setup → Setup
  | [], r => r
  | tag :: tags, r =>
    let r := r.copyLiteral tag
    match tag.func with
    | none => layTags mem tags (r.advance tag)
    | some func =>
      match tag.ctx with
      | none => layTags mem tags ((r.addModifier func tag).advance tag)
      | some ctx =>
        -- the `kstrdup` of the context fails before the entry is counted
        if mem.grants r.next (ctx.length + 1) then
          layTags mem tags (({ r with next := r.next + 1 }.addModifier func tag).advance tag)
        else { r with err := some .ENOMEM, next := r.next + 1 }

/-- The freed and reset spec, nothing placed. -/
def stopped (desc : Option Bytes) (err : Option Errno) (next : ℕ) : Setup where
  spec := { desc := desc, pkt := none, mods := [], pktSize := 0 }
  copies := []
  err := err
  next := next

/-- The zeroed packet is allocated, nothing placed. -/
def walkStart (desc : Bytes) (head : List JpTag) (next : ℕ) : Setup where
  spec := { desc := some desc, pkt := some (List.replicate (sizeOfInt (totals head).pktSize) 0),
            mods := [], pktSize := 0 }
  copies := []
  err := none
  next := next

/-- The checks on the parsed tags, the two allocations and the second walk. Both
allocations are made before either is tested. -/
def compileTags (mem : Kmalloc) (i : ℕ) (desc : Bytes) (head : List JpTag) : Setup :=
  if (totals head).nqinit ≠ 0 ∧ (totals head).ntags ≠ 1 then stopped (some desc) (some .EINVAL) i
  else if (totals head).pktSize > messageMaxSize then stopped (some desc) (some .EINVAL) i
  else
    match mem.grants i (sizeOfInt (totals head).pktSize),
        mem.grants (i + 1) ((totals head).modsSize * jpModifierSize) with
    | true, true => layTags mem head.reverse (walkStart desc head (i + 2))
    | true, false => { walkStart desc head (i + 2) with err := some .ENOMEM }
    | false, _ => stopped (some desc) (some .ENOMEM) (i + 2)

/-- Duplicate the descriptor and parse the copy. -/
def parseDesc (desc : Bytes) : Routine (List JpTag) := do
  Routine.kmalloc (desc.length + 1)
  jpParseTags desc

def jpSpecSetup (mem : Kmalloc) (i : ℕ) (spec : JpSpec) : Setup :=
  match spec.desc with
  | none => stopped none none i
  | some desc =>
    match (parseDesc desc).run mem i with
    | (.error e, i) => stopped (some desc) (some e) i
    | (.ok head, i) => compileTags mem i desc head

/-! ## What the packet has to satisfy -/

namespace JpTag

/-- The bytes of a tag in the packet: its literal, or zeroes for its modifier to fill. -/
def bytes (tag : JpTag) : Bytes := tag.pkt.getD (List.replicate tag.pktSize.toNat 0)

/-- The segment of a tag that starts at `off`. -/
def segmentAt (tag : JpTag) (off : ℤ) : List Segment := [⟨off, tag.pktSize⟩]

/-- The `memcpy` of a tag that starts at `off`: one for a literal. -/
def copyAt (tag : JpTag) (off : ℤ) : List Segment :=
  match tag.pkt with
  | none => []
  | some _ => [⟨off, tag.pktSize⟩]

/-- The table entry of a tag that starts at `off`: one for a modifier. -/
def modifierAt (tag : JpTag) (off : ℤ) : List JpModifier :=
  match tag.func with
  | none => []
  | some func => [⟨func, off, tag.pktSize, tag.ctx⟩]

end JpTag

/-- What the tags give at their places, one after the other, the first one at `off`. -/
def along {α : Type} (f : JpTag → ℤ → List α) : ℤ → List JpTag → List α
  | _, [] => []
  | off, tag :: tags => f tag off ++ along f (off + tag.pktSize) tags

/-- The packet of a list of tags. -/
def packetOf (tags : List JpTag) : Bytes := tags.flatMap JpTag.bytes

/-- The packet holds the tags one after the other: their segments tile it, each literal
is copied to its segment and stands there, each modifier has its segment as its window,
and there is no other copy and no other window. -/
structure Holds (tags : List JpTag) (r : Setup) : Prop where
  tiles : Tiles 0 (along JpTag.segmentAt 0 tags) r.spec.pktSize
  copies : r.copies = along JpTag.copyAt 0 tags
  mods : r.spec.mods = along JpTag.modifierAt 0 tags
  perm : (along JpTag.segmentAt 0 tags).Perm (r.windows ++ r.copies)
  pkt : r.spec.pkt.getD [] = packetOf tags

/-- The packet compiled from `desc` is laid out safely: sizes within the allocation and
the limit, every window and every `memcpy` inside the allocation, no two of them
overlapping; on success it holds the tags of the descriptor, in the order of its text. -/
structure LayoutSafe (desc : Option Bytes) (r : Setup) : Prop where
  size_nonneg : 0 ≤ r.spec.pktSize
  size_le : r.spec.pktSize ≤ r.spec.allocated
  allocated_le : r.spec.allocated ≤ messageMaxSize
  windows_inside : ∀ s ∈ r.windows, s.Inside r.spec.allocated
  copies_inside : ∀ s ∈ r.copies, s.Inside r.spec.allocated
  apart : (r.windows ++ r.copies).Pairwise Segment.Apart
  holds : r.err = none → ∃ tags, TagsIn (desc.getD []) tags ∧ Holds tags r

/-- The sum of the tag lengths, as integers. -/
def lengthSum (tags : List JpTag) : ℤ := (tags.map JpTag.pktSize).sum

/-- The descriptor parses to `tags` (last tag first), and neither the checks of
`jp_spec_setup` nor the size of a request stops it before the second walk. -/
structure Compiles (desc : Bytes) (tags : List JpTag) : Prop where
  parses : (jpParseTags desc).result = .ok tags
  duplicable : desc.length + 1 < 2 ^ 31
  qinit_alone : (totals tags).nqinit = 0 ∨ tags.length = 1
  sum_nonneg : 0 ≤ wrapInt (lengthSum tags)
  sum_le : wrapInt (lengthSum tags) ≤ messageMaxSize
  mods_fit : (totals tags).modsSize * jpModifierSize < 2 ^ 31

/-- Every length is non-negative, and their sum is within the limit. -/
def LengthsFit (tags : List JpTag) : Prop :=
  (∀ t ∈ tags, 0 ≤ t.pktSize) ∧ lengthSum tags ≤ messageMaxSize

/-! ## The first walk -/

theorem wrapInt_add_wrapInt (x y : ℤ) : wrapInt (wrapInt x + y) = wrapInt (x + y) := by
  unfold wrapInt
  exact Int.bmod_add_bmod

theorem foldl_countTag_pktSize (t : Totals) (x : ℤ) (ht : t.pktSize = wrapInt x)
    (tags : List JpTag) : (tags.foldl countTag t).pktSize = wrapInt (x + lengthSum tags) := by
  induction tags generalizing t x with
  | nil =>
    rw [List.foldl_nil, ht, lengthSum, List.map_nil, List.sum_nil, Int.add_zero]
  | cons tag tags ih =>
    have hstep : (countTag t tag).pktSize = wrapInt (x + tag.pktSize) := by
      rw [countTag, ht, wrapInt_add_wrapInt]
    rw [List.foldl_cons, ih _ _ hstep, lengthSum, lengthSum, List.map_cons, List.sum_cons,
      Int.add_assoc]

theorem totals_pktSize (tags : List JpTag) : (totals tags).pktSize = wrapInt (lengthSum tags) := by
  rw [totals, foldl_countTag_pktSize {} 0 rfl, Int.zero_add]

theorem foldl_countTag_ntags (t : Totals) (tags : List JpTag) :
    (tags.foldl countTag t).ntags = t.ntags + tags.length := by
  induction tags generalizing t with
  | nil => rfl
  | cons tag tags ih =>
    rw [List.foldl_cons, ih, List.length_cons]
    show t.ntags + 1 + tags.length = t.ntags + (tags.length + 1)
    omega

theorem totals_ntags (tags : List JpTag) : (totals tags).ntags = tags.length := by
  rw [totals, foldl_countTag_ntags, Nat.zero_add]

/-! ## The second walk -/

theorem along_append {α : Type} (f : JpTag → ℤ → List α) (off : ℤ) (xs ys : List JpTag) :
    along f off (xs ++ ys) = along f off xs ++ along f (off + lengthSum xs) ys := by
  induction xs generalizing off with
  | nil => exact congrArg (along f · ys) (Int.add_zero off).symm
  | cons tag xs ih =>
    have hsum : off + lengthSum (tag :: xs) = off + tag.pktSize + lengthSum xs :=
      (Int.add_assoc ..).symm
    rw [List.cons_append, along, along, ih, hsum, List.append_assoc]

theorem along_concat {α : Type} (f : JpTag → ℤ → List α) (tags : List JpTag) (tag : JpTag) :
    along f 0 (tags ++ [tag]) = along f 0 tags ++ f tag (lengthSum tags) := by
  rw [along_append, along, along, List.append_nil, Int.zero_add]

theorem segmentAt_len (off : ℤ) (tags : List JpTag) :
    (along JpTag.segmentAt off tags).map Segment.len = tags.map JpTag.pktSize := by
  induction tags generalizing off with
  | nil => rfl
  | cons tag tags ih => exact congrArg (tag.pktSize :: ·) (ih _)

variable {tags : List JpTag}

theorem tiles_along (h : ∀ t ∈ tags, 0 ≤ t.pktSize) (off : ℤ) :
    Tiles off (along JpTag.segmentAt off tags) (off + lengthSum tags) := by
  induction tags generalizing off with
  | nil => exact (Int.add_zero off).symm
  | cons tag tags ih =>
    rcases List.forall_mem_cons.mp h with ⟨htag, htags⟩
    have hrest := ih htags (off + tag.pktSize)
    rw [Int.add_assoc] at hrest
    exact ⟨rfl, htag, hrest⟩

/-- Every tag has a window or a copy, and not both. -/
theorem along_perm (hwf : ∀ t ∈ tags, t.Wf) (off : ℤ) :
    (along JpTag.segmentAt off tags).Perm
      ((along JpTag.modifierAt off tags).map JpModifier.window ++
        along JpTag.copyAt off tags) := by
  induction tags generalizing off with
  | nil => exact List.Perm.nil
  | cons tag tags ih =>
    rcases List.forall_mem_cons.mp hwf with ⟨htag, htags⟩
    have hrest := (ih htags (off + tag.pktSize)).cons ⟨off, tag.pktSize⟩
    cases htag with
    | literal pkt hpos hint => exact hrest.trans List.perm_middle.symm
    | modifier func hfunc len hlo hhi => exact hrest
    | qinit ctx hctx => exact hrest

variable {tag : JpTag}

theorem JpTag.Wf.length_bytes (hwf : tag.Wf) (h : 0 ≤ tag.pktSize) :
    (tag.bytes.length : ℤ) = tag.pktSize := by
  cases hwf with
  | literal pkt hpos hint => rfl
  | modifier func hfunc len hlo hhi =>
    show ((List.replicate len.toNat (0 : U8)).length : ℤ) = len
    rw [List.length_replicate]
    exact Int.toNat_of_nonneg h
  | qinit ctx hctx => exact congrArg Nat.cast List.length_replicate

theorem packetOf_cons (tag : JpTag) (tags : List JpTag) :
    packetOf (tag :: tags) = tag.bytes ++ packetOf tags := List.flatMap_cons

theorem packetOf_concat (tags : List JpTag) (tag : JpTag) :
    packetOf (tags ++ [tag]) = packetOf tags ++ tag.bytes := by
  rw [packetOf, List.flatMap_append, List.flatMap_singleton]
  rfl

theorem length_packetOf (h : ∀ t ∈ tags, t.Wf ∧ 0 ≤ t.pktSize) :
    ((packetOf tags).length : ℤ) = lengthSum tags := by
  induction tags with
  | nil => rfl
  | cons tag tags ih =>
    rcases List.forall_mem_cons.mp h with ⟨⟨hwf, hnonneg⟩, htags⟩
    rw [packetOf_cons, List.length_append, Nat.cast_add, ih htags, hwf.length_bytes hnonneg]
    rfl

/-- A copy over bytes of its own length. -/
theorem memcpy_append (a b c : Bytes) {src : Bytes} (h : b.length = src.length) :
    memcpy (a ++ (b ++ c)) a.length src = a ++ (src ++ c) := by
  unfold memcpy
  apply List.ext_getElem
  · simp only [List.length_mapIdx, List.length_append, h]
  · intro k hk hk'
    rw [List.getElem_mapIdx]
    by_cases hin : a.length ≤ k ∧ k < a.length + src.length
    · -- a byte of the copy
      rw [if_pos ⟨by omega, by omega⟩, show ((k : ℤ) - a.length).toNat = k - a.length by omega,
        List.getD_eq_getElem _ _ (by omega), List.getElem_append_right hin.1,
        List.getElem_append_left (by omega)]
    · rw [if_neg (by omega)]
      by_cases hbefore : k < a.length
      · rw [List.getElem_append_left hbefore, List.getElem_append_left hbefore]
      · -- behind the copy
        rw [List.getElem_append_right (by omega), List.getElem_append_right (by omega),
          List.getElem_append_right (by omega), List.getElem_append_right (by omega)]
        simp only [h]

/-- One round of the second walk that places its tag. -/
structure Places (r : Setup) (tag : JpTag) (r' : Setup) : Prop where
  copies : r'.copies = r.copies ++ tag.copyAt r.spec.pktSize
  mods : r'.spec.mods = r.spec.mods ++ tag.modifierAt r.spec.pktSize
  pkt : r'.spec.pkt = match tag.pkt with
    | none => r.spec.pkt
    | some src => r.spec.pkt.map fun buf => memcpy buf r.spec.pktSize src
  pktSize : r'.spec.pktSize = wrapInt (r.spec.pktSize + tag.pktSize)
  err : r'.err = r.err

theorem places_literal (r : Setup) (pkt : Bytes) (len : ℤ) (ctx : Option Bytes) :
    Places r ⟨some pkt, none, len, ctx⟩
      ((r.copyLiteral ⟨some pkt, none, len, ctx⟩).advance ⟨some pkt, none, len, ctx⟩) where
  copies := rfl
  mods := (List.append_nil _).symm
  pkt := rfl
  pktSize := rfl
  err := rfl

theorem places_modifier (r : Setup) (i : ℕ) (func : JpModifierFunc) (len : ℤ) (ctx : Option Bytes) :
    Places r ⟨none, some func, len, ctx⟩
      (({ r with next := i }.addModifier func ⟨none, some func, len, ctx⟩).advance
        ⟨none, some func, len, ctx⟩) where
  copies := (List.append_nil _).symm
  mods := rfl
  pkt := rfl
  pktSize := rfl
  err := rfl

/-- A round places its tag and goes on, or stops on the context of a `qinit` tag. -/
theorem layTags_cons (hwf : tag.Wf) (mem : Kmalloc) (tags : List JpTag) (r : Setup) :
    (∃ r', Places r tag r' ∧ layTags mem (tag :: tags) r = layTags mem tags r') ∨
      (∃ ctx, tag.ctx = some ctx ∧ mem.grants r.next (ctx.length + 1) = false ∧
        layTags mem (tag :: tags) r = { r with err := some .ENOMEM, next := r.next + 1 }) := by
  cases hwf with
  | literal pkt hpos hint => exact .inl ⟨_, places_literal r pkt _ none, rfl⟩
  | modifier func hfunc len hlo hhi => exact .inl ⟨_, places_modifier r r.next func len none, rfl⟩
  | qinit ctx hctx =>
    by_cases hmem : mem.grants r.next (ctx.length + 1) = true
    · refine .inl ⟨_, places_modifier r (r.next + 1) .qinitModifier _ (some ctx), ?_⟩
      exact if_pos hmem
    · refine .inr ⟨ctx, rfl, Bool.eq_false_iff.mpr hmem, ?_⟩
      exact if_neg hmem

/-- The walk has laid out `done`, and the last `left` bytes of the packet are still zero. -/
structure Laid (done : List JpTag) (left : ℕ) (r : Setup) : Prop where
  fits : ∀ t ∈ done, t.Wf ∧ 0 ≤ t.pktSize
  pkt : r.spec.pkt = some (packetOf done ++ List.replicate left 0)
  pktSize : r.spec.pktSize = lengthSum done
  copies : r.copies = along JpTag.copyAt 0 done
  mods : r.spec.mods = along JpTag.modifierAt 0 done
  le : (packetOf done).length + left ≤ messageMaxSize

variable {r r' : Setup}

variable {done : List JpTag} {left : ℕ}

/-- The bytes of a placed tag are copied, or stay zero. -/
theorem Places.packet (hr : Laid done (tag.bytes.length + left) r) (h : Places r tag r')
    (hwf : tag.Wf) : r'.spec.pkt = some (packetOf (done ++ [tag]) ++ List.replicate left 0) := by
  rw [h.pkt, hr.pkt, packetOf_concat, List.append_assoc, List.replicate_add]
  have hlen : r.spec.pktSize = (packetOf done).length :=
    hr.pktSize.trans (length_packetOf hr.fits).symm
  cases hwf with
  | literal pkt hpos hint =>
    show some (memcpy _ r.spec.pktSize pkt) = _
    rw [hlen]
    exact congrArg some (memcpy_append _ _ _ List.length_replicate)
  | modifier func hfunc len hlo hhi =>
    show some (_ ++ (List.replicate (List.replicate len.toNat (0 : U8)).length 0 ++ _)) = _
    rw [List.length_replicate]
    rfl
  | qinit ctx hctx =>
    show some (_ ++ (List.replicate (List.replicate qinitDatagramLen (0 : U8)).length 0 ++ _)) = _
    rw [List.length_replicate]
    rfl

/-- One round lays its tag out behind what there is. -/
theorem Laid.place (hr : Laid done (tag.bytes.length + left) r) (h : Places r tag r') (hwf : tag.Wf)
    (hnonneg : 0 ≤ tag.pktSize) : Laid (done ++ [tag]) left r' := by
  have hfits : ∀ t ∈ done ++ [tag], t.Wf ∧ 0 ≤ t.pktSize := by
    intro t ht
    rcases List.mem_append.mp ht with ht | ht
    · exact hr.fits t ht
    · rw [List.mem_singleton.mp ht]
      exact ⟨hwf, hnonneg⟩
  have hsum : lengthSum (done ++ [tag]) = lengthSum done + tag.pktSize := by
    rw [lengthSum, List.map_append, List.sum_append, List.map_singleton, List.sum_singleton]
    rfl
  have hle := hr.le
  constructor
  · exact hfits
  · exact h.packet hr hwf
  · -- within the limit the running sum does not wrap
    have hdone := length_packetOf hr.fits
    have htag := hwf.length_bytes hnonneg
    rw [messageMaxSize] at hle
    rw [h.pktSize, hr.pktSize, hsum]
    exact wrapInt_of_range (by omega) (by omega)
  · rw [h.copies, hr.copies, hr.pktSize, along_concat]
  · rw [h.mods, hr.mods, hr.pktSize, along_concat]
  · rw [packetOf_concat, List.length_append]
    omega

/-- With lengths that fit, the second walk lays out all tags, or it is refused memory for
a context and leaves those in front of it. -/
theorem layTags_laid {mem : Kmalloc} {tags done : List JpTag} {r : Setup}
    (hfit : ∀ t ∈ tags, t.Wf ∧ 0 ≤ t.pktSize) (hr : Laid done (packetOf tags).length r)
    (herr : r.err = none) :
    ((layTags mem tags r).err = none ∧ Laid (done ++ tags) 0 (layTags mem tags r)) ∨
      ((layTags mem tags r).err = some .ENOMEM ∧
        ∃ front left, Laid front left (layTags mem tags r)) := by
  induction tags generalizing done r with
  | nil =>
    rw [List.append_nil]
    exact .inl ⟨herr, hr⟩
  | cons tag tags ih =>
    rcases List.forall_mem_cons.mp hfit with ⟨⟨hwf, hnonneg⟩, hfit⟩
    rw [packetOf_cons, List.length_append] at hr
    rcases layTags_cons hwf mem tags r with ⟨r', hplace, heq⟩ | ⟨ctx, -, -, heq⟩
    · have hrest := ih hfit (hr.place hplace hwf hnonneg) (hplace.err.trans herr)
      rw [List.append_assoc] at hrest
      rw [heq]
      exact hrest
    · -- the walk stops in front of the tag
      rw [heq]
      exact .inr ⟨rfl, done, _, ⟨hr.fits, hr.pkt, hr.pktSize, hr.copies, hr.mods, hr.le⟩⟩

/-- A walk that no allocation stops succeeds. -/
theorem layTags_generous_err (hwf : ∀ t ∈ tags, t.Wf) (r : Setup) (herr : r.err = none) :
    (layTags .generous tags r).err = none := by
  induction tags generalizing r with
  | nil => exact herr
  | cons tag tags ih =>
    rcases List.forall_mem_cons.mp hwf with ⟨htagWf, hwf⟩
    rcases layTags_cons htagWf .generous tags r with ⟨r', hplace, heq⟩ | ⟨ctx, hctx, hmem, -⟩
    · rw [heq]
      exact ih hwf r' (hplace.err.trans herr)
    · -- a context is at most 255 bytes long
      exfalso
      have hlen : ctx.length ≤ 255 := by
        cases htagWf with
        | literal pkt hpos hint => cases hctx
        | modifier func hfunc len hlo hhi => cases hctx
        | qinit ctx' hctx' =>
          cases hctx
          exact hctx'
      have hgrant : Kmalloc.generous.grants r.next (ctx.length + 1) = true :=
        decide_eq_true (by omega)
      rw [hgrant] at hmem
      cases hmem

/-! ## The whole call -/

/-- A call that places nothing is safe if its packet is within the limit, and without a
packet and a tag if it succeeds. -/
theorem layoutSafe_of_empty {desc : Option Bytes} (hsize : r.spec.pktSize = 0)
    (hmods : r.spec.mods = []) (hcopies : r.copies = [])
    (halloc : r.spec.allocated ≤ messageMaxSize)
    (hok : r.err = none → desc = none ∧ r.spec.pkt = none) : LayoutSafe desc r := by
  have hwindows : r.windows = [] := by rw [Setup.windows, hmods, List.map_nil]
  constructor
  · exact le_of_eq hsize.symm
  · rw [hsize]
    exact Int.natCast_nonneg _
  · exact halloc
  · rw [hwindows]
    intro s hs
    cases hs
  · rw [hcopies]
    intro s hs
    cases hs
  · rw [hwindows, hcopies]
    exact List.Pairwise.nil
  · intro herr
    rcases hok herr with ⟨rfl, hpkt⟩
    refine ⟨[], .untagged (List.not_mem_nil), ?_, hcopies, hmods, ?_, ?_⟩
    · exact hsize.symm
    · rw [hwindows, hcopies]
      exact List.Perm.nil
    · rw [hpkt]
      rfl

/-- What the walk has laid out is a safe layout, and a full one holds its tags. -/
theorem Laid.layoutSafe {desc : Option Bytes} (h : Laid done left r)
    (hok : r.err = none → left = 0 ∧ TagsIn (desc.getD []) done) : LayoutSafe desc r := by
  have htiles : Tiles 0 (along JpTag.segmentAt 0 done) r.spec.pktSize := by
    rw [h.pktSize, ← Int.zero_add (lengthSum done)]
    exact tiles_along (fun t ht => (h.fits t ht).2) 0
  have hperm : (along JpTag.segmentAt 0 done).Perm (r.windows ++ r.copies) := by
    rw [Setup.windows, h.mods, h.copies]
    exact along_perm (fun t ht => (h.fits t ht).1) 0
  have halloc : r.spec.allocated = (packetOf done).length + left := by
    rw [JpSpec.allocated, h.pkt, Option.getD_some, List.length_append, List.length_replicate]
    rfl
  have hsize : r.spec.pktSize ≤ r.spec.allocated := by
    rw [halloc, h.pktSize, length_packetOf h.fits]
    omega
  have hinside : ∀ s ∈ r.windows ++ r.copies, s.Inside r.spec.allocated := by
    intro s hs
    exact htiles.inside hsize (hperm.mem_iff.mpr hs)
  constructor
  · exact htiles.le
  · exact hsize
  · rw [halloc]
    exact_mod_cast h.le
  · intro s hs
    exact hinside s (List.mem_append_left _ hs)
  · intro s hs
    exact hinside s (List.mem_append_right _ hs)
  · exact hperm.pairwise htiles.disjoint fun hst => hst.symm
  · intro herr
    rcases hok herr with ⟨rfl, htags⟩
    refine ⟨done, htags, htiles, h.copies, h.mods, hperm, ?_⟩
    rw [h.pkt, List.replicate_zero, List.append_nil]
    rfl

variable {desc : Bytes}

theorem parseDesc_grantable (h : desc.length + 1 < 2 ^ 31) : (parseDesc desc).Grantable := by
  -- the parser asks for no more than the text is long, or 256 bytes
  have hparse : (jpParseTags desc).Requests (· < 2 ^ 31) := by
    intro n hn
    have hle : n ≤ max desc.length 256 :=
      jpParseTags_requests (le_max_right _ _) (le_max_left _ _) n hn
    omega
  exact .bind (.kmalloc h) fun _ => hparse

theorem parseDesc_ensures (desc : Bytes) :
    (parseDesc desc).Ensures fun tags =>
      desc.length + 1 < 2 ^ 31 ∧ (jpParseTags desc).result = .ok tags ∧ ∀ t ∈ tags, t.Wf := by
  refine .bind (.kmalloc _) fun _ hlen => ?_
  intro hgrant tags htags
  exact ⟨hlen, htags, jpParseTags_wf desc hgrant tags htags⟩

theorem stopped_layoutSafe (desc : Bytes) (e : Errno) (i : ℕ) :
    LayoutSafe (some desc) (stopped (some desc) (some e) i) := by
  refine layoutSafe_of_empty rfl rfl rfl (Int.natCast_nonneg _) ?_
  intro herr
  cases herr

variable {mem : Kmalloc} {i : ℕ}

/-- A granted packet has a non-negative size: a negative `int` becomes a request of
almost 2^64 bytes. -/
theorem totals_pktSize_nonneg {head : List JpTag}
    (hgrant : mem.grants i (sizeOfInt (totals head).pktSize) = true) :
    0 ≤ (totals head).pktSize := by
  have hlt := mem.bounded _ _ hgrant
  have hlo : -2 ^ 31 ≤ (totals head).pktSize := by
    rw [totals_pktSize]
    exact (wrapInt_range _).1
  by_contra hneg
  have := sizeOfInt_of_neg hlo (by omega)
  omega

theorem sizeOfInt_totals {head : List JpTag} (h : 0 ≤ (totals head).pktSize) :
    (sizeOfInt (totals head).pktSize : ℤ) = (totals head).pktSize := by
  have hhi : (totals head).pktSize < 2 ^ 31 := by
    rw [totals_pktSize]
    exact (wrapInt_range _).2
  rw [sizeOfInt_of_nonneg h hhi]
  exact Int.toNat_of_nonneg h

/-- The part after parsing places nothing, or gets to the second walk. -/
theorem compileTags_cases (mem : Kmalloc) (i : ℕ) (desc : Bytes) (head : List JpTag) :
    LayoutSafe (some desc) (compileTags mem i desc head) ∨
      ((totals head).nqinit = 0 ∨ head.length = 1) ∧ 0 ≤ (totals head).pktSize ∧
        (totals head).pktSize ≤ messageMaxSize ∧
        (totals head).modsSize * jpModifierSize < 2 ^ 31 ∧
        compileTags mem i desc head = layTags mem head.reverse (walkStart desc head (i + 2)) := by
  unfold compileTags
  rw [totals_ntags]
  split
  · exact .inl (stopped_layoutSafe ..)
  next hqinit =>
  split
  · exact .inl (stopped_layoutSafe ..)
  next hmax =>
  split
  next hpkt hmods =>
    exact .inr ⟨by omega, totals_pktSize_nonneg hpkt, by omega, mem.bounded _ _ hmods, rfl⟩
  next hpkt hmods =>
    refine .inl (layoutSafe_of_empty rfl rfl rfl ?_ fun herr => nomatch herr)
    show ((List.replicate (sizeOfInt (totals head).pktSize) (0 : U8)).length : ℤ) ≤ _
    rw [List.length_replicate, sizeOfInt_totals (totals_pktSize_nonneg hpkt)]
    omega
  · exact .inl (stopped_layoutSafe ..)

/-- A call places nothing, or it gets to the second walk with a descriptor that
compiles. -/
theorem jpSpecSetup_cases (mem : Kmalloc) (i : ℕ) (spec : JpSpec) :
    LayoutSafe spec.desc (jpSpecSetup mem i spec) ∨
      ∃ desc tags j, spec.desc = some desc ∧ Compiles desc tags ∧ (∀ t ∈ tags, t.Wf) ∧
        jpSpecSetup mem i spec = layTags mem tags.reverse (walkStart desc tags j) := by
  unfold jpSpecSetup
  cases hdesc : spec.desc with
  | none =>
    exact .inl (layoutSafe_of_empty rfl rfl rfl (Int.natCast_nonneg _) fun _ => ⟨rfl, rfl⟩)
  | some desc =>
    dsimp only
    rcases hparse : (parseDesc desc).run mem i with ⟨res, j⟩
    cases res with
    | error e => exact .inl (stopped_layoutSafe ..)
    | ok tags =>
      rcases (parseDesc_ensures desc).run hparse with ⟨hdup, hparses, hwf⟩
      rcases compileTags_cases mem j desc tags with hsafe | ⟨hqinit, hlo, hhi, hmods, heq⟩
      · exact .inl hsafe
      · rw [totals_pktSize] at hlo hhi
        exact .inr ⟨desc, tags, j + 2, rfl, ⟨hparses, hdup, hqinit, hlo, hhi, hmods⟩, hwf, heq⟩

variable {spec : JpSpec}

/-- With memory for every request, a descriptor that compiles is walked. -/
theorem jpSpecSetup_compiles (hdesc : spec.desc = some desc) (h : Compiles desc tags) :
    (∀ t ∈ tags, t.Wf) ∧
      ∃ j, jpSpecSetup .generous 0 spec = layTags .generous tags.reverse (walkStart desc tags j) := by
  have hgrant := parseDesc_grantable h.duplicable
  have hresult : (parseDesc desc).result = .ok tags := h.parses
  have hrun := Routine.run_generous hgrant 0
  rw [hresult] at hrun
  have hmax : ¬ (totals tags).pktSize > messageMaxSize := by
    rw [totals_pktSize]
    exact not_lt.mpr h.sum_le
  have hpkt : ∀ i, Kmalloc.generous.grants i (sizeOfInt (totals tags).pktSize) = true := by
    intro i
    have hle := h.sum_le
    rw [messageMaxSize] at hle
    refine decide_eq_true ?_
    rw [totals_pktSize, sizeOfInt_of_nonneg h.sum_nonneg (by omega)]
    omega
  have hmods : ∀ i, Kmalloc.generous.grants i ((totals tags).modsSize * jpModifierSize) = true :=
    fun i => decide_eq_true h.mods_fit
  refine ⟨(parseDesc_ensures desc hgrant tags hresult).2.2, ?_⟩
  unfold jpSpecSetup
  rw [hdesc]
  dsimp only
  rw [hrun]
  dsimp only
  unfold compileTags
  rw [if_neg (by rw [totals_ntags]; have := h.qinit_alone; omega), if_neg hmax, hpkt, hmods]
  exact ⟨_, rfl⟩

/-! ## The allocator -/

/-- What an allocator grants, the generous one grants. -/
theorem generous_of_grants {n : ℕ} (h : mem.grants i n = true) (j : ℕ) :
    Kmalloc.generous.grants j n = true :=
  decide_eq_true (mem.bounded i n h)

theorem copyLiteral_spec (h : r.spec = r'.spec) (tag : JpTag) :
    (r.copyLiteral tag).spec = (r'.copyLiteral tag).spec := by
  unfold Setup.copyLiteral
  cases tag.pkt with
  | none => exact h
  | some pkt =>
    dsimp only
    rw [h]

theorem addModifier_spec (h : r.spec = r'.spec) (func : JpModifierFunc) (tag : JpTag) :
    (r.addModifier func tag).spec = (r'.addModifier func tag).spec := by
  unfold Setup.addModifier
  dsimp only
  rw [h]

theorem advance_spec (h : r.spec = r'.spec) (tag : JpTag) :
    (r.advance tag).spec = (r'.advance tag).spec := by
  unfold Setup.advance
  dsimp only
  rw [h]

theorem copyLiteral_err (r : Setup) (tag : JpTag) : (r.copyLiteral tag).err = r.err := by
  unfold Setup.copyLiteral
  cases tag.pkt <;> rfl

/-- A walk that succeeds on some allocator gives the same packet on the generous one. -/
theorem layTags_generous (hspec : r.spec = r'.spec) (herr : r'.err = none)
    (h : (layTags mem tags r).err = none) :
    (layTags .generous tags r').err = none ∧
      (layTags .generous tags r').spec = (layTags mem tags r).spec := by
  induction tags generalizing r r' with
  | nil => exact ⟨herr, hspec.symm⟩
  | cons tag tags ih =>
    have hcopy := copyLiteral_spec hspec tag
    have herr' : (r'.copyLiteral tag).err = none := (copyLiteral_err r' tag).trans herr
    rw [layTags] at h ⊢
    rw [layTags]
    cases hfunc : tag.func with
    | none =>
      rw [hfunc] at h
      exact ih (advance_spec hcopy tag) herr' h
    | some func =>
      rw [hfunc] at h
      dsimp only at h ⊢
      cases hctx : tag.ctx with
      | none =>
        rw [hctx] at h
        exact ih (advance_spec (addModifier_spec hcopy func tag) tag) herr' h
      | some ctx =>
        rw [hctx] at h
        dsimp only at h ⊢
        split at h
        · next hgrant =>
          rw [if_pos (generous_of_grants hgrant _), if_pos hgrant]
          refine ih (advance_spec (addModifier_spec ?_ func tag) tag) ?_ h
          · exact hcopy
          · exact herr'
        · cases h

theorem layTags_desc (mem : Kmalloc) (tags : List JpTag) (r : Setup) :
    (layTags mem tags r).spec.desc = r.spec.desc := by
  induction tags generalizing r with
  | nil => rfl
  | cons tag tags ih =>
    have hcopy : (r.copyLiteral tag).spec.desc = r.spec.desc := by
      unfold Setup.copyLiteral
      cases tag.pkt <;> rfl
    rw [layTags]
    cases tag.func with
    | none => exact (ih _).trans hcopy
    | some func =>
      dsimp only
      cases tag.ctx with
      | none => exact (ih _).trans hcopy
      | some ctx =>
        dsimp only
        split
        · exact (ih _).trans hcopy
        · exact hcopy

/-- The descriptor is never touched. -/
theorem jpSpecSetup_desc (mem : Kmalloc) (i : ℕ) (spec : JpSpec) :
    (jpSpecSetup mem i spec).spec.desc = spec.desc := by
  unfold jpSpecSetup
  cases spec.desc with
  | none => rfl
  | some desc =>
    dsimp only
    rcases (parseDesc desc).run mem i with ⟨res, j⟩
    cases res with
    | error e => rfl
    | ok head =>
      dsimp only
      unfold compileTags
      split
      · rfl
      split
      · rfl
      split
      · exact layTags_desc mem head.reverse _
      · rfl
      · rfl

/-- The descriptor of a call that succeeds could be duplicated. -/
theorem jpSpecSetup_desc_lt (hdesc : spec.desc = some desc)
    (h : (jpSpecSetup mem i spec).err = none) : desc.length + 1 < 2 ^ 31 := by
  unfold jpSpecSetup at h
  rw [hdesc] at h
  dsimp only at h
  rcases hrun : (parseDesc desc).run mem i with ⟨res, j⟩
  rw [hrun] at h
  cases res with
  | error e => cases h
  | ok head => exact ((parseDesc_ensures desc).run hrun).1

/-- A descriptor that compiles on some allocator compiles to the same packet on the
generous one, whatever was compiled before. -/
theorem jpSpecSetup_generous {spec' : JpSpec} (hdesc : spec'.desc = spec.desc)
    (h : (jpSpecSetup mem i spec).err = none) (j : ℕ) :
    (jpSpecSetup .generous j spec').err = none ∧
      (jpSpecSetup .generous j spec').spec = (jpSpecSetup mem i spec).spec := by
  unfold jpSpecSetup at h ⊢
  rw [hdesc]
  cases hd : spec.desc with
  | none => exact ⟨rfl, rfl⟩
  | some desc =>
    rw [hd] at h
    dsimp only at h ⊢
    rcases hrun : (parseDesc desc).run mem i with ⟨res, k⟩
    rw [hrun] at h
    cases res with
    | error e => cases h
    | ok head =>
      -- all requests of the parser are granted again
      rcases Routine.run_ok hrun with ⟨hgrantable, hresult⟩
      have hrun' := Routine.run_generous hgrantable j
      rw [hresult] at hrun'
      rw [hrun']
      dsimp only at h ⊢
      unfold compileTags at h ⊢
      split at h
      · cases h
      next hqinit =>
      split at h
      · cases h
      next hmax =>
      rw [if_neg hqinit, if_neg hmax, if_neg hqinit, if_neg hmax]
      cases hpkt : mem.grants k (sizeOfInt (totals head).pktSize) with
      | false =>
        rw [hpkt] at h
        cases h
      | true =>
        cases hmods : mem.grants (k + 1) ((totals head).modsSize * jpModifierSize) with
        | false =>
          rw [hpkt, hmods] at h
          cases h
        | true =>
          rw [hpkt, hmods] at h
          rw [generous_of_grants hpkt, generous_of_grants hmods]
          exact layTags_generous rfl rfl h

theorem lengthSum_reverse (tags : List JpTag) : lengthSum tags.reverse = lengthSum tags := by
  unfold lengthSum
  rw [List.map_reverse, List.sum_reverse]

/-- The zeroed packet, before the second walk. -/
theorem laid_walkStart (desc : Bytes) (hwf : ∀ t ∈ tags, t.Wf) (hfit : LengthsFit tags) (i : ℕ) :
    Laid [] (packetOf tags.reverse).length (walkStart desc tags i) := by
  rcases hfit with ⟨hnonneg, hmax⟩
  have hlen : ((packetOf tags.reverse).length : ℤ) = lengthSum tags := by
    rw [← lengthSum_reverse]
    refine length_packetOf ?_
    intro t ht
    exact ⟨hwf t (List.mem_reverse.mp ht), hnonneg t (List.mem_reverse.mp ht)⟩
  have hwrap : (totals tags).pktSize = lengthSum tags := by
    rw [messageMaxSize] at hmax
    rw [totals_pktSize]
    exact wrapInt_of_range (by omega) (by omega)
  have hsize : sizeOfInt (totals tags).pktSize = (packetOf tags.reverse).length := by
    have hcast := sizeOfInt_totals (show 0 ≤ (totals tags).pktSize by omega)
    omega
  constructor
  · intro t ht
    cases ht
  · exact congrArg (fun n => some (List.replicate n 0)) hsize
  · rfl
  · rfl
  · rfl
  · rw [packetOf, List.flatMap_nil, List.length_nil, Nat.zero_add]
    omega

/-- Lengths that fit are laid out safely, whatever the allocator answers. -/
theorem layTags_layoutSafe (mem : Kmalloc) (j : ℕ) (h : Compiles desc tags) (hwf : ∀ t ∈ tags, t.Wf)
    (hfit : LengthsFit tags) :
    LayoutSafe (some desc) (layTags mem tags.reverse (walkStart desc tags j)) := by
  have hfit' : ∀ t ∈ tags.reverse, t.Wf ∧ 0 ≤ t.pktSize := by
    intro t ht
    exact ⟨hwf t (List.mem_reverse.mp ht), hfit.1 t (List.mem_reverse.mp ht)⟩
  rcases @layTags_laid mem _ _ _ hfit' (laid_walkStart desc hwf hfit j) rfl with
    ⟨-, hlaid⟩ | ⟨herr, front, left, hlaid⟩
  · exact hlaid.layoutSafe fun _ => ⟨rfl, jpParseTags_iff.mp h.parses⟩
  · refine hlaid.layoutSafe ?_
    rw [herr]
    intro hnone
    cases hnone

/-- If a full walk is safe, the lengths fit: they tile the packet. -/
theorem lengthsFit_of_layoutSafe {j : ℕ} (h : Compiles desc tags) (hwf : ∀ t ∈ tags, t.Wf)
    (hsafe : LayoutSafe (some desc) (layTags .generous tags.reverse (walkStart desc tags j))) :
    LengthsFit tags := by
  have herr := layTags_generous_err (fun t ht => hwf t (List.mem_reverse.mp ht))
    (walkStart desc tags j) rfl
  rcases hsafe.holds herr with ⟨tags', htags', hholds⟩
  -- the tags of the text are those that were parsed
  rw [htags'.unique (jpParseTags_iff.mp h.parses)] at hholds
  have hlen := segmentAt_len 0 tags.reverse
  constructor
  · intro t ht
    have hmem : t.pktSize ∈ tags.reverse.map JpTag.pktSize :=
      List.mem_map_of_mem (List.mem_reverse.mpr ht)
    rw [← hlen] at hmem
    rcases List.mem_map.mp hmem with ⟨s, hs, hst⟩
    rw [← hst]
    exact (hholds.tiles.bounds hs).1
  · have hsum := hholds.tiles.sum_len
    rw [hlen, Int.zero_add] at hsum
    have hle := hsafe.size_le
    have hmax := hsafe.allocated_le
    rw [← lengthSum_reverse]
    show (tags.reverse.map JpTag.pktSize).sum ≤ _
    omega

/-- For every descriptor and every prior state, `jp_spec_setup` lays the packet out
safely on every allocator if and only if a descriptor that compiles has no
negative length and no sum beyond the limit before wrapping. -/
theorem jpSpecSetup_layoutSafe_iff (spec : JpSpec) :
    (∀ mem i, LayoutSafe spec.desc (jpSpecSetup mem i spec)) ↔
      ∀ desc tags, spec.desc = some desc → Compiles desc tags → LengthsFit tags := by
  constructor
  · intro hsafe desc tags hdesc hcomp
    rcases jpSpecSetup_compiles hdesc hcomp with ⟨hwf, j, heq⟩
    have hwalk := hsafe .generous 0
    rw [heq, hdesc] at hwalk
    exact lengthsFit_of_layoutSafe hcomp hwf hwalk
  · intro hfit mem i
    rcases jpSpecSetup_cases mem i spec with hsafe | ⟨desc, tags, j, hdesc, hcomp, hwf, heq⟩
    · exact hsafe
    · rw [heq, hdesc]
      exact layTags_layoutSafe mem j hcomp hwf (hfit desc tags hdesc hcomp)

/-- `<r -5><b 0x4141414141><r 1>`. -/
def negativeLength : JpSpec where
  desc := some (['<', 'r', ' ', '-', '5', '>', '<', 'b', ' ', '0', 'x', '4', '1', '4', '1', '4',
    '1', '4', '1', '4', '1', '>', '<', 'r', ' ', '1', '>'].map chr)
  pkt := none
  mods := []
  pktSize := 0

/-- A negative length passes all checks: the literal is copied five bytes in front
of an allocation of one byte. -/
theorem jpSpecSetup_negative_length :
    (jpSpecSetup .generous 0 negativeLength).err = none ∧
      (jpSpecSetup .generous 0 negativeLength).spec.allocated = 1 ∧
      (jpSpecSetup .generous 0 negativeLength).copies = [⟨-5, 5⟩] ∧
      ¬ LayoutSafe negativeLength.desc (jpSpecSetup .generous 0 negativeLength) := by
  have hcopies : (jpSpecSetup .generous 0 negativeLength).copies = [⟨-5, 5⟩] := by
    decide +kernel
  refine ⟨by decide +kernel, by decide +kernel, hcopies, ?_⟩
  intro hsafe
  have hinside := hsafe.copies_inside ⟨-5, 5⟩ (by rw [hcopies]; exact List.mem_singleton.mpr rfl)
  exact absurd hinside.2.1 (by decide)

end AmneziaWg.Junk
