import AmneziaWg.Imitate.Writers

/-!
# What the fillers touch

`imitate_fill_prefix` gets a datagram whose padding was never written, and
`imitate_fill_whole` a packet of which nothing was. Both must write all of it, and the
first must neither read it nor touch what follows.

* **Model**: `prefixReads`, where `imitate_fill_prefix` looks at the buffer; `wholeWrites`.
* **Frame**: `fills_exactly`.
-/

namespace AmneziaWg

open Linux Writes

/-! ## Model layer -/

/-- The places that `imitate_fnv1a_seed` reads. -/
def seedReads (padding total : ℕ) : List ℕ :=
  let n := if total - padding > 64 then 64 else total - padding
  (List.range n).map (padding + ·)

/-- The places that `txid` is taken from. -/
def txidReads (padding total : ℕ) : List ℕ :=
  (if total - padding > 0 then [padding] else []) ++
    (if total - padding > 1 then [padding + 1] else [])

/-- The places that `imitate_fill_prefix` reads: the writers only write. -/
def prefixReads (p : ImitateProto) (padding total : ℕ) : List ℕ :=
  match p with
  | .dns => seedReads padding total ++ txidReads padding total
  | _ => seedReads padding total

/-- The writes of `imitate_fill_whole` on a packet of `len` bytes. -/
def wholeWrites (p : ImitateProto) (seed : U32) (len : ℕ) : List (ℕ × U8) :=
  match p with
  | .quic => writeQuicShort len seed
  | .dns => writeDnsMsg len len ((seed >>> 8).setWidth 8, seed.setWidth 8)
  | .stun => writeStun len seed
  | .sip => writeSip len len seed
  | .none => []

theorem imitateFillWhole_eq (p : ImitateProto) (seed : U32) (buf : Bytes) :
    imitateFillWhole p seed buf = stores (wholeWrites p seed buf.length) buf := by
  cases p <;> rfl

variable {p : ImitateProto}

theorem wholeWrites_fills (hp : p ≠ .none) (seed : U32) (len : ℕ) :
    Fills 0 len (wholeWrites p seed len) := by
  cases p with
  | none => exact absurd rfl hp
  | quic => exact writeQuicShort_fills _ _
  | dns => exact writeDnsMsg_fills _ _ _
  | stun => exact writeStun_fills _ _
  | sip => exact writeSip_fills _ _ _

/-! ## Reads -/

variable {padding total i : ℕ}

theorem mem_seedReads :
    i ∈ seedReads padding total ↔ padding ≤ i ∧ i < padding + 64 ∧ i < total := by
  simp only [seedReads, List.mem_map, List.mem_range]
  constructor
  · rintro ⟨j, hj, rfl⟩
    split at hj <;> omega
  · intro h
    refine ⟨i - padding, ?_, by omega⟩
    split <;> omega

theorem mem_txidReads (h : i ∈ txidReads padding total) : padding ≤ i ∧ i < total := by
  unfold txidReads at h
  rcases List.mem_append.mp h with h | h
  · split at h
    · rw [List.mem_singleton] at h
      omega
    · cases h
  · split at h
    · rw [List.mem_singleton] at h
      omega
    · cases h

/-- Nothing is read but the front of what follows the padding. -/
theorem prefixReads_inside (h : i ∈ prefixReads p padding total) : padding ≤ i ∧ i < total := by
  have hseed : i ∈ seedReads padding total → padding ≤ i ∧ i < total := by
    intro h
    have := mem_seedReads.mp h
    omega
  cases p with
  | dns =>
    rcases List.mem_append.mp h with h | h
    · exact hseed h
    · exact mem_txidReads h
  | none => exact hseed h
  | quic => exact hseed h
  | stun => exact hseed h
  | sip => exact hseed h

theorem seedReads_subset (p : ImitateProto) (padding total : ℕ) :
    ∀ i ∈ seedReads padding total, i ∈ prefixReads p padding total := by
  intro i hi
  cases p with
  | dns => exact List.mem_append_left _ hi
  | none => exact hi
  | quic => exact hi
  | stun => exact hi
  | sip => exact hi

/-- Payloads that agree where the seed reads have one seed. -/
theorem seed_congr {buf buf' : Bytes} (hlen : buf'.length = buf.length)
    (h : ∀ i ∈ seedReads padding buf.length, buf'[i]? = buf[i]?) :
    imitateFnv1aSeed (buf'.drop padding) = imitateFnv1aSeed (buf.drop padding) := by
  have htake : (buf'.drop padding).take 64 = (buf.drop padding).take 64 := by
    apply List.ext_getElem?
    intro i
    rw [List.getElem?_take, List.getElem?_take, List.getElem?_drop, List.getElem?_drop]
    by_cases hi : i < 64
    · rw [if_pos hi, if_pos hi]
      by_cases hin : padding + i < buf.length
      · exact h _ (mem_seedReads.mpr ⟨by omega, by omega, hin⟩)
      · rw [List.getElem?_eq_none (by omega), List.getElem?_eq_none (by omega)]
    · rw [if_neg hi, if_neg hi]
  unfold imitateFnv1aSeed
  rw [htake]

/-- Buffers that agree where `imitate_fill_prefix` reads get the same writes. -/
theorem prefixWrites_congr {buf buf' : Bytes} (hlen : buf'.length = buf.length)
    (h : ∀ i ∈ prefixReads p padding buf.length, buf'[i]? = buf[i]?) :
    prefixWrites p padding (buf'.drop padding) = prefixWrites p padding (buf.drop padding) := by
  have hseed := seed_congr hlen fun i hi => h i (seedReads_subset p padding _ i hi)
  have htotal : (buf'.drop padding).length = (buf.drop padding).length := by
    rw [List.length_drop, List.length_drop, hlen]
  -- the transaction id is the first two bytes, which the seed reads as well
  have htxid : ∀ j < 2, (buf'.drop padding).getD j 0 = (buf.drop padding).getD j 0 := by
    intro j hj
    rw [List.getD_eq_getElem?_getD, List.getD_eq_getElem?_getD, List.getElem?_drop,
      List.getElem?_drop]
    by_cases hin : padding + j < buf.length
    · rw [h _ (seedReads_subset p padding _ _ (mem_seedReads.mpr ⟨by omega, by omega, hin⟩))]
    · rw [List.getElem?_eq_none (by omega), List.getElem?_eq_none (by omega)]
  unfold prefixWrites
  dsimp only
  rw [hseed, htotal, htxid 0 (by omega), htxid 1 (by omega)]

/-! ## Frame -/

/-- The fillers, for every protocol but none.
* `imitate_fill_prefix` on a datagram of padding and payload: it reads inside the payload,
  writes every byte of the padding and nothing else; the payload stays as it was, and the
  padding depends on the bytes read alone, so not on what it held before.
* `imitate_fill_whole` on `len` bytes, in memory of any length: it writes all of them and
  nothing else, whatever they held before. -/
theorem fills_exactly (p : ImitateProto) (hp : p ≠ .none) :
    (∀ (buf : Bytes) (padding : ℕ), 0 < padding → padding < buf.length →
      (∀ i ∈ prefixReads p padding buf.length, padding ≤ i ∧ i < buf.length) ∧
      (∀ i, (∃ w ∈ prefixWrites p padding (buf.drop padding), w.1 = i) ↔ i < padding) ∧
      (imitateFillPrefix p padding buf).length = buf.length ∧
      (imitateFillPrefix p padding buf).drop padding = buf.drop padding ∧
      ∀ buf' : Bytes, buf'.length = buf.length →
        (∀ i ∈ prefixReads p padding buf.length, buf'[i]? = buf[i]?) →
        (imitateFillPrefix p padding buf').take padding =
          (imitateFillPrefix p padding buf).take padding) ∧
    (∀ (seed : U32) (len : ℕ), 0 < len →
      (∀ i, (∃ w ∈ wholeWrites p seed len, w.1 = i) ↔ i < len) ∧
      (∀ buf : Bytes, buf.length = len →
        imitateFillWhole p seed buf = imitateFillWhole p seed (List.replicate len 0)) ∧
      ∀ mem : Bytes, len ≤ mem.length →
        (stores (wholeWrites p seed len) mem).take len =
          imitateFillWhole p seed (List.replicate len 0) ∧
        (stores (wholeWrites p seed len) mem).drop len = mem.drop len) := by
  have hexact : ∀ {n : ℕ} {ws : List (ℕ × U8)}, Fills 0 n ws →
      ∀ i, (∃ w ∈ ws, w.1 = i) ↔ i < n := by
    intro n ws hfills i
    constructor
    · rintro ⟨w, hw, rfl⟩
      exact (hfills.inside w hw).2
    · intro hi
      exact hfills.covers i (Nat.zero_le i) hi
  have hlen : ∀ (n : ℕ) (ws : List (ℕ × U8)),
      (stores ws (List.replicate n (0 : U8))).length = n := by
    intro n ws
    rw [length_stores, List.length_replicate]
  constructor
  · intro buf padding hpos hlt
    have hrun : ∀ b : Bytes, b.length = buf.length → imitateFillPrefix p padding b =
        stores (prefixWrites p padding (b.drop padding)) (List.replicate padding 0) ++
          b.drop padding := by
      intro b hb
      have hnot : ¬ (padding = 0 ∨ padding ≥ b.length) := by omega
      rw [imitateFillPrefix, if_neg hnot]
      exact (prefixWrites_fills hp padding _).stores_eq 0 (by omega)
    refine ⟨?_, hexact (prefixWrites_fills hp padding _), ?_, ?_, ?_⟩
    · intro i hi
      exact prefixReads_inside hi
    · rw [hrun buf rfl, List.length_append, hlen, List.length_drop]
      omega
    · rw [hrun buf rfl, List.drop_left' (hlen ..)]
    · intro buf' hbuf' hagree
      rw [hrun buf' hbuf', hrun buf rfl, List.take_left' (hlen ..), List.take_left' (hlen ..),
        prefixWrites_congr hbuf' hagree]
  · intro seed len _
    have hfills := wholeWrites_fills hp seed len
    have hwhole : imitateFillWhole p seed (List.replicate len 0) =
        stores (wholeWrites p seed len) (List.replicate len 0) := by
      rw [imitateFillWhole_eq, List.length_replicate]
    refine ⟨hexact hfills, ?_, ?_⟩
    · intro buf hbuf
      subst hbuf
      rw [hwhole, imitateFillWhole_eq, hfills.stores_eq 0 (le_refl _), List.drop_length,
        List.append_nil]
    · intro mem hmem
      rw [hfills.stores_eq 0 hmem, hwhole]
      exact ⟨List.take_left' (hlen ..), List.drop_left' (hlen ..)⟩

/-- One QUIC padding byte in front of one byte of payload. -/
theorem fills_exactly_quic :
    (imitateFillPrefix .quic 1 [0xAA, 7]).drop 1 = [7] ∧
      (imitateFillPrefix .quic 1 [0xBB, 7]).take 1 = (imitateFillPrefix .quic 1 [0xAA, 7]).take 1 := by
  have h := (fills_exactly .quic (by decide)).1 [0xAA, 7] 1 (by decide) (by decide)
  exact ⟨h.2.2.2.1, h.2.2.2.2 [0xBB, 7] rfl (by decide)⟩

end AmneziaWg
