import AmneziaWg.Imitate.Writers
import AmneziaWg.Lib.Stun

/-!
# The STUN filler is a STUN message

`write_stun` lays out the attributes first, sized by the room that is left, and the header
last, over the length it has counted.

* **Layout**: `StunArea.Holds`, the area under way is a list of attributes;
  `writeStun_lays`, the whole filler is a header, the attributes and zeros.
* **Reading**: a reader of STUN finds what `BindingSuccess` says.
-/

namespace AmneziaWg

open Linux Writes Wire

/-! ## The header -/

/-- `txn`. -/
def stunTransaction (seed : U32) : Bytes :=
  be32 seed ++ be32 (lcgStep seed) ++ be32 (lcgStep (lcgStep seed))

theorem stunHeader_eq {written : ℕ} (h : written < 256 ^ 2) (seed : U32) :
    stunHeader written seed =
      Stun.putHeader 0x0101 written 0x2112A442 (stunTransaction seed) := by
  have hlength : (BitVec.ofNat 16 written).toNat = written := by
    rw [BitVec.toNat_ofNat]
    omega
  rw [stunHeader, Stun.putHeader, stunTransaction, be16_eq, be16_eq, be32_eq stunCookie, hlength]
  rfl

/-! ## The attributes -/

/-- The attributes that the area consists of. -/
structure StunArea.Holds (a : StunArea) (attributes : List Stun.Attribute) : Prop where
  lays : Lays 20 (attributes.flatMap Stun.putAttribute) a.writes
  length : (attributes.flatMap Stun.putAttribute).length = a.written

/-- XOR-MAPPED-ADDRESS. -/
def IsMapped (a : Stun.Attribute) : Prop := a.type = 0x0020 ∧ a.value.length = 8

/-- SOFTWARE, in printable characters. -/
def IsSoftware (a : Stun.Attribute) : Prop :=
  a.type = 0x8022 ∧ a.value.length % 4 = 0 ∧ a.value.length ≤ 124 ∧
    ∀ b ∈ a.value, 0x20 ≤ b.toNat ∧ b.toNat ≤ 0x7e

theorem stunChars_printable (n : ℕ) (state : U32) :
    ∀ b ∈ stunChars n state, 0x20 ≤ b.toNat ∧ b.toNat ≤ 0x7e := by
  induction n generalizing state with
  | zero =>
    intro b hb
    cases hb
  | succ n ih =>
    intro b hb
    rw [stunChars] at hb
    rcases List.mem_cons.mp hb with rfl | hb
    · -- the remainder is below the number of printable characters
      have hchar : (0x20 + (state % 0x5F).setWidth 8 : U8).toNat = 0x20 + state.toNat % 0x5F := by
        rw [BitVec.toNat_add, BitVec.toNat_setWidth, BitVec.toNat_umod]
        have hrem : state.toNat % 0x5F < 0x5F := Nat.mod_lt _ (by omega)
        show (0x20 + state.toNat % 0x5F % 256) % 256 = _
        omega
      rw [hchar]
      omega
    · exact ih (lcgStep state) b hb

/-- A value that is a multiple of four long, behind its type and length. -/
theorem putAttribute_eq {type : U16} {t n : ℕ} {value : Bytes} (htype : type.toNat = t)
    (hvalue : value.length = n) (haligned : n % 4 = 0) (hmax : n < 256 ^ 2) :
    Stun.putAttribute ⟨t, value⟩ = be16 type ++ be16 (BitVec.ofNat 16 n) ++ value := by
  have hfill : Stun.fill n = 0 := by rw [Stun.fill, haligned]
  have hlength : (BitVec.ofNat 16 n).toNat = n := by
    rw [BitVec.toNat_ofNat]
    omega
  rw [Stun.putAttribute, hvalue, hfill, putVec, hvalue, be16_eq, be16_eq, htype, hlength,
    List.replicate_zero, List.append_nil, List.append_assoc]

theorem stunMapped_holds (body : ℕ) (state : U32) :
    ∃ mapped : List Stun.Attribute, mapped.length ≤ 1 ∧ (∀ a ∈ mapped, IsMapped a) ∧
      (stunMapped body state).Holds mapped := by
  unfold stunMapped
  split
  · dsimp only
    generalize (state >>> 16).setWidth 16 ^^^ _ = xport
    generalize lcgStep state ^^^ stunCookie = xaddr
    generalize hvalue : [0x00, 0x01] ++ be16 xport ++ be32 xaddr = value
    have hlen : value.length = 8 := by
      rw [← hvalue]
      rfl
    have hput : Stun.putAttribute ⟨0x0020, value⟩ =
        be16 0x0020 ++ be16 8 ++ [0x00, 0x01] ++ be16 xport ++ be32 xaddr := by
      rw [putAttribute_eq (show (0x0020 : U16).toNat = 0x0020 from rfl) hlen rfl (by omega),
        ← hvalue]
      simp only [List.append_assoc, BitVec.ofNat_eq_ofNat]
    refine ⟨[⟨0x0020, value⟩], Nat.le_refl 1, ?_, ?_, ?_⟩
    · intro a ha
      rw [List.mem_singleton.mp ha]
      exact ⟨rfl, hlen⟩
    · rw [List.flatMap_singleton, hput]
      exact lays_put 20 _
    · rw [List.flatMap_singleton, hput]
      rfl
  · refine ⟨[], Nat.zero_le 1, ?_, lays_nil 20, rfl⟩
    intro a ha
    cases ha

variable {attributes : List Stun.Attribute}

theorem stunSoftware_holds {body : ℕ} {a : StunArea} (h : a.Holds attributes)
    (hroom : (body - a.written) % 4 = 0) :
    ∃ software : List Stun.Attribute, software.length ≤ 1 ∧ (∀ a ∈ software, IsSoftware a) ∧
      (stunSoftware body a).Holds (attributes ++ software) := by
  unfold stunSoftware
  dsimp only
  split
  · next hrem =>
    generalize hv : (if body - a.written - 4 > 124 then 124 else body - a.written - 4) = vlen
    have hv' : vlen % 4 = 0 ∧ vlen ≤ 124 := by
      rw [← hv]
      split_ifs <;> omega
    have hchars := length_stunChars vlen a.state
    -- the length is a multiple of four, so that nothing stands behind the value
    have hput : Stun.putAttribute ⟨0x8022, stunChars vlen a.state⟩ =
        be16 0x8022 ++ be16 (BitVec.ofNat 16 vlen) ++ stunChars vlen a.state :=
      putAttribute_eq rfl hchars hv'.1 (by omega)
    refine ⟨[⟨0x8022, stunChars vlen a.state⟩], Nat.le_refl 1, ?_, ?_, ?_⟩
    · intro b hb
      rw [List.mem_singleton.mp hb]
      refine ⟨rfl, ?_, ?_, stunChars_printable vlen a.state⟩
      · rw [hchars]
        exact hv'.1
      · rw [hchars]
        exact hv'.2
    · rw [List.flatMap_append, List.flatMap_singleton, hput]
      refine h.lays.append ?_
      rw [h.length]
      exact lays_put _ _
    · rw [List.flatMap_append, List.flatMap_singleton, List.length_append, h.length, hput,
        List.length_append, List.length_append, length_be16, length_be16, hchars]
  · refine ⟨[], Nat.zero_le 1, ?_, ?_⟩
    · intro b hb
      cases hb
    · rw [List.append_nil]
      exact h

/-! ## The message -/

/-- What is said of the message: a Binding Success Response, whose attributes tile the length
that its header states, within the padding. -/
structure BindingSuccess (m : Stun.Message) (padding : ℕ) : Prop where
  type : m.type = 0x0101
  cookie : m.cookie = 0x2112A442
  aligned : m.length % 4 = 0
  fits : 20 + m.length ≤ padding
  tiled : (m.attributes.map fun a => 4 + a.value.length).sum = m.length
  attributes : ∃ mapped software, m.attributes = mapped ++ software ∧
    mapped.length ≤ 1 ∧ (∀ a ∈ mapped, IsMapped a) ∧
    software.length ≤ 1 ∧ ∀ a ∈ software, IsSoftware a

theorem stunMapped_written (body : ℕ) (state : U32) (h : body % 4 = 0) :
    (body - (stunMapped body state).written) % 4 = 0 := by
  unfold stunMapped
  split
  · show (body - 12) % 4 = 0
    omega
  · exact h

theorem stunBody_aligned (padding : ℕ) : stunBody padding % 4 = 0 := by
  unfold stunBody
  split_ifs
  · exact Nat.mul_mod_left _ 4
  · rfl

/-- The area that `write_stun` ends with. -/
theorem stunArea_holds (padding : ℕ) (state : U32) :
    ∃ mapped software : List Stun.Attribute,
      mapped.length ≤ 1 ∧ (∀ a ∈ mapped, IsMapped a) ∧
      software.length ≤ 1 ∧ (∀ a ∈ software, IsSoftware a) ∧
      (stunSoftware (stunBody padding) (stunMapped (stunBody padding) state)).Holds
        (mapped ++ software) := by
  rcases stunMapped_holds (stunBody padding) state with ⟨mapped, hone, hmapped, hholds⟩
  rcases stunSoftware_holds hholds (stunMapped_written _ state (stunBody_aligned padding)) with
    ⟨software, hone', hsoftware, hholds'⟩
  exact ⟨mapped, software, hone, hmapped, hone', hsoftware, hholds'⟩

/-- Attributes whose values need no filling tile their area. -/
theorem sum_lengths (h : ∀ a ∈ attributes, a.value.length % 4 = 0) :
    (attributes.map fun a => 4 + a.value.length).sum =
      (attributes.flatMap Stun.putAttribute).length := by
  rw [List.length_flatMap]
  refine congrArg List.sum (List.map_congr_left ?_)
  intro a ha
  exact (Stun.length_putAttribute (h a ha)).symm

/-- Whole words, and at most `k` bytes of them. -/
theorem sum_le_of_le_one {k : ℕ} (hone : attributes.length ≤ 1)
    (h : ∀ a ∈ attributes, a.value.length % 4 = 0 ∧ 4 + a.value.length ≤ k) :
    (attributes.map fun a => 4 + a.value.length).sum % 4 = 0 ∧
      (attributes.map fun a => 4 + a.value.length).sum ≤ k := by
  rcases Nat.le_one_iff_eq_zero_or_eq_one.mp hone with hzero | hone
  · rw [List.length_eq_zero_iff.mp hzero]
    exact ⟨rfl, Nat.zero_le k⟩
  · rcases List.length_eq_one_iff.mp hone with ⟨a, rfl⟩
    have ha := h a (List.mem_singleton.mpr rfl)
    rw [List.map_singleton, List.sum_singleton]
    omega

/-- The filler, when the header fits: the header, the attributes, zeros. -/
theorem writeStun_lays {padding : ℕ} (h : 20 ≤ padding) (seed : U32) :
    ∃ mapped software : List Stun.Attribute, ∃ written,
      mapped.length ≤ 1 ∧ (∀ a ∈ mapped, IsMapped a) ∧
      software.length ≤ 1 ∧ (∀ a ∈ software, IsSoftware a) ∧
      ((mapped ++ software).flatMap Stun.putAttribute).length = written ∧ 20 + written ≤ padding ∧
      Lays 0 (stunHeader written seed ++ (mapped ++ software).flatMap Stun.putAttribute ++
        List.replicate (padding - (20 + written)) 0) (writeStun padding seed) := by
  rcases stunArea_holds padding (lcgStep (lcgStep (lcgStep seed))) with
    ⟨mapped, software, hone, hmapped, hone', hsoftware, hholds⟩
  have hgood := stunSoftware_good (stunMapped_good (stunBody padding)
    (lcgStep (lcgStep (lcgStep seed))))
  have hfits := stunBody_le h
  have hle := hgood.le
  refine ⟨mapped, software, _, hone, hmapped, hone', hsoftware, hholds.length, by omega, ?_⟩
  have hheader : (stunHeader (stunSoftware (stunBody padding) (stunMapped (stunBody padding)
    (lcgStep (lcgStep (lcgStep seed))))).written seed).length = 20 := rfl
  rw [writeStun, if_neg (show padding ≠ 0 by omega)]
  dsimp only
  generalize stunSoftware (stunBody padding) _ = a at hholds hheader hle
  -- the attributes are written before the header
  have hfront : Lays 0 (stunHeader a.written seed ++ (mapped ++ software).flatMap Stun.putAttribute)
      (a.writes ++ put 0 (stunHeader a.written seed)) := by
    refine (lays_put 0 _).append_comm ?_
    rw [hheader]
    exact hholds.lays
  have hlen : (stunHeader a.written seed ++
      (mapped ++ software).flatMap Stun.putAttribute).length = 20 + a.written := by
    rw [List.length_append, hheader, hholds.length]
  rw [if_neg (show ¬padding < 20 by omega), ← hheader, List.take_length]
  refine hfront.append ?_
  rw [Nat.zero_add, hlen, hheader]
  exact lays_put _ _

/-- Below the size of a header there is only its front, of one without attributes. -/
theorem writeStun_front {padding : ℕ} (h : padding < 20) (seed : U32) :
    Lays 0 ((stunHeader 0 seed).take padding) (writeStun padding seed) := by
  by_cases hzero : padding = 0
  · rw [hzero]
    exact lays_nil 0
  · have harea : ∀ state, stunSoftware 0 (stunMapped 0 state) = ⟨[], 0, state⟩ := fun _ => rfl
    rw [writeStun, if_neg hzero, stunBody_eq_zero h]
    dsimp only
    rw [harea, if_pos h, Nat.sub_eq_zero_of_le (by omega), List.replicate_zero, put,
      List.nil_append, List.append_nil]
    exact lays_put 0 _

/-- For every padding in front of every buffer: from twenty bytes on, a reader of STUN finds a
Binding Success Response and nothing but zeros behind it; below that, the bytes are the front
of a header that states no attributes. -/
theorem writeStun_wellFormed (seed : U32) (padding : ℕ) (buf : Bytes)
    (hlen : padding ≤ buf.length) :
    (20 ≤ padding → ∃ m : Stun.Message,
      Stun.message ((stores (writeStun padding seed) buf).take padding) =
        some (m, List.replicate (padding - (20 + m.length)) 0) ∧
      BindingSuccess m padding) ∧
    (padding < 20 → ∃ txn : Bytes, txn.length = 12 ∧
      (stores (writeStun padding seed) buf).take padding =
        (Stun.putHeader 0x0101 0 0x2112A442 txn).take padding) := by
  have htxn : (stunTransaction seed).length = 12 := rfl
  constructor
  · intro h
    rcases writeStun_lays h seed with
      ⟨mapped, software, written, hone, hmapped, hone', hsoftware, hwritten, hfits, hlays⟩
    have hvalues : ∀ a ∈ mapped ++ software, a.value.length % 4 = 0 ∧ a.type < 256 ^ 2 ∧
        a.value.length < 256 ^ 2 := by
      intro a ha
      rcases List.mem_append.mp ha with ha | ha
      · have hm := hmapped a ha
        rw [hm.1, hm.2]
        decide
      · have hs := hsoftware a ha
        have hmax := hs.2.2.1
        rw [hs.1]
        exact ⟨hs.2.1, by decide, by omega⟩
    have htiled := sum_lengths fun a ha => (hvalues a ha).1
    have hsize : written % 4 = 0 ∧ written ≤ 140 := by
      have hfirst : _ ∧ _ ≤ 12 := sum_le_of_le_one hone fun a ha => by
        rw [(hmapped a ha).2]
        omega
      have hsecond : _ ∧ _ ≤ 128 := sum_le_of_le_one hone' fun a ha => by
        have hs := hsoftware a ha
        exact ⟨hs.2.1, Nat.add_le_add_left hs.2.2.1 4⟩
      rw [← hwritten, ← htiled, List.map_append, List.sum_append]
      omega
    have hheader := stunHeader_eq (show written < 256 ^ 2 by omega) seed
    rw [hheader] at hlays
    have hread := Stun.message_put (show 0x0101 < 0x4000 by decide)
      (show 0x2112A442 < 256 ^ 4 by decide) htxn (fun a ha => (hvalues a ha).2) hwritten
      (by omega) hsize.1 (List.replicate (padding - (20 + written)) 0)
    have htotal : (Stun.putHeader 0x0101 written 0x2112A442 (stunTransaction seed) ++
        (mapped ++ software).flatMap Stun.putAttribute ++
        List.replicate (padding - (20 + written)) 0).length = padding := by
      rw [List.length_append, List.length_append, Stun.length_putHeader _ _ _ htxn, hwritten,
        List.length_replicate]
      omega
    rw [hlays.take_stores htotal hlen, hread]
    exact ⟨_, rfl, rfl, rfl, hsize.1, hfits, by rw [htiled, hwritten],
      mapped, software, rfl, hone, hmapped, hone', hsoftware⟩
  · intro h
    refine ⟨stunTransaction seed, htxn, ?_⟩
    have hlays := writeStun_front h seed
    rw [stunHeader_eq (by decide) seed] at hlays
    have hcut : ((Stun.putHeader 0x0101 0 0x2112A442 (stunTransaction seed)).take padding).length =
        padding := by
      rw [List.length_take, Stun.length_putHeader _ _ _ htxn]
      omega
    exact hlays.take_stores hcut hlen

/-- Forty bytes in front of eight others: both attributes. -/
theorem writeStun_wellFormed_both :
    (∃ m : Stun.Message,
      Stun.message ((stores (writeStun 40 7) (List.replicate 48 0xff)).take 40) =
        some (m, List.replicate (40 - (20 + m.length)) 0) ∧
      BindingSuccess m 40) ∧
    ∃ txn : Bytes, txn.length = 12 ∧
      (stores (writeStun 6 7) (List.replicate 48 0xff)).take 6 =
        (Stun.putHeader 0x0101 0 0x2112A442 txn).take 6 :=
  ⟨(writeStun_wellFormed 7 40 (List.replicate 48 0xff) (by decide)).1 (by decide),
    (writeStun_wellFormed 7 6 (List.replicate 48 0xff) (by decide)).2 (by decide)⟩

end AmneziaWg
