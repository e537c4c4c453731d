import AmneziaWg.HandshakeQueue

/-!
# Parsing and dispatch of one datagram

`prepare_awg_message` works on the skb in place: each of its four attempts pulls the
padding of its kind, looks at the type word, and pushes the padding back if the word
is not in the range. `wg_packet_receive` and `wg_receive_handshake_packet` later decide
the type again, from the type word alone.

* **Model**: `attempt` and `prepareAwgMessageInPlace`, with every pull and push;
  `wgPacketReceiveRoute`, the dispatch.
* **Refinement**: `prepareAwgMessageInPlace_eq`, the pulls and pushes amount to
  `prepareAwgMessage`.
* **Coherence**: `dispatch_coherent`, what later tests say about a parsed datagram.
-/

namespace AmneziaWg

open Linux HandshakeQueue

/-! ## Model layer -/

/-- `skb_push`. -/
def Skb.push (skb : Skb) (n : ℕ) : Skb := { skb with off := skb.off - n }

/-- One of the four attempts of `prepare_awg_message`: whether it returns, and the skb
that it leaves. -/
def attempt (wg : WgDevice) (k : MsgIdx) (skb : Skb) : Bool × Skb :=
  if LenMatches wg k skb.len then
    let pulled := skb.pull (wg.junkSize k).toNat
    if mhValidate pulled.type (wg.headers k) then (true, pulled)
    else (false, pulled.push (wg.junkSize k).toNat)
  else (false, skb)

/-- The attempts for the kinds in the list, each on the skb that the one before left. -/
def attempts (wg : WgDevice) : List MsgIdx → Skb → Option MsgIdx × Skb
  | [], skb => (none, skb)
  | k :: ks, skb =>
    match attempt wg k skb with
    | (true, left) => (some k, left)
    | (false, left) => attempts wg ks left

/-- `prepare_awg_message`, step by step. The result is the branch that returned (its
value is `returnedSize`), or `none` for the result `0`. -/
def prepareAwgMessageInPlace (wg : WgDevice) (linear : Bool) (skb : Skb) : Option MsgIdx × Skb :=
  if linear then attempts wg [.init, .response, .cookie, .transport] skb else (none, skb)

/-- Where `wg_packet_receive` sends a packet. -/
inductive Route where
  | handshakeQueue
  | consumeData
  | unknown
deriving DecidableEq, Repr

/-- The dispatch of `wg_packet_receive` on the type word. -/
def wgPacketReceiveRoute (wg : WgDevice) (type : U32) : Route :=
  if IsHandshake wg type then .handshakeQueue
  else if mhValidate type (wg.headers .transport) then .consumeData
  else .unknown

/-! ## Pulls and pushes -/

variable {skb : Skb}

theorem Skb.push_pull {n : ℕ} (h : n ≤ skb.len) : (skb.pull n).push n = skb := by
  rw [Skb.pull, if_pos h, Skb.push]
  simp

variable {wg : WgDevice} {k : MsgIdx}

theorem LenMatches.junk_le {len : ℕ} (h : LenMatches wg k len) :
    (wg.junkSize k).toNat + k.messageSize ≤ len := by
  cases k with
  | transport => exact h
  | init => exact Nat.le_of_eq (Eq.symm h)
  | response => exact Nat.le_of_eq (Eq.symm h)
  | cookie => exact Nat.le_of_eq (Eq.symm h)

/-- An attempt that does not return leaves the skb as it was. -/
theorem attempt_eq (wg : WgDevice) (k : MsgIdx) (skb : Skb) :
    attempt wg k skb =
      if Fits wg skb k then (true, skb.pull (wg.junkSize k).toNat) else (false, skb) := by
  unfold attempt
  by_cases hlen : LenMatches wg k skb.len
  · have hjunk : (wg.junkSize k).toNat ≤ skb.len := by
      have := hlen.junk_le
      omega
    by_cases htype : mhValidate (skb.pull (wg.junkSize k).toNat).type (wg.headers k)
    · simp only [hlen, htype, if_true, if_pos (show Fits wg skb k from ⟨hlen, htype⟩)]
    · have hfits : ¬ Fits wg skb k := fun h => htype h.2
      simp only [hlen, htype, hfits, if_true, if_false, Skb.push_pull hjunk]
  · have hfits : ¬ Fits wg skb k := fun h => hlen h.1
    simp only [hlen, hfits, if_false]

theorem attempts_eq (wg : WgDevice) (ks : List MsgIdx) (skb : Skb) :
    attempts wg ks skb = tryKinds wg skb ks := by
  induction ks with
  | nil => rfl
  | cons k ks ih =>
    rw [attempts, tryKinds, attempt_eq]
    by_cases hfits : Fits wg skb k
    · simp only [hfits, if_true]
    · simp only [hfits, if_false]
      exact ih

/-- The pulls and pushes amount to the classification. -/
theorem prepareAwgMessageInPlace_eq (wg : WgDevice) (linear : Bool) (skb : Skb) :
    prepareAwgMessageInPlace wg linear skb = prepareAwgMessage wg linear skb := by
  unfold prepareAwgMessageInPlace prepareAwgMessage
  rw [attempts_eq]
  rfl

/-! ## Coherence -/

/-- No type word is in two of the four ranges. -/
def HeadersDisjoint (wg : WgDevice) : Prop :=
  ∀ j k w, mhValidate w (wg.headers j) → mhValidate w (wg.headers k) → j = k

theorem tryKinds_none {skb' : Skb} {ks : List MsgIdx} (h : tryKinds wg skb ks = (none, skb')) :
    skb' = skb := by
  induction ks with
  | nil =>
    cases h
    rfl
  | cons k ks ih =>
    rw [tryKinds] at h
    split at h
    · cases h
    · exact ih h

/-- The length of what is left behind the padding of the kind. -/
theorem len_of_lenMatches (h : LenMatches wg k skb.len) :
    (k ≠ .transport → (skb.pull (wg.junkSize k).toNat).len = k.messageSize) ∧
      k.messageSize ≤ (skb.pull (wg.junkSize k).toNat).len := by
  have hle := h.junk_le
  rw [len_pull (by omega)]
  constructor
  · intro hk
    have heq : skb.len = (wg.junkSize k).toNat + k.messageSize := by
      cases k with
      | transport => exact absurd rfl hk
      | init => exact h
      | response => exact h
      | cookie => exact h
    omega
  · omega

/-- The dispatch follows the one range that holds the type word. -/
theorem route_eq {type : U32} (h : ∀ j, mhValidate type (wg.headers j) ↔ j = k) :
    wgPacketReceiveRoute wg type = if k = .transport then .consumeData else .handshakeQueue := by
  have hhandshake : IsHandshake wg type ↔ k ≠ .transport := by
    unfold IsHandshake
    rw [h, h, h]
    cases k <;> simp
  unfold wgPacketReceiveRoute
  by_cases hk : k = .transport
  · have hno : ¬ IsHandshake wg type := fun hyes => hhandshake.mp hyes hk
    have htransport : mhValidate type (wg.headers .transport) := (h _).mpr hk.symm
    rw [if_neg hno, if_pos htransport, if_pos hk]
  · rw [if_pos (hhandshake.mpr hk), if_neg hk]

/-- What the later tests and casts find in a datagram that was parsed as kind `k` and
left as `skb`. -/
structure Coherent (wg : WgDevice) (k : MsgIdx) (skb : Skb) : Prop where
  /-- The value returned is not zero, and so many bytes are there. -/
  returned : 0 < returnedSize k ∧ returnedSize k ≤ skb.len
  /-- Of the four tests exactly the one of the parser's branch succeeds. -/
  tests : ∀ j, mhValidate skb.type (wg.headers j) ↔ j = k
  /-- A handshake message has the size of its struct, with room for the MACs. -/
  handshake : k ≠ .transport → skb.len = k.messageSize ∧ messageMacsSize ≤ skb.len
  /-- Transport data has a whole header. -/
  transport : k = .transport → messageTransportSize ≤ skb.len
  route : wgPacketReceiveRoute wg skb.type =
    if k = .transport then .consumeData else .handshakeQueue
  /-- Every struct that the worker casts the data to lies within it. -/
  casts : ∀ env load, ∀ j ∈ wgReceiveHandshakePacket wg env load skb,
    j = k ∧ j.messageSize ≤ skb.len

/-- With disjoint ranges, for every datagram: if the parser takes a branch, all later
tests agree with it; if it takes none, the skb is as it was. -/
theorem dispatch_coherent (wg : WgDevice) (hdisjoint : HeadersDisjoint wg) (linear : Bool)
    (skb : Skb) :
    (∀ k left, prepareAwgMessageInPlace wg linear skb = (some k, left) → Coherent wg k left) ∧
      (∀ left, prepareAwgMessageInPlace wg linear skb = (none, left) →
        left.off = skb.off ∧ left.len = skb.len ∧ left = skb) := by
  rw [prepareAwgMessageInPlace_eq]
  constructor
  · intro k left h
    rcases prepareAwgMessage_some h with ⟨hlen, hleft, htype⟩
    rcases len_of_lenMatches hlen with ⟨hexact, hsize⟩
    rw [← hleft] at hexact hsize
    have htests : ∀ j, mhValidate left.type (wg.headers j) ↔ j = k := by
      intro j
      constructor
      · intro hj
        exact hdisjoint j k left.type hj htype
      · intro hj
        rw [hj]
        exact htype
    constructor
    · cases k <;> exact ⟨by decide, le_trans (by decide) hsize⟩
    · exact htests
    · intro hk
      refine ⟨hexact hk, le_trans ?_ hsize⟩
      cases k with
      | transport => exact absurd rfl hk
      | init => decide
      | response => decide
      | cookie => decide
    · intro hk
      subst hk
      exact hsize
    · exact route_eq htests
    · intro env load j hj
      have hjk : j = k := (htests j).mp (casts_validate hj).2
      rw [hjk]
      exact ⟨rfl, hsize⟩
  · intro left h
    have hleft : left = skb := by
      unfold prepareAwgMessage at h
      split at h
      · exact tryKinds_none h
      · cases h
        rfl
    rw [hleft]
    exact ⟨rfl, rfl, rfl⟩

/-- A new device, and a response that it parses. -/
theorem dispatch_coherent_response :
    prepareAwgMessageInPlace wgSetup true ⟨plainResponse, 0⟩ =
        (some .response, ⟨plainResponse, 0⟩) ∧
      Coherent wgSetup .response ⟨plainResponse, 0⟩ := by
  have hdisjoint : HeadersDisjoint wgSetup := by
    have hapart : RangesApart wgSetup := by
      show (msgIdxs.map wgSetup.headers).Pairwise MagicHeader.Apart
      decide
    intro j k w hj hk
    exact hapart.unique hj hk
  have hparse : prepareAwgMessageInPlace wgSetup true ⟨plainResponse, 0⟩ =
      (some .response, ⟨plainResponse, 0⟩) := by
    decide +kernel
  exact ⟨hparse, (dispatch_coherent wgSetup hdisjoint true ⟨plainResponse, 0⟩).1 _ _ hparse⟩

end AmneziaWg
