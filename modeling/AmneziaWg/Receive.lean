import AmneziaWg.Netlink

/-!
# Classification of received datagrams

`prepare_awg_message` of `receive.c`: it tries the message kinds in a fixed order,
first by the length of the datagram, then by the type word behind that kind's
padding. The first kind for which both fit wins.

* **Model**: `Skb` (a datagram and the position of its data), `prepareAwgMessage`.
* **Soundness**: `prepareAwgMessage_some`, what a classification says.
* **Agreement**: `agrees_iff`, for which configurations a datagram that was built as
  one kind of handshake message is classified as that kind.
-/

namespace AmneziaWg

open Linux Junk Stepwise

/-! ## Model layer -/

/-- A received datagram; `skb->data` points at offset `off`. -/
structure Skb where
  payload : Bytes
  off : ℕ
deriving DecidableEq, Repr

namespace Skb

def data (skb : Skb) : Bytes := skb.payload.drop skb.off

def len (skb : Skb) : ℕ := skb.payload.length - skb.off

/-- `skb_pull`; it does nothing if there is not enough data. -/
def pull (skb : Skb) (n : ℕ) : Skb := if n ≤ skb.len then { skb with off := skb.off + n } else skb

/-- `SKB_TYPE_LE32`, in host order. -/
def type (skb : Skb) : U32 := readLe32 skb.data

end Skb

/-- The length test of a kind: exact, but for transport data. -/
def LenMatches (wg : WgDevice) (k : MsgIdx) (len : ℕ) : Prop :=
  match k with
  | .transport => len ≥ (wg.junkSize k).toNat + k.messageSize
  | _ => len = (wg.junkSize k).toNat + k.messageSize

instance (wg : WgDevice) (k : MsgIdx) (len : ℕ) : Decidable (LenMatches wg k len) :=
  match k with
  | .init => inferInstanceAs (Decidable (_ = _))
  | .response => inferInstanceAs (Decidable (_ = _))
  | .cookie => inferInstanceAs (Decidable (_ = _))
  | .transport => inferInstanceAs (Decidable (_ ≥ _))

/-- The branch of a kind is taken. -/
def Fits (wg : WgDevice) (skb : Skb) (k : MsgIdx) : Prop :=
  LenMatches wg k skb.len ∧ mhValidate (skb.pull (wg.junkSize k).toNat).type (wg.headers k)

instance (wg : WgDevice) (skb : Skb) (k : MsgIdx) : Decidable (Fits wg skb k) :=
  inferInstanceAs (Decidable (_ ∧ _))

/-- The branches for the kinds in the list. A kind whose type word does not validate
pushes the padding back, so the next one sees the datagram as it was. -/
def tryKinds (wg : WgDevice) (skb : Skb) : List MsgIdx → Option MsgIdx × Skb
  | [] => (none, skb)
  | k :: ks =>
    if Fits wg skb k then (some k, skb.pull (wg.junkSize k).toNat) else tryKinds wg skb ks

/-- `prepare_awg_message`: the kind, `none` for the result `0`, and the datagram.
`linear` is false if `skb_linearize` failed. -/
def prepareAwgMessage (wg : WgDevice) (linear : Bool) (skb : Skb) : Option MsgIdx × Skb :=
  if linear then tryKinds wg skb msgIdxs else (none, skb)

/-- The size that `prepare_awg_message` returns for a kind; for a cookie reply it is
`MESSAGE_HANDSHAKE_COOKIE`, not the size of the message. -/
def returnedSize : MsgIdx → ℕ
  | .cookie => 3
  | k => k.messageSize

/-! ## Soundness -/

variable {wg : WgDevice} {skb : Skb} {k : MsgIdx}

theorem tryKinds_some {skb' : Skb} {ks : List MsgIdx} (h : tryKinds wg skb ks = (some k, skb')) :
    k ∈ ks ∧ LenMatches wg k skb.len ∧ skb' = skb.pull (wg.junkSize k).toNat ∧
      mhValidate skb'.type (wg.headers k) := by
  induction ks with
  | nil => cases h
  | cons j ks ih =>
    rw [tryKinds] at h
    split at h
    · next hj =>
      cases h
      exact ⟨List.mem_cons_self .., hj.1, rfl, hj.2⟩
    · rcases ih h with ⟨hk, hrest⟩
      exact ⟨List.mem_cons_of_mem j hk, hrest⟩

/-- A classified datagram has the length of its kind, and is positioned behind that
kind's padding at a type word of that kind's range. -/
theorem prepareAwgMessage_some {linear : Bool} {skb' : Skb}
    (h : prepareAwgMessage wg linear skb = (some k, skb')) :
    LenMatches wg k skb.len ∧ skb' = skb.pull (wg.junkSize k).toNat ∧
      mhValidate skb'.type (wg.headers k) := by
  unfold prepareAwgMessage at h
  split at h
  · exact (tryKinds_some h).2
  · cases h

/-! ## Agreement with the sender -/

/-- Every datagram of padding and message of kind `k` is classified as `k`, and left at
the start of the message. -/
def Agrees (wg : WgDevice) (k : MsgIdx) : Prop :=
  ∀ padding message : Bytes, padding.length = (wg.junkSize k).toNat →
    message.length = k.messageSize → mhValidate (readLe32 message) (wg.headers k) →
    prepareAwgMessage wg true ⟨padding ++ message, 0⟩ =
      (some k, ⟨padding ++ message, padding.length⟩)

/-- No word is in the range. -/
def MagicHeader.Empty (mh : MagicHeader) : Prop := mh.stop < mh.start

/-- The handshake kinds that are tried before another one. -/
inductive Before : MsgIdx → MsgIdx → Prop
  | initResponse : Before .init .response
  | initCookie : Before .init .cookie
  | responseCookie : Before .response .cookie

/-- No two handshake kinds have datagrams of one length, unless one of them has no
type word at all. -/
def NoCollision (wg : WgDevice) : Prop :=
  ∀ j k, Before j k →
    (wg.junkSize j).toNat + j.messageSize = (wg.junkSize k).toNat + k.messageSize →
    (wg.headers j).Empty ∨ (wg.headers k).Empty

/-- A handshake kind that fits is the result if none before it fits. -/
theorem prepareAwgMessage_eq (hk : k ≠ .transport) (hfits : Fits wg skb k)
    (hbefore : ∀ j, Before j k → ¬ Fits wg skb j) :
    prepareAwgMessage wg true skb = (some k, skb.pull (wg.junkSize k).toNat) := by
  show tryKinds wg skb [.init, .response, .cookie, .transport] = _
  cases k with
  | init => rw [tryKinds, if_pos hfits]
  | response => rw [tryKinds, if_neg (hbefore _ .initResponse), tryKinds, if_pos hfits]
  | cookie =>
    rw [tryKinds, if_neg (hbefore _ .initCookie), tryKinds,
      if_neg (hbefore _ .responseCookie), tryKinds, if_pos hfits]
  | transport => exact absurd rfl hk

variable {j : MsgIdx}

/-- A kind before it that fits keeps a kind from being the result. -/
theorem prepareAwgMessage_ne (hjk : Before j k) (hfits : Fits wg skb j) :
    (prepareAwgMessage wg true skb).1 ≠ some k := by
  show (tryKinds wg skb [.init, .response, .cookie, .transport]).1 ≠ _
  cases hjk with
  | initResponse =>
    rw [tryKinds, if_pos hfits]
    intro h
    cases h
  | initCookie =>
    rw [tryKinds, if_pos hfits]
    intro h
    cases h
  | responseCookie =>
    -- the initiation branch may take it first
    rw [tryKinds]
    split
    · intro h
      cases h
    · rw [tryKinds, if_pos hfits]
      intro h
      cases h

/-- The padding with a chosen word at the place where kind `j` reads it. -/
def paddingWith (off : ℕ) (w : U32) (len : ℕ) : Bytes :=
  List.replicate off 0 ++ (le32 w ++ List.replicate (len - off - 4) 0)

theorem length_paddingWith {off len : ℕ} (h : off + 4 ≤ len) (w : U32) :
    (paddingWith off w len).length = len := by
  have hle32 : (le32 w).length = 4 := rfl
  rw [paddingWith, List.length_append, List.length_append, List.length_replicate,
    List.length_replicate, hle32]
  omega

theorem type_paddingWith (off : ℕ) (w : U32) (len : ℕ) (message : Bytes) :
    readLe32 ((paddingWith off w len ++ message).drop off) = w := by
  rw [paddingWith, List.append_assoc, List.drop_left' List.length_replicate, List.append_assoc]
  exact readLe32_le32 w _

/-- The difference of two lengths leaves room for a type word. -/
theorem before_room (h : Before j k) : k.messageSize + 4 ≤ j.messageSize := by
  cases h <;> decide

theorem pull_fresh {d : Bytes} {n : ℕ} (h : n ≤ d.length) : Skb.pull ⟨d, 0⟩ n = ⟨d, n⟩ := by
  have hle : n ≤ Skb.len ⟨d, 0⟩ := h
  rw [Skb.pull, if_pos hle, Nat.zero_add]

/-- The branch of a handshake kind on a fresh datagram. -/
theorem fits_iff (hj : j ≠ .transport) (d : Bytes) :
    Fits wg ⟨d, 0⟩ j ↔ d.length = (wg.junkSize j).toNat + j.messageSize ∧
      mhValidate (readLe32 (d.drop (wg.junkSize j).toNat)) (wg.headers j) := by
  have hlen : LenMatches wg j (Skb.len ⟨d, 0⟩) ↔
      d.length = (wg.junkSize j).toNat + j.messageSize := by
    cases j with
    | transport => exact absurd rfl hj
    | _ => exact Iff.rfl
  unfold Fits
  rw [hlen]
  refine and_congr_right ?_
  intro hd
  rw [pull_fresh (by omega)]
  rfl

theorem before_handshake (h : Before j k) : j ≠ .transport ∧ k ≠ .transport := by
  cases h <;> decide

theorem mhValidate_start {mh : MagicHeader} (h : ¬ mh.Empty) : mhValidate mh.start mh :=
  ⟨BitVec.le_refl _, BitVec.not_lt.mp h⟩

theorem not_empty_of_mhValidate {w : U32} {mh : MagicHeader} (h : mhValidate w mh) : ¬ mh.Empty :=
  BitVec.not_lt.mpr (BitVec.le_trans h.1 h.2)

/-- The classification agrees with the sender on the three handshake kinds if and only
if no two of them collide. -/
theorem agrees_iff (wg : WgDevice) : (∀ k, k ≠ .transport → Agrees wg k) ↔ NoCollision wg := by
  constructor
  · -- a collision: put a word of the earlier kind into the padding of the later one
    intro hagrees j k hjk hlen
    by_contra hne
    rw [not_or] at hne
    rcases hne with ⟨hj, hk⟩
    rcases before_handshake hjk with ⟨hjt, hkt⟩
    have hroom := before_room hjk
    have hpad : (paddingWith (wg.junkSize j).toNat (wg.headers j).start
        (wg.junkSize k).toNat).length = (wg.junkSize k).toNat :=
      length_paddingWith (by omega) _
    have hmsg : (le32 (wg.headers k).start ++ List.replicate (k.messageSize - 4) (0 : U8)).length =
        k.messageSize := by
      have hle32 : (le32 (wg.headers k).start).length = 4 := rfl
      have hsize : 4 ≤ k.messageSize := by cases k <;> decide
      rw [List.length_append, List.length_replicate, hle32]
      omega
    have hvalid : mhValidate (readLe32 (le32 (wg.headers k).start ++
        List.replicate (k.messageSize - 4) (0 : U8))) (wg.headers k) := by
      rw [readLe32_le32]
      exact mhValidate_start hk
    have hk' := hagrees k hkt _ _ hpad hmsg hvalid
    have hfits : Fits wg ⟨paddingWith (wg.junkSize j).toNat (wg.headers j).start
        (wg.junkSize k).toNat ++ (le32 (wg.headers k).start ++
          List.replicate (k.messageSize - 4) (0 : U8)), 0⟩ j := by
      rw [fits_iff hjt, type_paddingWith, List.length_append, hpad, hmsg]
      exact ⟨hlen.symm, mhValidate_start hj⟩
    exact prepareAwgMessage_ne hjk hfits (by rw [hk'])
  · intro hfree k hk padding message hpadding hmessage hvalid
    have hdrop : (padding ++ message).drop (wg.junkSize k).toNat = message :=
      List.drop_left' hpadding
    have hlength : (padding ++ message).length = (wg.junkSize k).toNat + k.messageSize := by
      rw [List.length_append, hpadding, hmessage]
    have hfits : Fits wg ⟨padding ++ message, 0⟩ k := by
      rw [fits_iff hk, hdrop]
      exact ⟨hlength, hvalid⟩
    have hbefore : ∀ j, Before j k → ¬ Fits wg ⟨padding ++ message, 0⟩ j := by
      intro j hjk hj
      rw [fits_iff (before_handshake hjk).1] at hj
      rcases hfree j k hjk (hj.1.symm.trans hlength) with hempty | hempty
      · exact not_empty_of_mhValidate hj.2 hempty
      · exact not_empty_of_mhValidate hvalid hempty
    rw [prepareAwgMessage_eq hk hfits hbefore, pull_fresh (by omega), hpadding]

/-- A device with `S2 = 56`. -/
def collidingDevice : Outcome DevState Errno :=
  wgSetDevice .generous { s := fun k => if k = .response then some 56 else none } ⟨wgSetup, 0⟩

/-- Padding of 56 bytes that starts with the type word of an initiation. -/
def collidingPadding : Bytes := le32 1 ++ List.replicate 52 0

/-- A response, as far as its type word and its length go. -/
def plainResponse : Bytes := le32 2 ++ List.replicate 88 0

/-- With `S1 = 0` and `S2 = 56` accepted, a response is classified as an initiation. -/
theorem response_classified_as_initiation :
    collidingDevice.err = none ∧
      (prepareAwgMessage collidingDevice.state.dev true ⟨collidingPadding ++ plainResponse, 0⟩).1 =
        some .init ∧
      ¬ Agrees collidingDevice.state.dev .response := by
  have hinit : (prepareAwgMessage collidingDevice.state.dev true
      ⟨collidingPadding ++ plainResponse, 0⟩).1 = some .init := by
    decide +kernel
  refine ⟨by decide +kernel, hinit, ?_⟩
  intro hagrees
  have hresponse := hagrees collidingPadding plainResponse (by decide +kernel) (by decide +kernel)
    (by decide +kernel)
  rw [hresponse] at hinit
  cases hinit

end AmneziaWg
