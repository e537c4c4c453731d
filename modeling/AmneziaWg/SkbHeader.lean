import AmneziaWg.Dispatch
import AmneziaWg.Lib.SkBuff

/-!
# From the packet to the message

`prepare_skb_header` of `receive.c`, on the socket buffer: it locates the UDP header, checks
the length that the header claims, trims the packet to the payload and lets
`prepare_awg_message` find the message in it. The last pull is to make the whole message
accessible.

* **Model**: `attemptSkb`, `prepareAwgMessageSkb`, `prepareSkbHeader`. A move of the data
  pointer out of the linear area has no result.
* **Refinement**: `attemptSkb_eq`, on the payload the attempts are those of
  `prepareAwgMessageInPlace`; `prepareSkbHeader_queue`, the whole is the parser of the
  handshake queue.
* **Safety**: `prepareSkbHeader_sound`.
-/

namespace AmneziaWg

open Linux

/-! ## Model layer -/

/-- What the parser depends on beside the packet and the device. -/
structure HeaderEnv where
  /-- `wg_check_packet_protocol`. -/
  protocolOk : Bool
  /-- Memory for the two pulls, the trim and the linearization. -/
  firstPull : Bool
  trim : Bool
  linearize : Bool
  lastPull : Bool
deriving DecidableEq, Repr

/-- What `prepare_skb_header` leaves: the branch that `prepare_awg_message` took, the packet,
and the position up to which the last `pskb_may_pull` vouches for the linear area. -/
structure Parsed where
  kind : MsgIdx
  skb : SkBuff
  vouched : ℕ

/-- `SKB_TYPE_LE32`, in host order. -/
def skbType (skb : SkBuff) : U32 := readLe32 (skb.linear.drop skb.data)

/-- One attempt of `prepare_awg_message`. -/
def attemptSkb (wg : WgDevice) (k : MsgIdx) (skb : SkBuff) : Option (Bool × SkBuff) :=
  if LenMatches wg k skb.len then do
    let pulled ← skb.pull (wg.junkSize k).toNat
    if mhValidate (skbType pulled) (wg.headers k) then some (true, pulled)
    else (pulled.push (wg.junkSize k).toNat).map fun left => (false, left)
  else some (false, skb)

def attemptsSkb (wg : WgDevice) : List MsgIdx → SkBuff → Option (Option MsgIdx × SkBuff)
  | [], skb => some (none, skb)
  | k :: ks, skb => do
    let (fits, left) ← attemptSkb wg k skb
    if fits then some (some k, left) else attemptsSkb wg ks left

/-- `prepare_awg_message`, on the socket buffer. -/
def prepareAwgMessageSkb (wg : WgDevice) (alloc : Bool) (skb : SkBuff) :
    Option (Option MsgIdx × SkBuff) :=
  match skb.linearize alloc with
  | (false, left) => some (none, left)
  | (true, left) => attemptsSkb wg [.init, .response, .cookie, .transport] left

/-- `ntohs(udp->len)`. -/
def udpLen (skb : SkBuff) : ℕ := readBe16 skb.linear (skb.transportHeader.toNat + 4)

/-- `prepare_skb_header` from the trimmed packet on. -/
def prepareTrimmed (wg : WgDevice) (env : HeaderEnv) (dataOffset dataLen : ℕ) (skb : SkBuff) :
    Option (Except Errno Parsed) := do
  let skb ← skb.pull dataOffset
  if skb.len ≠ dataLen then return .error .EINVAL
  else
    let (kind, skb) ← prepareAwgMessageSkb wg env.linearize skb
    match kind with
    | none => return .error .EINVAL
    | some k =>
      let skb ← skb.push dataOffset
      match skb.mayPull env.lastPull (dataOffset + returnedSize k) with
      | (false, _) => return .error .EINVAL
      | (true, skb) =>
        let vouched := skb.data + (dataOffset + returnedSize k)
        let skb ← skb.rawPull dataOffset
        return .ok ⟨k, skb, vouched⟩

/-- `prepare_skb_header`. Differences of pointers are taken as `size_t`. -/
def prepareSkbHeader (wg : WgDevice) (env : HeaderEnv) (skb : SkBuff) :
    Option (Except Errno Parsed) :=
  let udp := skb.transportHeader
  if env.protocolOk = false ∨ udp < 0 ∨ udp + 8 > skb.linear.length then some (.error .EINVAL)
  else
    let dataOffset := sizeOfInt (udp - skb.data)
    if dataOffset > 0xffff ∨ dataOffset + 8 > skb.len then some (.error .EINVAL)
    else
      let dataLen := udpLen skb
      if dataLen < 8 ∨ dataLen > skb.len - dataOffset then some (.error .EINVAL)
      else
        let dataLen := dataLen - 8
        let dataOffset := sizeOfInt (udp + 8 - skb.data)
        match skb.mayPull env.firstPull (dataOffset + 4) with
        | (false, _) => some (.error .EINVAL)
        | (true, skb) =>
          match skb.trim env.trim (dataLen + dataOffset) with
          | (false, _) => some (.error .EINVAL)
          | (true, skb) => prepareTrimmed wg env dataOffset dataLen skb

/-! ## The attempts -/

/-- A linear packet whose payload lies behind `front`, with the data pointer in the payload. -/
structure Shows (front : Bytes) (s : Skb) (skb : SkBuff) : Prop where
  linear : skb.linear = front ++ s.payload
  frags : skb.frags = []
  data : skb.data = front.length + s.off

section Attempts

variable {front : Bytes} {s : Skb} {skb : SkBuff}

theorem Shows.len (h : Shows front s skb) : skb.len = s.len := by
  rw [SkBuff.len, SkBuff.headlen, h.linear, h.frags, h.data, List.length_append, Skb.len,
    List.length_nil]
  omega

theorem Shows.type (h : Shows front s skb) : skbType skb = s.type := by
  rw [skbType, h.linear, h.data, ← List.drop_drop, List.drop_left]
  rfl

theorem Shows.pull (h : Shows front s skb) {n : ℕ} (hn : n ≤ s.len) :
    ∃ skb', skb.pull n = some skb' ∧ Shows front (s.pull n) skb' := by
  have hroom : skb.data + n ≤ skb.linear.length := by
    have hdata := skb.data_le
    rw [Skb.len] at hn
    rw [h.linear, h.data, List.length_append] at hdata ⊢
    omega
  have hlen : ¬ n > skb.len := by
    rw [h.len]
    omega
  rw [SkBuff.pull, if_neg hlen, SkBuff.rawPull, dif_pos hroom]
  refine ⟨_, rfl, ?_, h.frags, ?_⟩
  · rw [Skb.pull, if_pos hn]
    exact h.linear
  · rw [Skb.pull, if_pos hn]
    show skb.data + n = front.length + (s.off + n)
    rw [h.data]
    omega

theorem Shows.push (h : Shows front s skb) {n : ℕ} (hn : n ≤ s.off) :
    ∃ skb', skb.push n = some skb' ∧ Shows front (s.push n) skb' := by
  have hdata := h.data
  rw [SkBuff.push, if_pos (by omega)]
  refine ⟨_, rfl, h.linear, h.frags, ?_⟩
  show skb.data - n = front.length + (s.off - n)
  omega

/-- On the payload, an attempt does what `attempt` does. -/
theorem attemptSkb_eq (wg : WgDevice) (k : MsgIdx) (h : Shows front s skb) :
    ∃ skb', attemptSkb wg k skb = some ((attempt wg k s).1, skb') ∧
      Shows front (attempt wg k s).2 skb' := by
  unfold attemptSkb attempt
  rw [h.len]
  by_cases hlen : LenMatches wg k s.len
  · have hjunk : (wg.junkSize k).toNat ≤ s.len := by
      have := hlen.junk_le
      omega
    rcases h.pull hjunk with ⟨pulled, hpull, hpulled⟩
    simp only [if_pos hlen, hpull, Option.bind_eq_bind, Option.bind_some, hpulled.type]
    by_cases htype : mhValidate (s.pull (wg.junkSize k).toNat).type (wg.headers k)
    · rw [if_pos htype, if_pos htype]
      exact ⟨pulled, rfl, hpulled⟩
    · have hoff : (wg.junkSize k).toNat ≤ (s.pull (wg.junkSize k).toNat).off := by
        rw [Skb.pull, if_pos hjunk]
        exact Nat.le_add_left ..
      rcases hpulled.push hoff with ⟨left, hpush, hleft⟩
      rw [if_neg htype, if_neg htype, hpush]
      exact ⟨left, rfl, hleft⟩
  · rw [if_neg hlen, if_neg hlen]
    exact ⟨skb, rfl, h⟩

theorem attemptsSkb_eq (wg : WgDevice) (ks : List MsgIdx) (h : Shows front s skb) :
    ∃ skb', attemptsSkb wg ks skb = some ((attempts wg ks s).1, skb') ∧
      Shows front (attempts wg ks s).2 skb' := by
  induction ks generalizing s skb with
  | nil => exact ⟨skb, rfl, h⟩
  | cons k ks ih =>
    rcases attemptSkb_eq wg k h with ⟨left, heq, hleft⟩
    rw [attemptsSkb, attempts, heq]
    generalize attempt wg k s = r at hleft
    rcases r with ⟨fits, s'⟩
    cases fits with
    | true => exact ⟨left, rfl, hleft⟩
    | false => exact ih hleft

end Attempts

/-! ## The packet -/

/-- The UDP payload, as long as the header says. -/
def udpPayload (skb : SkBuff) : Bytes :=
  (skb.content.drop (skb.transportHeader.toNat + 8)).take (udpLen skb - 8)

/-- A message was found in `payload`, which lies behind `front`. -/
structure Located (wg : WgDevice) (front payload : Bytes) (p : Parsed) : Prop where
  kind : prepareAwgMessage wg true ⟨payload, 0⟩ =
    (some p.kind, ⟨payload, (wg.junkSize p.kind).toNat⟩)
  shows : Shows front ⟨payload, (wg.junkSize p.kind).toNat⟩ p.skb
  vouched : p.vouched = p.skb.data + returnedSize p.kind

section Packet

variable {wg : WgDevice} {front payload : Bytes}

theorem prepareAwgMessage_room {k : MsgIdx} {left : Skb}
    (h : prepareAwgMessage wg true ⟨payload, 0⟩ = (some k, left)) :
    left = ⟨payload, (wg.junkSize k).toNat⟩ ∧
      (wg.junkSize k).toNat + k.messageSize ≤ payload.length := by
  rcases prepareAwgMessage_some h with ⟨hlen, hleft, -⟩
  have hroom : (wg.junkSize k).toNat + k.messageSize ≤ payload.length := hlen.junk_le
  rw [pull_fresh (by omega)] at hleft
  exact ⟨hleft, hroom⟩

theorem returnedSize_le (k : MsgIdx) : returnedSize k ≤ k.messageSize := by
  cases k <;> decide

/-- From the trimmed packet on, no move leaves the linear area. -/
theorem prepareTrimmed_spec (env : HeaderEnv) {dataOffset : ℕ} {skb : SkBuff}
    (hcontent : skb.content = front ++ payload) (hfront : front.length = skb.data + dataOffset)
    (hlinear : skb.data + dataOffset ≤ skb.linear.length) :
    ∃ r, prepareTrimmed wg env dataOffset payload.length skb = some r ∧
      ∀ p, r = .ok p → Located wg front payload p := by
  have hsize : skb.content.length = front.length + payload.length := by
    rw [hcontent, List.length_append]
  have hlen : ¬ dataOffset > skb.len := by
    rw [skb.len_eq]
    omega
  have hpull : skb.pull dataOffset =
      some { skb with data := skb.data + dataOffset, data_le := hlinear } := by
    rw [SkBuff.pull, if_neg hlen, SkBuff.rawPull, dif_pos hlinear]
  generalize hat : { skb with data := skb.data + dataOffset, data_le := hlinear } = at' at hpull
  have hatContent : at'.content = front ++ payload := by
    rw [← hat]
    exact hcontent
  have hatData : at'.data = front.length := by
    rw [← hat]
    exact hfront.symm
  have hatLen : at'.len = payload.length := by
    rw [SkBuff.len_eq, hatContent, hatData, List.length_append]
    omega
  rw [prepareTrimmed, hpull]
  simp only [Option.bind_eq_bind, Option.bind_some, hatLen, ne_eq, not_true_eq_false, if_false]
  rw [prepareAwgMessageSkb]
  rcases hlin : at'.linearize env.linearize with ⟨granted, lin⟩
  cases granted with
  | false => exact ⟨_, rfl, fun p hp => nomatch hp⟩
  | true =>
    rcases SkBuff.linearize_true hlin with ⟨hlinLinear, hlinFrags, hlinData⟩
    have hshows : Shows front ⟨payload, 0⟩ lin :=
      ⟨hlinLinear.trans hatContent, hlinFrags, hlinData.trans hatData⟩
    rcases attemptsSkb_eq wg [.init, .response, .cookie, .transport] hshows with
      ⟨left, hattempts, hleft⟩
    have hparse : attempts wg [.init, .response, .cookie, .transport] ⟨payload, 0⟩ =
        prepareAwgMessage wg true ⟨payload, 0⟩ :=
      prepareAwgMessageInPlace_eq wg true ⟨payload, 0⟩
    rw [hparse] at hattempts hleft
    dsimp only
    rw [hattempts]
    rcases hres : prepareAwgMessage wg true ⟨payload, 0⟩ with ⟨kind, s⟩
    rw [hres] at hleft
    cases kind with
    | none => exact ⟨_, rfl, fun p hp => nomatch hp⟩
    | some k =>
      rcases prepareAwgMessage_room hres with ⟨rfl, hroom⟩
      have hret := returnedSize_le k
      have hleftData : left.data = front.length + (wg.junkSize k).toNat := hleft.data
      have hleftLinear : left.linear.length = front.length + payload.length := by
        rw [hleft.linear, List.length_append]
      -- back to where the packet started, shifted by the padding
      have hpush : left.push dataOffset = some { left with
            data := left.data - dataOffset
            data_le := (Nat.sub_le ..).trans left.data_le } := by
        rw [SkBuff.push, if_pos (by omega)]
      generalize hback : { left with
        data := left.data - dataOffset
        data_le := (Nat.sub_le ..).trans left.data_le } = back at hpush
      have hbackData : back.data = left.data - dataOffset := by rw [← hback]
      have hbackLinear : back.linear = left.linear := by rw [← hback]
      have hmay : back.mayPull env.lastPull (dataOffset + returnedSize k) = (true, back) := by
        refine SkBuff.mayPull_linear ?_
        rw [hbackLinear, hleftLinear, hbackData]
        omega
      have hagain : back.data + dataOffset ≤ back.linear.length := by
        rw [hbackLinear, hleftLinear, hbackData]
        omega
      simp only [Option.bind_some, hpush, hmay]
      rw [SkBuff.rawPull, dif_pos hagain]
      refine ⟨_, rfl, ?_⟩
      rintro p ⟨⟩
      have hdata : back.data + dataOffset = front.length + (wg.junkSize k).toNat := by omega
      refine ⟨hres, ⟨hbackLinear.trans hleft.linear, ?_, hdata⟩, ?_⟩
      · show back.frags = []
        rw [← hback]
        exact hleft.frags
      · show back.data + (dataOffset + returnedSize k) = back.data + dataOffset + returnedSize k
        omega

/-- What the checks of the UDP header establish. -/
structure UdpFits (skb : SkBuff) : Prop where
  behind : (skb.data : ℤ) ≤ skb.transportHeader
  inside : skb.transportHeader + 8 ≤ skb.linear.length
  header : 8 ≤ udpLen skb
  claimed : skb.transportHeader + udpLen skb ≤ skb.content.length

theorem sizeOfInt_eq {a b : ℤ} (hab : b ≤ a) (hlt : a - b < 2 ^ 64) :
    (sizeOfInt (a - b) : ℤ) = a - b := by
  rw [sizeOfInt, Int.emod_eq_of_lt (by omega) hlt]
  omega

/-- A header in front of the data has a huge offset. -/
theorem behind_of_sizeOfInt {skb : SkBuff} (hlo : 0 ≤ skb.transportHeader)
    (h : sizeOfInt (skb.transportHeader - skb.data) ≤ 0xffff) :
    (skb.data : ℤ) ≤ skb.transportHeader := by
  have hdata := skb.data_le
  have hsize := skb.size_lt
  by_contra hlt
  rw [sizeOfInt] at h
  omega

/-- For every packet: no pull or push leaves the linear area, and the packet that comes out
shows the message in the payload that the UDP header claims. -/
theorem prepareSkbHeader_located (wg : WgDevice) (env : HeaderEnv) (skb : SkBuff) :
    ∃ r, prepareSkbHeader wg env skb = some r ∧
      ∀ p, r = .ok p → UdpFits skb ∧
        Located wg (skb.content.take (skb.transportHeader.toNat + 8)) (udpPayload skb) p := by
  have hinvalid : ∃ r : Except Errno Parsed, some (.error .EINVAL) = some r ∧
      ∀ p, r = .ok p → UdpFits skb ∧
        Located wg (skb.content.take (skb.transportHeader.toNat + 8)) (udpPayload skb) p :=
    ⟨_, rfl, fun p hp => nomatch hp⟩
  unfold prepareSkbHeader
  dsimp only
  split
  · exact hinvalid
  next hudp =>
  split
  · exact hinvalid
  next hoffset =>
  split
  · exact hinvalid
  next hclaim =>
  have hlo : 0 ≤ skb.transportHeader := by omega
  have hbehind := behind_of_sizeOfInt hlo (by omega)
  have hsize := skb.size_lt
  have hlen := skb.len_eq
  have hall : skb.content.length = skb.linear.length + skb.frags.length := List.length_append
  have hoff := sizeOfInt_eq hbehind (by omega)
  have hoff' := @sizeOfInt_eq (skb.transportHeader + 8) skb.data (by omega) (by omega)
  generalize sizeOfInt (skb.transportHeader - skb.data) = dataOffset at hoff hoffset hclaim
  generalize sizeOfInt (skb.transportHeader + 8 - skb.data) = dataOffset' at hoff'
  have hfits : UdpFits skb := ⟨hbehind, by omega, by omega, by omega⟩
  rcases hmay : skb.mayPull env.firstPull (dataOffset' + 4) with ⟨granted, pulled⟩
  cases granted with
  | false => exact hinvalid
  | true =>
    rcases SkBuff.mayPull_true hmay with ⟨hcontent, hdata, hroom⟩
    dsimp only
    rcases htrim : pulled.trim env.trim (udpLen skb - 8 + dataOffset') with ⟨granted, trimmed⟩
    cases granted with
    | false => exact hinvalid
    | true =>
      have hshort : udpLen skb - 8 + dataOffset' ≤ pulled.len := by
        rw [SkBuff.len_eq, hcontent, hdata]
        omega
      rcases SkBuff.trim_true htrim hshort with ⟨htcontent, htdata, htlinear⟩
      dsimp only
      have hpayload : (udpPayload skb).length = udpLen skb - 8 := by
        rw [udpPayload, List.length_take, List.length_drop]
        omega
      have hfront : (skb.content.take (skb.transportHeader.toNat + 8)).length =
          trimmed.data + dataOffset' := by
        rw [List.length_take, htdata, hdata]
        omega
      have hsplit : trimmed.content =
          skb.content.take (skb.transportHeader.toNat + 8) ++ udpPayload skb := by
        rw [htcontent, hcontent, hdata, udpPayload, ← List.take_add]
        congr 1
        omega
      have hlinear : trimmed.data + dataOffset' ≤ trimmed.linear.length := by
        rw [htdata, htlinear, List.length_take]
        omega
      rcases @prepareTrimmed_spec wg _ _ env _ _ hsplit hfront hlinear with ⟨r, hr, hlocated⟩
      rw [hpayload] at hr
      exact ⟨r, hr, fun p hp => ⟨hfits, hlocated p hp⟩⟩

end Packet

/-! ## Safety -/

/-- The packet that `prepare_skb_header` leaves when it returns 0. -/
structure Prepared (wg : WgDevice) (before : SkBuff) (p : Parsed) : Prop where
  /-- The payload that the UDP header claims is in the packet. -/
  udp : UdpFits before
  /-- The packet ends where the payload ends. -/
  trimmed : p.skb.content = before.content.take (before.transportHeader.toNat + udpLen before)
  linear : p.skb.frags = []
  /-- The branch is the one of the classifier on the payload. -/
  kind : (prepareAwgMessage wg true ⟨udpPayload before, 0⟩).1 = some p.kind
  data : p.skb.data = before.transportHeader.toNat + 8 + (wg.junkSize p.kind).toNat
  len : p.skb.len + (wg.junkSize p.kind).toNat = (udpPayload before).length
  payload : (udpPayload before).length = udpLen before - 8
  /-- The whole struct is in the linear area. -/
  message : p.skb.data + p.kind.messageSize ≤ p.skb.linear.length

theorem Located.prepared {wg : WgDevice} {before : SkBuff} {p : Parsed} (hudp : UdpFits before)
    (h : Located wg (before.content.take (before.transportHeader.toNat + 8)) (udpPayload before) p) :
    Prepared wg before p := by
  have hinside := hudp.inside
  have hclaimed := hudp.claimed
  have hheader := hudp.header
  have hbehind := hudp.behind
  have hall : before.content.length = before.linear.length + before.frags.length :=
    List.length_append
  have hpayload : (udpPayload before).length = udpLen before - 8 := by
    rw [udpPayload, List.length_take, List.length_drop]
    omega
  have hfront : (before.content.take (before.transportHeader.toNat + 8)).length =
      before.transportHeader.toNat + 8 := by
    rw [List.length_take]
    omega
  rcases prepareAwgMessage_room h.kind with ⟨-, hroom⟩
  have hdata : p.skb.data = before.transportHeader.toNat + 8 + (wg.junkSize p.kind).toNat := by
    rw [h.shows.data, hfront]
  constructor
  · exact hudp
  · rw [SkBuff.content, h.shows.frags, List.append_nil, h.shows.linear, udpPayload, ← List.take_add]
    congr 1
    omega
  · exact h.shows.frags
  · rw [h.kind]
  · exact hdata
  · rw [h.shows.len, Skb.len]
    dsimp only
    omega
  · exact hpayload
  · rw [hdata, h.shows.linear, List.length_append, hfront]
    dsimp only
    omega

/-- For every packet and every configuration: no pull or push leaves the linear area; if the
result is 0 the packet is trimmed and positioned as it should be, and for all kinds but the
cookie reply the last pull vouches for the whole struct. For a cookie reply it vouches for
three bytes. -/
theorem prepareSkbHeader_sound (wg : WgDevice) (env : HeaderEnv) (skb : SkBuff) :
    ∃ r, prepareSkbHeader wg env skb = some r ∧
      ∀ p, r = .ok p → Prepared wg skb p ∧
        (p.kind ≠ .cookie → p.skb.data + p.kind.messageSize ≤ p.vouched) ∧
        (p.kind = .cookie → p.vouched = p.skb.data + 3) := by
  rcases prepareSkbHeader_located wg env skb with ⟨r, hr, hlocated⟩
  refine ⟨r, hr, fun p hp => ?_⟩
  rcases hlocated p hp with ⟨hudp, h⟩
  refine ⟨h.prepared hudp, ?_, ?_⟩
  · intro hkind
    rw [h.vouched]
    cases hk : p.kind with
    | cookie => exact absurd hk hkind
    | _ => exact Nat.le_refl _
  · intro hkind
    rw [h.vouched, hkind]
    rfl

/-- A successful parse, by the fields that matter. -/
def Parsed.fields : Option (Except Errno Parsed) → Option (MsgIdx × ℕ × ℕ × ℕ)
  | some (.ok p) => some (p.kind, p.skb.data, p.skb.len, p.vouched)
  | _ => none

theorem Parsed.fields_some {r : Option (Except Errno Parsed)} {k : MsgIdx} {data len vouched : ℕ}
    (h : Parsed.fields r = some (k, data, len, vouched)) :
    ∃ p, r = some (.ok p) ∧ p.kind = k ∧ p.skb.data = data ∧ p.skb.len = len ∧
      p.vouched = vouched := by
  unfold Parsed.fields at h
  split at h
  · next p =>
    cases h
    exact ⟨p, rfl, rfl, rfl, rfl, rfl⟩
  · cases h

/-- Memory is there whenever it is needed. -/
def generousEnv : HeaderEnv := ⟨true, true, true, true, true⟩

/-- A UDP header behind 20 bytes, and a payload. Half of the payload is paged. -/
def udpPacket (length : ℕ) (payload : Bytes) (h : 28 + payload.length < 2 ^ 32) : SkBuff where
  linear := List.replicate 20 0 ++ ([0, 0, 0, 0, BitVec.ofNat 8 (length / 256),
    BitVec.ofNat 8 length, 0, 0] ++ payload.take (payload.length / 2))
  data := 20
  frags := payload.drop (payload.length / 2)
  transportHeader := 20
  data_le := by
    rw [List.length_append, List.length_replicate]
    exact Nat.le_add_right ..
  size_lt := by
    rw [List.length_append, List.length_replicate, List.length_append, List.length_take,
      List.length_drop]
    simp only [List.length_cons, List.length_nil]
    omega

/-- A cookie reply, as far as its type word and its length go. -/
def plainCookieReply : Bytes := le32 3 ++ List.replicate 60 0

def cookieReplyPacket : SkBuff := udpPacket 72 plainCookieReply (by decide)

/-- A new device takes the cookie reply; the last pull vouches for less than its header. -/
theorem cookie_reply_not_vouched :
    ∃ p, prepareSkbHeader wgSetup generousEnv cookieReplyPacket = some (.ok p) ∧
      p.kind = .cookie ∧ p.vouched = p.skb.data + 3 ∧
      p.vouched < p.skb.data + p.kind.messageSize := by
  have hfields : Parsed.fields (prepareSkbHeader wgSetup generousEnv cookieReplyPacket) =
      some (.cookie, 28, 64, 31) := by
    decide +kernel
  rcases Parsed.fields_some hfields with ⟨p, hp, hkind, hdata, -, hvouched⟩
  rw [hp]
  refine ⟨p, rfl, hkind, ?_, ?_⟩
  · rw [hvouched, hdata]
  · rw [hvouched, hdata, hkind]
    decide

/-- A response with three bytes behind what the UDP header claims. -/
theorem prepareSkbHeader_sound_response :
    ∃ p, prepareSkbHeader wgSetup generousEnv
        (udpPacket 100 (plainResponse ++ [1, 2, 3]) (by decide)) = some (.ok p) ∧
      p.kind = .response ∧ p.skb.len = 92 ∧ p.skb.data + p.kind.messageSize ≤ p.vouched := by
  have hfields : Parsed.fields (prepareSkbHeader wgSetup generousEnv
      (udpPacket 100 (plainResponse ++ [1, 2, 3]) (by decide))) = some (.response, 28, 92, 120) := by
    decide +kernel
  rcases Parsed.fields_some hfields with ⟨p, hp, hkind, -, hlen, -⟩
  rcases prepareSkbHeader_sound wgSetup generousEnv
    (udpPacket 100 (plainResponse ++ [1, 2, 3]) (by decide)) with ⟨r, hr, hsound⟩
  rw [hp] at hr ⊢
  cases hr
  have hnot : p.kind ≠ .cookie := by
    rw [hkind]
    decide
  exact ⟨p, rfl, hkind, hlen, (hsound p rfl).2.1 hnot⟩

/-! ## The queue -/

/-- What the handshake queue takes the parser to do. -/
theorem prepareSkbHeader_queue {wg : WgDevice} {env : HeaderEnv} {skb : SkBuff} {p : Parsed}
    (h : prepareSkbHeader wg env skb = some (.ok p)) :
    HandshakeQueue.prepareSkbHeader wg {} (udpPayload skb) =
      some ⟨p.kind, ⟨udpPayload skb, (wg.junkSize p.kind).toNat⟩⟩ := by
  rcases prepareSkbHeader_located wg env skb with ⟨r, hr, hlocated⟩
  have hrp : r = .ok p := Option.some.inj (hr.symm.trans h)
  rcases hlocated p hrp with ⟨-, hlocated⟩
  have hkind := hlocated.kind
  rcases prepareAwgMessage_room hkind with ⟨-, hroom⟩
  have hret := returnedSize_le p.kind
  have hfits : returnedSize p.kind ≤ Skb.len ⟨udpPayload skb, (wg.junkSize p.kind).toNat⟩ := by
    rw [Skb.len]
    dsimp only
    omega
  rw [HandshakeQueue.prepareSkbHeader]
  simp only [if_true, hkind, if_pos hfits]

end AmneziaWg
