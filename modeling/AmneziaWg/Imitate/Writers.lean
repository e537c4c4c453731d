import AmneziaWg.Lib.Wire
import AmneziaWg.Lib.Writes

/-!
# Imitation fillers

The protocol writers of `imitate.c`. Each is the list of its writes to `buf`, in
the order of the source, so that what it leaves untouched can be stated too.
Lengths are naturals: all callers pass non-negative `int`s, and a writer does
nothing for length `0`.

* **Model**: the four writers, `imitateFillPrefix`, `imitateFillWhole`.
* **Coverage**: every writer fills exactly the padding (`prefixWrites_fills`), so
  the padding is a function of what follows it (`imitateFillPrefix_eq`).
-/

namespace AmneziaWg

open Linux Writes

/-- `enum imitate_proto`. -/
inductive ImitateProto where
  | none
  | quic
  | dns
  | stun
  | sip
deriving DecidableEq, Repr

/-- `imitate_proto_parse`: what is not a known name is `none`. -/
def imitateProtoParse (s : Option Bytes) : ImitateProto :=
  if s = some (ascii "quic") then .quic
  else if s = some (ascii "dns") then .dns
  else if s = some (ascii "stun") then .stun
  else if s = some (ascii "sip") then .sip
  else .none

/-! ## Generators -/

def lcgStep (s : U32) : U32 := s * 1103515245 + 12345

/-- `put_be16`. -/
def be16 (v : U16) : Bytes := [(v >>> 8).setWidth 8, v.setWidth 8]

/-- `put_be32`. -/
def be32 (v : U32) : Bytes :=
  [(v >>> 24).setWidth 8, (v >>> 16).setWidth 8, (v >>> 8).setWidth 8, v.setWidth 8]

/-- One round of the hash. -/
def fnv1aByte (state : U32) (b : U8) : U32 := (state ^^^ b.setWidth 32) * 0x01000193

/-- FNV-1a over at most the first 64 bytes. -/
def imitateFnv1aSeed (payload : Bytes) : U32 := (payload.take 64).foldl fnv1aByte 0x811c9dc5

/-! ## DNS -/

def clampU16 (v : ℤ) : U16 :=
  if v < 0 then 0 else if v > 0xFFFF then 0xFFFF else BitVec.ofInt 16 v

def writeDnsOptResponse (total padding : ℕ) (txid : U8 × U8) : List (ℕ × U8) :=
  let rdlength := clampU16 ((total : ℤ) - 28)
  let optLen := clampU16 ((total : ℤ) - 32)
  put 0 ([txid.1, txid.2, 0x81, 0x80, 0x00, 0x01, 0x00, 0x00, 0x00, 0x00, 0x00, 0x01,
      0x00, 0x00, 0x01, 0x00, 0x01,
      0x00, 0x00, 0x29, 0x04, 0xd0, 0x00, 0x00, 0x00, 0x00] ++
      be16 rdlength ++ [0xfd, 0xe9] ++ be16 optLen) ++
    put 32 (List.replicate (padding - 32) 0)

/-- `fixed` of `write_dns_null`. -/
def dnsNullFixed (total padding : ℕ) (txid : U8 × U8) : Bytes :=
  let qdcount : U8 := if padding ≥ 17 then 1 else 0
  let ancount : U8 := if padding ≥ 28 then 1 else 0
  [txid.1, txid.2, 0x81, 0x80, 0x00, qdcount, 0x00, ancount, 0x00, 0x00, 0x00, 0x00,
    0x00, 0x00, 0x01, 0x00, 0x01, 0x00, 0x00, 0x0a, 0x00, 0x01,
    0x00, 0x00, 0x00, 0x3c] ++ be16 (clampU16 ((total : ℤ) - 28))

def writeDnsNull (total padding : ℕ) (txid : U8 × U8) : List (ℕ × U8) :=
  let advertised := if padding ≥ 28 then 28 else if padding ≥ 17 then 17 else 12
  let copyLen := if padding < advertised then padding else advertised
  put 0 ((dnsNullFixed total padding txid).take copyLen) ++
    put copyLen (List.replicate (padding - copyLen) 0)

def writeDnsMsg (total padding : ℕ) (txid : U8 × U8) : List (ℕ × U8) :=
  if padding < 32 then writeDnsNull total padding txid
  else writeDnsOptResponse total padding txid

/-! ## QUIC -/

/-- The body bytes: the middle byte of each state. -/
def quicBody : ℕ → U32 → Bytes
  | 0, _ => []
  | n + 1, state => (state >>> 16).setWidth 8 :: quicBody n (lcgStep state)

/-- The first byte, from three draws. -/
def quicFirst (seed : U32) : U8 :=
  let spin : U8 := (seed >>> 8).setWidth 8 &&& 0x01
  let keyPhase : U8 := (lcgStep seed >>> 8).setWidth 8 &&& 0x01
  let pnLenBits : U8 := (lcgStep (lcgStep seed)).setWidth 8 &&& 0x03
  0x40 ||| (spin <<< 5) ||| (keyPhase <<< 2) ||| pnLenBits

def writeQuicShort (padding : ℕ) (seed : U32) : List (ℕ × U8) :=
  if padding = 0 then []
  else put 0 [quicFirst seed] ++ put 1 (quicBody (padding - 1) (lcgStep (lcgStep (lcgStep seed))))

/-! ## STUN -/

def stunCookie : U32 := 0x2112A442

/-- The attribute area under way: its writes, its length and the generator. -/
structure StunArea where
  writes : List (ℕ × U8)
  written : ℕ
  state : U32

/-- `body`: the room for attributes, in whole words. -/
def stunBody (padding : ℕ) : ℕ := if padding > 20 then (padding - 20) / 4 * 4 else 0

/-- XOR-MAPPED-ADDRESS, if it fits. -/
def stunMapped (body : ℕ) (state : U32) : StunArea :=
  if body ≥ 12 then
    let port : U16 := (state >>> 16).setWidth 16
    let addr := lcgStep state
    let xport := port ^^^ (stunCookie >>> 16).setWidth 16
    let xaddr := addr ^^^ stunCookie
    ⟨put 20 (be16 0x0020 ++ be16 8 ++ [0x00, 0x01] ++ be16 xport ++ be32 xaddr), 12,
      lcgStep addr⟩
  else ⟨[], 0, state⟩

/-- The characters of the SOFTWARE attribute. -/
def stunChars : ℕ → U32 → Bytes
  | 0, _ => []
  | n + 1, state => (0x20 + (state % 0x5F).setWidth 8) :: stunChars n (lcgStep state)

/-- SOFTWARE, in the room that remains. -/
def stunSoftware (body : ℕ) (a : StunArea) : StunArea :=
  let remaining := body - a.written
  if remaining ≥ 4 then
    let vlen := if remaining - 4 > 124 then 124 else remaining - 4
    ⟨a.writes ++ put (20 + a.written) (be16 0x8022 ++ be16 (BitVec.ofNat 16 vlen) ++
        stunChars vlen a.state), a.written + (4 + vlen), a.state⟩
  else a

def stunHeader (written : ℕ) (seed : U32) : Bytes :=
  be16 0x0101 ++ be16 (BitVec.ofNat 16 written) ++ be32 stunCookie ++
    (be32 seed ++ be32 (lcgStep seed) ++ be32 (lcgStep (lcgStep seed)))

def writeStun (padding : ℕ) (seed : U32) : List (ℕ × U8) :=
  if padding = 0 then []
  else
    let body := stunBody padding
    let a := stunSoftware body (stunMapped body (lcgStep (lcgStep (lcgStep seed))))
    let copyLen := if padding < 20 then padding else 20
    a.writes ++ put 0 ((stunHeader a.written seed).take copyLen) ++
      put (20 + a.written) (List.replicate (padding - (20 + a.written)) 0)

/-! ## SIP -/

/-- The loop of `decimal_digits`; a value has fewer digits than its size. -/
def decimalDigitsLoop : ℕ → ℕ → ℕ → ℕ
  | 0, _, digits => digits
  | fuel + 1, value, digits =>
    if value ≥ 10 then decimalDigitsLoop fuel (value / 10) (digits + 1) else digits

def decimalDigits (value : ℕ) : ℕ := decimalDigitsLoop value value 1

/-- `%u` and `%d`. -/
def decimal (value : ℕ) : Bytes := (Nat.toDigits 10 value).map chr

def hexDigit (v : U8) : U8 := if v < 10 then 0x30 + v else 0x57 + v

/-- `%08x`. -/
def hex8 (v : U32) : Bytes :=
  [28, 24, 20, 16, 12, 8, 4, 0].map fun k => hexDigit ((v >>> k).setWidth 8 &&& 0x0f)

/-- What is written so far, and where the next line goes. -/
structure SipText where
  writes : List (ℕ × U8)
  pos : ℕ

/-- `sip_putline`: the line, if it and the closing blank line still fit. -/
def sipPutline (length : ℕ) (t : SipText) (line : Bytes) : Option SipText :=
  if t.pos + line.length + 2 ≤ length then
    some ⟨t.writes ++ put t.pos line, t.pos + line.length⟩
  else none

def sipStatus (i : ℕ) : Bytes :=
  match i % 3 with
  | 0 => ascii "100 Trying"
  | 1 => ascii "180 Ringing"
  | _ => ascii "200 OK"

def sipHost (i : ℕ) : Bytes :=
  match i with
  | 0 => ascii "sip.example.com"
  | 1 => ascii "pbx.example.net"
  | _ => ascii "voip.example.org"

def sipMethod (i : ℕ) : Bytes :=
  match i with
  | 0 => ascii "INVITE"
  | 1 => ascii "OPTIONS"
  | _ => ascii "REGISTER"

def sipStatusLine (i : ℕ) : Bytes := ascii "SIP/2.0 " ++ sipStatus i ++ ascii "\r\n"

/-- The status loop: the first of the next `n` rotations that fits. -/
def sipPutStatus (length : ℕ) : ℕ → ℕ → Option SipText
  | 0, _ => none
  | n + 1, i =>
    match sipPutline length ⟨[], 0⟩ (sipStatusLine i) with
    | some t => some t
    | none => sipPutStatus length n (i + 1)

/-- The mandatory headers after the status line, from the draws behind the first. -/
def sipHeaders (seed : U32) : List Bytes :=
  let s₁ := lcgStep seed
  let s₂ := lcgStep s₁
  let branch := lcgStep s₂
  let fromTag := lcgStep branch
  let toTag := lcgStep fromTag
  let callId := lcgStep toTag
  let cseq := 1 + (lcgStep callId).toNat % 100000
  let host := sipHost (s₁.toNat % 3)
  let method := sipMethod (s₂.toNat % 3)
  [ascii "Via: SIP/2.0/UDP " ++ host ++ ascii ":5060;branch=z9hG4bK" ++ hex8 branch ++
      ascii ";rport\r\n",
    ascii "From: <sip:caller@" ++ host ++ ascii ">;tag=" ++ hex8 fromTag ++ ascii "\r\n",
    ascii "To: <sip:callee@" ++ host ++ ascii ">;tag=" ++ hex8 toTag ++ ascii "\r\n",
    ascii "Call-ID: " ++ hex8 callId ++ ascii "@" ++ host ++ ascii "\r\n",
    ascii "CSeq: " ++ decimal cseq ++ ascii " " ++ method ++ ascii "\r\n"]

/-- The lines up to the first that does not fit, and whether all did. -/
def sipPutlines (length : ℕ) : List Bytes → SipText → SipText × Bool
  | [], t => (t, true)
  | line :: lines, t =>
    match sipPutline length t line with
    | some t => sipPutlines length lines t
    | none => (t, false)

/-- The inner loop of the Content-Length search, from `digits` on. -/
def sipBodyLength (total length pos sws : ℕ) : ℕ → ℕ → Option ℕ
  | 0, _ => none
  | n + 1, digits =>
    let headerEnd := pos + 15 + sws + digits + 4
    if headerEnd > length then none
    else if decimalDigits (total - headerEnd) = digits then some (total - headerEnd)
    else sipBodyLength total length pos sws n (digits + 1)

/-- The Content-Length line, with one space or, if no width works, with two. -/
def sipContentLength (total length pos : ℕ) : Option Bytes :=
  match sipBodyLength total length pos 1 (decimalDigits total) 1 with
  | some body => some (ascii "Content-Length: " ++ decimal body ++ ascii "\r\n")
  | none =>
    match sipBodyLength total length pos 2 (decimalDigits total) 1 with
    | some body => some (ascii "Content-Length:  " ++ decimal body ++ ascii "\r\n")
    | none => none

/-- No status line fits: a cut one, spaces, and a line end over the last bytes. -/
def sipFragment (length : ℕ) : List (ℕ × U8) :=
  let take := if 20 > length then length else 20
  put 0 ((ascii "SIP/2.0 100 Trying\r\n").take take) ++
    put take (List.replicate (length - take) (chr ' ')) ++
    if length ≥ 2 then put (length - 2) (ascii "\r\n") else []

/-- The blank line and the spaces behind it. -/
def sipFinish (length : ℕ) (t : SipText) : List (ℕ × U8) :=
  if t.pos + 2 ≤ length then
    t.writes ++ put t.pos (ascii "\r\n") ++
      put (t.pos + 2) (List.replicate (length - (t.pos + 2)) (chr ' '))
  else t.writes ++ put t.pos (List.replicate (length - t.pos) (chr ' '))

/-- The headers behind the status line; Content-Length only if all others fit. -/
def sipPutHeaders (total length : ℕ) (headers : List Bytes) (t : SipText) : SipText :=
  let r := sipPutlines length headers t
  if r.2 then
    match sipContentLength total length r.1.pos with
    | some line => (sipPutline length r.1 line).getD r.1
    | none => r.1
  else r.1

def writeSip (total padding : ℕ) (seed : U32) : List (ℕ × U8) :=
  if padding = 0 then []
  else
    match sipPutStatus padding 3 (seed.toNat % 3) with
    | none => sipFragment padding
    | some t => sipFinish padding (sipPutHeaders total padding (sipHeaders seed) t)

/-! ## Filling -/

/-- The writes of `imitate_fill_prefix` in front of `payload`. -/
def prefixWrites (p : ImitateProto) (padding : ℕ) (payload : Bytes) : List (ℕ × U8) :=
  let seed := imitateFnv1aSeed payload
  let total := padding + payload.length
  match p with
  | .quic => writeQuicShort padding seed
  | .dns => writeDnsMsg total padding (payload.getD 0 0, payload.getD 1 0)
  | .stun => writeStun padding seed
  | .sip => writeSip total padding seed
  | .none => []

/-- `imitate_fill_prefix` on a whole datagram. -/
def imitateFillPrefix (p : ImitateProto) (padding : ℕ) (buf : Bytes) : Bytes :=
  if padding = 0 ∨ padding ≥ buf.length then buf
  else stores (prefixWrites p padding (buf.drop padding)) buf

/-- `imitate_fill_whole`. -/
def imitateFillWhole (p : ImitateProto) (seed : U32) (buf : Bytes) : Bytes :=
  match p with
  | .quic => stores (writeQuicShort buf.length seed) buf
  | .dns => stores (writeDnsMsg buf.length buf.length ((seed >>> 8).setWidth 8, seed.setWidth 8)) buf
  | .stun => stores (writeStun buf.length seed) buf
  | .sip => stores (writeSip buf.length buf.length seed) buf
  | .none => buf

/-! ## Coverage

Every writer fills its padding exactly. -/

theorem length_be16 (v : U16) : (be16 v).length = 2 := rfl

theorem be16_eq (v : U16) : be16 v = Wire.be 2 v.toNat := by
  have hhigh : (v >>> 8).setWidth 8 = BitVec.ofNat 8 (v.toNat / 256 ^ 1) := by
    apply BitVec.eq_of_toNat_eq
    simp [Nat.shiftRight_eq_div_pow]
  have hlow : v.setWidth 8 = BitVec.ofNat 8 (v.toNat / 256 ^ 0) := by
    apply BitVec.eq_of_toNat_eq
    simp
  rw [be16, hhigh, hlow]
  rfl

theorem be32_eq (v : U32) : be32 v = Wire.be 4 v.toNat := by
  have hbyte : ∀ k, (v >>> (8 * k)).setWidth 8 = BitVec.ofNat 8 (v.toNat / 256 ^ k) := by
    intro k
    apply BitVec.eq_of_toNat_eq
    have hpow : 2 ^ (8 * k) = 256 ^ k := by rw [Nat.pow_mul]
    simp [Nat.shiftRight_eq_div_pow, hpow]
  have hlow : v.setWidth 8 = BitVec.ofNat 8 (v.toNat / 256 ^ 0) := hbyte 0
  rw [be32, hbyte 3, hbyte 2, hbyte 1, hlow]
  rfl

theorem length_quicBody (n : ℕ) (state : U32) : (quicBody n state).length = n := by
  induction n generalizing state with
  | zero => rfl
  | succ n ih => rw [quicBody, List.length_cons, ih]

theorem length_stunChars (n : ℕ) (state : U32) : (stunChars n state).length = n := by
  induction n generalizing state with
  | zero => rfl
  | succ n ih => rw [stunChars, List.length_cons, ih]

theorem writeDnsOptResponse_fills (total : ℕ) {padding : ℕ} (h : 32 ≤ padding) (txid : U8 × U8) :
    Fills 0 padding (writeDnsOptResponse total padding txid) := by
  have hzeros : Fills 32 padding (put 32 (List.replicate (padding - 32) (0 : U8))) := by
    refine fills_put ?_
    rw [List.length_replicate]
    omega
  exact Fills.append (fills_put rfl) hzeros (Nat.zero_le _) h

theorem writeDnsNull_fills (total padding : ℕ) (txid : U8 × U8) :
    Fills 0 padding (writeDnsNull total padding txid) := by
  unfold writeDnsNull
  -- the copied part is as long as `copy_len` says
  have hfixed : (dnsNullFixed total padding txid).length = 28 := rfl
  generalize hadv : (if padding ≥ 28 then 28 else if padding ≥ 17 then 17 else 12) = advertised
  have hadv' : advertised ≤ 28 := by
    rw [← hadv]
    split_ifs <;> omega
  dsimp only
  generalize hcopy : (if padding < advertised then padding else advertised) = copyLen
  have hcopy' : copyLen ≤ padding ∧ copyLen ≤ 28 := by
    rw [← hcopy]
    split_ifs <;> omega
  refine Fills.append (b := copyLen) (fills_put ?_) (fills_put ?_) (Nat.zero_le _) hcopy'.1
  · rw [List.length_take, hfixed]
    omega
  · rw [List.length_replicate]
    omega

theorem writeDnsMsg_fills (total padding : ℕ) (txid : U8 × U8) :
    Fills 0 padding (writeDnsMsg total padding txid) := by
  unfold writeDnsMsg
  split
  · exact writeDnsNull_fills total padding txid
  · exact writeDnsOptResponse_fills total (by omega) txid

theorem writeQuicShort_fills (padding : ℕ) (seed : U32) :
    Fills 0 padding (writeQuicShort padding seed) := by
  unfold writeQuicShort
  split
  · next h =>
    rw [h]
    exact fills_nil 0
  · next h =>
    have hbody : ∀ state, Fills 1 padding (put 1 (quicBody (padding - 1) state)) := by
      intro state
      refine fills_put ?_
      rw [length_quicBody]
      omega
    exact Fills.append (b := 1) (fills_put rfl) (hbody _) (Nat.zero_le _) (by omega)

/-- The attribute area: it fills what it counts, within the body. -/
structure StunArea.Good (a : StunArea) (body : ℕ) : Prop where
  fills : Fills 20 (20 + a.written) a.writes
  le : a.written ≤ body

theorem stunMapped_good (body : ℕ) (state : U32) : (stunMapped body state).Good body := by
  unfold stunMapped
  split
  · next h => exact ⟨fills_put rfl, h⟩
  · exact ⟨fills_nil 20, Nat.zero_le body⟩

theorem stunSoftware_good {body : ℕ} {a : StunArea} (h : a.Good body) :
    (stunSoftware body a).Good body := by
  unfold stunSoftware
  dsimp only
  split
  · next hrem =>
    generalize hv : (if body - a.written - 4 > 124 then 124 else body - a.written - 4) = vlen
    have hv' : vlen ≤ body - a.written - 4 := by
      rw [← hv]
      split_ifs <;> omega
    have hattr : Fills (20 + a.written) (20 + (a.written + (4 + vlen)))
        (put (20 + a.written) (be16 0x8022 ++ be16 (BitVec.ofNat 16 vlen) ++
          stunChars vlen a.state)) := by
      refine fills_put ?_
      rw [List.length_append, List.length_append, length_be16, length_be16, length_stunChars]
      omega
    constructor
    · show Fills 20 (20 + (a.written + (4 + vlen))) _
      exact h.fills.append hattr (by omega) (by omega)
    · show a.written + (4 + vlen) ≤ body
      omega
  · exact h

theorem stunBody_eq_zero {padding : ℕ} (h : padding < 20) : stunBody padding = 0 :=
  if_neg (by omega)

theorem stunBody_le {padding : ℕ} (h : 20 ≤ padding) : 20 + stunBody padding ≤ padding := by
  unfold stunBody
  split_ifs <;> omega

theorem writeStun_fills (padding : ℕ) (seed : U32) : Fills 0 padding (writeStun padding seed) := by
  unfold writeStun
  split
  · next h =>
    rw [h]
    exact fills_nil 0
  dsimp only
  generalize ha : stunSoftware (stunBody padding) _ = a
  have hgood : a.Good (stunBody padding) := by
    rw [← ha]
    exact stunSoftware_good (stunMapped_good _ _)
  have hle := hgood.le
  have hheader : (stunHeader a.written seed).length = 20 := rfl
  by_cases hpad : padding < 20
  · -- only the front of the header
    have hbody := stunBody_eq_zero hpad
    have hwritten : a.written = 0 := by omega
    have hfills := hgood.fills
    rw [hwritten] at hfills
    rw [hfills.eq_nil, if_pos hpad, Nat.sub_eq_zero_of_le (by omega), List.replicate_zero, put,
      List.nil_append, List.append_nil]
    refine fills_put ?_
    rw [List.length_take, hheader]
    omega
  · -- the header, the attributes and zeros
    have hbody := stunBody_le (Nat.le_of_not_lt hpad)
    have hhead : Fills 0 20 (put 0 ((stunHeader a.written seed).take 20)) := by
      refine fills_put ?_
      rw [List.length_take, hheader]
      omega
    have hzeros : Fills (20 + a.written) padding
        (put (20 + a.written) (List.replicate (padding - (20 + a.written)) (0 : U8))) := by
      refine fills_put ?_
      rw [List.length_replicate]
      omega
    rw [if_neg hpad]
    exact (hhead.append hgood.fills (by omega) (by omega)).comm.append hzeros (by omega) (by omega)

/-- The text so far fills the buffer up to its position. -/
structure SipText.Good (t : SipText) (length : ℕ) : Prop where
  fills : Fills 0 t.pos t.writes
  le : t.pos ≤ length

variable {length : ℕ} {t : SipText}

theorem sipPutline_good {t' : SipText} {line : Bytes} (h : t.Good length)
    (hput : sipPutline length t line = some t') : t'.Good length := by
  unfold sipPutline at hput
  split at hput
  · next hfit =>
    cases hput
    constructor
    · exact h.fills.append (fills_put rfl) (Nat.zero_le _) (Nat.le_add_right _ _)
    · show t.pos + line.length ≤ length
      omega
  · cases hput

theorem sipPutStatus_good {n i : ℕ} (hput : sipPutStatus length n i = some t) : t.Good length := by
  induction n generalizing i with
  | zero => cases hput
  | succ n ih =>
    rw [sipPutStatus] at hput
    split at hput
    · next t' ht' =>
      cases hput
      exact sipPutline_good ⟨fills_nil 0, Nat.zero_le length⟩ ht'
    · exact ih hput

theorem sipPutlines_good (lines : List Bytes) (h : t.Good length) :
    (sipPutlines length lines t).1.Good length := by
  induction lines generalizing t with
  | nil => exact h
  | cons line lines ih =>
    rw [sipPutlines]
    split
    · next t' ht' => exact ih (sipPutline_good h ht')
    · exact h

theorem sipFinish_fills (h : t.Good length) : Fills 0 length (sipFinish length t) := by
  have hspaces : ∀ {k : ℕ}, k ≤ length →
      Fills k length (put k (List.replicate (length - k) (chr ' '))) := by
    intro k hk
    refine fills_put ?_
    rw [List.length_replicate]
    omega
  unfold sipFinish
  split
  · next hfit =>
    have hblank : Fills t.pos (t.pos + 2) (put t.pos (ascii "\r\n")) := fills_put rfl
    exact (h.fills.append hblank (by omega) (by omega)).append (hspaces hfit) (by omega) hfit
  · exact h.fills.append (hspaces h.le) (Nat.zero_le _) h.le

theorem sipFragment_fills (length : ℕ) : Fills 0 length (sipFragment length) := by
  unfold sipFragment
  dsimp only
  generalize htake : (if 20 > length then length else 20) = take
  have htake' : take ≤ length ∧ take ≤ 20 := by
    rw [← htake]
    split_ifs <;> omega
  have hfrag : Fills 0 take (put 0 ((ascii "SIP/2.0 100 Trying\r\n").take take)) := by
    refine fills_put ?_
    rw [List.length_take, show (ascii "SIP/2.0 100 Trying\r\n").length = 20 from rfl]
    omega
  have hspaces : Fills take length (put take (List.replicate (length - take) (chr ' '))) := by
    refine fills_put ?_
    rw [List.length_replicate]
    omega
  refine (hfrag.append hspaces (Nat.zero_le _) htake'.1).over ?_
  -- the line end is written over the last two bytes
  intro w hw
  split at hw
  · next hlen =>
    have hend : Fills (length - 2) length (put (length - 2) (ascii "\r\n")) :=
      fills_put (Nat.sub_add_cancel hlen)
    have := hend.inside w hw
    omega
  · cases hw

theorem sipPutHeaders_good {total : ℕ} {headers : List Bytes} (h : t.Good length) :
    (sipPutHeaders total length headers t).Good length := by
  have hlines := sipPutlines_good headers h
  unfold sipPutHeaders
  dsimp only
  split
  · split
    · next line _ =>
      cases hput : sipPutline length (sipPutlines length headers t).1 line with
      | none => exact hlines
      | some t' => exact sipPutline_good hlines hput
    · exact hlines
  · exact hlines

theorem writeSip_fills (total padding : ℕ) (seed : U32) :
    Fills 0 padding (writeSip total padding seed) := by
  unfold writeSip
  generalize sipHeaders seed = headers
  split
  · next h =>
    rw [h]
    exact fills_nil 0
  split
  · exact sipFragment_fills padding
  · next t ht => exact sipFinish_fills (sipPutHeaders_good (sipPutStatus_good ht))

variable {p : ImitateProto}

/-- `imitate_fill_prefix` fills exactly the padding. -/
theorem prefixWrites_fills (hp : p ≠ .none) (padding : ℕ) (payload : Bytes) :
    Fills 0 padding (prefixWrites p padding payload) := by
  cases p with
  | none => exact absurd rfl hp
  | quic => exact writeQuicShort_fills _ _
  | dns => exact writeDnsMsg_fills _ _ _
  | stun => exact writeStun_fills _ _
  | sip => exact writeSip_fills _ _ _

/-! ## The padding as a function of the payload -/

/-- The padding that `imitate_fill_prefix` computes in front of `payload`. -/
def paddingFor (p : ImitateProto) (padding : ℕ) (payload : Bytes) : Bytes :=
  (imitateFillPrefix p padding (List.replicate padding 0 ++ payload)).take padding

theorem imitateFillPrefix_stores (hp : p ≠ .none) (stale : Bytes) {payload : Bytes}
    (hpayload : payload ≠ []) :
    imitateFillPrefix p stale.length (stale ++ payload) =
      stores (prefixWrites p stale.length payload) (List.replicate stale.length 0) ++ payload := by
  have hpos : 0 < payload.length := List.length_pos_iff.mpr hpayload
  have hfills := prefixWrites_fills hp stale.length payload
  have hdrop : (stale ++ payload).drop stale.length = payload := List.drop_left
  have hlen : stale.length ≤ (stale ++ payload).length := by
    rw [List.length_append]
    omega
  unfold imitateFillPrefix
  split
  · next h =>
    -- only the case without padding is left
    have hzero : stale = [] := by
      rw [List.length_append] at h
      exact List.length_eq_zero_iff.mp (by omega)
    subst hzero
    rw [hfills.eq_nil]
    rfl
  · rw [hdrop, hfills.stores_eq 0 hlen, hdrop]

theorem paddingFor_eq (hp : p ≠ .none) (padding : ℕ) {payload : Bytes} (hpayload : payload ≠ []) :
    paddingFor p padding payload =
      stores (prefixWrites p padding payload) (List.replicate padding 0) := by
  have h := imitateFillPrefix_stores hp (List.replicate padding 0) hpayload
  rw [List.length_replicate] at h
  rw [paddingFor, h, List.take_left' (by rw [length_stores, List.length_replicate])]

/-- Whatever the padding held before, it becomes the padding for what follows it. -/
theorem imitateFillPrefix_eq (hp : p ≠ .none) (stale : Bytes) {payload : Bytes}
    (hpayload : payload ≠ []) :
    imitateFillPrefix p stale.length (stale ++ payload) =
      paddingFor p stale.length payload ++ payload := by
  rw [imitateFillPrefix_stores hp stale hpayload, paddingFor_eq hp _ hpayload]

end AmneziaWg
