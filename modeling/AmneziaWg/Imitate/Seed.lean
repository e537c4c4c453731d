import AmneziaWg.Imitate.Writers

/-!
# What the padding tells about the payload

The padding is computed from a hash of the payload. For some protocols and sizes
the hash does not reach the padding: `SeedFree`. There the padding depends on the
length of the payload and its first two bytes only (`prefixWrites_seedFree`); for
all other sizes two different seeds show in it (`prefixWrites_distinguished`).
-/

namespace AmneziaWg

open Linux Writes

/-- The sizes for which a filler of the protocol does not use the seed: no QUIC
byte is free of it, DNS uses none, the transaction id of STUN starts at byte 8,
and in less than 22 bytes at most one of the SIP status lines fits. -/
def SeedFree : ImitateProto → ℕ → Prop
  | .none, _ => True
  | .quic, n => n = 0
  | .dns, _ => True
  | .stun, n => n ≤ 8
  | .sip, n => n < 22

/-! ## Seed-free sizes -/

/-- The STUN header in front of the transaction id. -/
theorem writeStun_short {padding : ℕ} (h : padding ≤ 8) (seed : U32) :
    writeStun padding seed =
      put 0 ((be16 0x0101 ++ be16 0 ++ be32 stunCookie).take padding) := by
  have hbody : stunBody padding = 0 := stunBody_eq_zero (by omega)
  have hheader : (stunHeader 0 seed).take padding =
      (be16 0x0101 ++ be16 0 ++ be32 stunCookie).take padding :=
    List.take_append_of_le_length h
  unfold writeStun
  split
  · next hzero =>
    subst hzero
    rfl
  · dsimp only
    rw [hbody, if_pos (show padding < 20 by omega)]
    show [] ++ put 0 ((stunHeader 0 seed).take padding) ++
      put 20 (List.replicate (padding - 20) 0) = _
    rw [hheader, Nat.sub_eq_zero_of_le (by omega)]
    exact List.append_nil _

theorem length_hex8 (v : U32) : (hex8 v).length = 8 := rfl

/-- The Via line is longer than any text that the short sizes have room for. -/
theorem sipHeaders_head (seed : U32) :
    ∃ via rest, sipHeaders seed = via :: rest ∧ 22 ≤ via.length := by
  refine ⟨_, _, rfl, ?_⟩
  rw [List.append_assoc, List.append_assoc, List.append_assoc, List.length_append,
    List.length_append, List.length_append, List.length_append, length_hex8]
  have : (ascii "Via: SIP/2.0/UDP ").length = 17 := rfl
  have : (ascii ":5060;branch=z9hG4bK").length = 20 := rfl
  omega

variable {length : ℕ}

theorem sipPutHeaders_short (total : ℕ) (h : length < 22) {headers : List Bytes}
    (hheaders : ∃ via rest, headers = via :: rest ∧ 22 ≤ via.length) (t : SipText) :
    sipPutHeaders total length headers t = t := by
  rcases hheaders with ⟨via, rest, heq, hvia⟩
  have hline : sipPutline length t via = none := if_neg (by omega)
  have hlines : sipPutlines length headers t = (t, false) := by
    rw [heq, sipPutlines, hline]
  unfold sipPutHeaders
  rw [hlines]
  rfl

/-- In less than 22 bytes only the shortest status line can fit. -/
theorem sipPutStatus_short (h : length < 22) {i : ℕ} (hi : i < 3) :
    sipPutStatus length 3 i = sipPutline length ⟨[], 0⟩ (sipStatusLine 2) := by
  have hlong : ∀ j, 20 ≤ (sipStatusLine j).length →
      sipPutline length ⟨[], 0⟩ (sipStatusLine j) = none := by
    intro j hj
    exact if_neg (by omega)
  have h₀ := hlong 0 (by decide)
  have h₁ := hlong 1 (by decide)
  have h₃ := hlong 3 (by decide)
  have h₄ := hlong 4 (by decide)
  have hcases : i = 0 ∨ i = 1 ∨ i = 2 := by omega
  rcases hcases with rfl | rfl | rfl
  · -- tried last, after "100 Trying" and "180 Ringing"
    simp only [sipPutStatus, h₀, h₁, Nat.reduceAdd]
    cases sipPutline length ⟨[], 0⟩ (sipStatusLine 2) <;> rfl
  · simp only [sipPutStatus, h₁, h₃, Nat.reduceAdd]
    cases sipPutline length ⟨[], 0⟩ (sipStatusLine 2) <;> rfl
  · simp only [sipPutStatus, h₃, h₄, Nat.reduceAdd]
    cases sipPutline length ⟨[], 0⟩ (sipStatusLine 2) <;> rfl

theorem writeSip_short (total : ℕ) {padding : ℕ} (h : padding < 22) (seed seed' : U32) :
    writeSip total padding seed = writeSip total padding seed' := by
  have hmod : ∀ s : U32, s.toNat % 3 < 3 := fun s => Nat.mod_lt _ (by decide)
  have hvia := sipHeaders_head seed
  have hvia' := sipHeaders_head seed'
  unfold writeSip
  generalize sipHeaders seed = headers at hvia ⊢
  generalize sipHeaders seed' = headers' at hvia' ⊢
  rw [sipPutStatus_short h (hmod seed), sipPutStatus_short h (hmod seed')]
  simp only [sipPutHeaders_short total h hvia, sipPutHeaders_short total h hvia']

variable {n : ℕ}

/-- At a seed-free size the padding depends on the first two bytes of the payload
and its length only. -/
theorem prefixWrites_seedFree {p : ImitateProto} (hfree : SeedFree p n) {payload payload' : Bytes}
    (hlen : payload.length = payload'.length) (h₀ : payload.getD 0 0 = payload'.getD 0 0)
    (h₁ : payload.getD 1 0 = payload'.getD 1 0) :
    prefixWrites p n payload = prefixWrites p n payload' := by
  unfold prefixWrites
  generalize imitateFnv1aSeed payload = seed
  generalize imitateFnv1aSeed payload' = seed'
  cases p with
  | none => rfl
  | quic =>
    have hn : n = 0 := hfree
    simp only [writeQuicShort, hn, ↓reduceIte]
  | dns => simp only [hlen, h₀, h₁]
  | stun => simp only [writeStun_short (show n ≤ 8 from hfree)]
  | sip =>
    simp only [hlen]
    exact writeSip_short _ hfree seed seed'

/-! ## All other sizes -/

/-- Seeds that every writer tells apart: in the first QUIC byte, the first byte of
the STUN transaction id, and the SIP status line. -/
structure Distinguished (seed seed' : U32) : Prop where
  quic : quicFirst seed ≠ quicFirst seed'
  stun : (seed >>> 24).setWidth 8 ≠ (seed' >>> 24).setWidth 8
  sip : seed.toNat % 3 = 0 ∧ seed'.toNat % 3 = 2

variable {k : ℕ}

/-- A later copy does not change the places in front of it. -/
theorem stores_append_put {ws : List (ℕ × U8)} {off : ℕ} (hk : k < off) (bs buf : Bytes) :
    (stores (ws ++ put off bs) buf)[k]? = (stores ws buf)[k]? := by
  rw [stores_append, stores_frame]
  intro w hw
  have := ((fills_put rfl).inside w hw).1
  omega

variable {buf : Bytes}

theorem writeQuicShort_get (hn : 0 < n) (seed : U32) (hbuf : n ≤ buf.length) :
    (stores (writeQuicShort n seed) buf)[0]? = some (quicFirst seed) := by
  rw [writeQuicShort, if_neg (by omega), stores_append_put (by omega)]
  have hlen : [quicFirst seed].length = 1 := rfl
  exact stores_put_zero (by omega) (by omega)

theorem writeStun_get (hn : 8 < n) (seed : U32) (hbuf : n ≤ buf.length) :
    (stores (writeStun n seed) buf)[8]? = some ((seed >>> 24).setWidth 8) := by
  rw [writeStun, if_neg (by omega)]
  dsimp only
  generalize stunSoftware (stunBody n) _ = a
  generalize hcopy : (if n < 20 then n else 20) = copyLen
  have hcopy' : 8 < copyLen ∧ copyLen ≤ n ∧ copyLen ≤ 20 := by
    rw [← hcopy]
    split_ifs <;> omega
  have hlen : ((stunHeader a.written seed).take copyLen).length = copyLen := by
    rw [List.length_take, show (stunHeader a.written seed).length = 20 from rfl]
    omega
  rw [stores_append_put (by omega), stores_append]
  rw [stores_put_zero (by omega) (by rw [length_stores]; omega), List.getElem?_take_of_lt hcopy'.1]
  rfl

/-- The text only grows at its end. -/
structure SipText.Extends (t t' : SipText) : Prop where
  writes : ∃ ws, t'.writes = t.writes ++ ws ∧ ∀ w ∈ ws, t.pos ≤ w.1
  pos : t.pos ≤ t'.pos

theorem SipText.Extends.refl (t : SipText) : t.Extends t :=
  ⟨⟨[], (List.append_nil _).symm, fun _ hw => nomatch hw⟩, Nat.le_refl _⟩

variable {t t' : SipText}

theorem SipText.Extends.trans {t'' : SipText} (h : t.Extends t') (h' : t'.Extends t'') :
    t.Extends t'' := by
  rcases h.writes with ⟨ws, heq, hws⟩
  rcases h'.writes with ⟨ws', heq', hws'⟩
  refine ⟨⟨ws ++ ws', by rw [heq', heq, List.append_assoc], ?_⟩, le_trans h.pos h'.pos⟩
  intro w hw
  rcases List.mem_append.mp hw with hw | hw
  · exact hws w hw
  · exact le_trans h.pos (hws' w hw)

theorem sipPutline_extends {line : Bytes} (h : sipPutline length t line = some t') :
    t.Extends t' := by
  unfold sipPutline at h
  split at h
  · cases h
    refine ⟨⟨_, rfl, ?_⟩, Nat.le_add_right _ _⟩
    intro w hw
    exact ((fills_put rfl).inside w hw).1
  · cases h

theorem sipPutlines_extends (length : ℕ) (lines : List Bytes) (t : SipText) :
    t.Extends (sipPutlines length lines t).1 := by
  induction lines generalizing t with
  | nil => exact .refl t
  | cons line lines ih =>
    rw [sipPutlines]
    split
    · next t' ht' => exact (sipPutline_extends ht').trans (ih t')
    · exact .refl t

theorem sipPutHeaders_extends {total : ℕ} (headers : List Bytes) (t : SipText) :
    t.Extends (sipPutHeaders total length headers t) := by
  have hlines := sipPutlines_extends length headers t
  unfold sipPutHeaders
  dsimp only
  split
  · split
    · next line _ =>
      cases hput : sipPutline length (sipPutlines length headers t).1 line with
      | none => exact hlines
      | some t' => exact hlines.trans (sipPutline_extends hput)
    · exact hlines
  · exact hlines

/-- What stands in front of the position is kept to the end. -/
theorem stores_sipFinish (h : t.Extends t') (hk : k < t.pos) (buf : Bytes) :
    (stores (sipFinish length t') buf)[k]? = (stores t.writes buf)[k]? := by
  rcases h.writes with ⟨ws, heq, hws⟩
  have hpos := h.pos
  have hkeep : (stores t'.writes buf)[k]? = (stores t.writes buf)[k]? := by
    rw [heq, stores_append, stores_frame]
    intro w hw
    have := hws w hw
    omega
  unfold sipFinish
  split
  · rw [stores_append_put (by omega), stores_append_put (by omega)]
    exact hkeep
  · rw [stores_append_put (by omega)]
    exact hkeep

/-- A status line that fits where its seed points stands at the front of the padding. -/
theorem writeSip_get {total i : ℕ} {seed : U32} (hseed : seed.toNat % 3 = i)
    (hfit : (sipStatusLine i).length + 2 ≤ n) (hbuf : n ≤ buf.length)
    (hk : k < (sipStatusLine i).length) :
    (stores (writeSip total n seed) buf)[k]? = (sipStatusLine i)[k]? := by
  have hline : sipPutline n ⟨[], 0⟩ (sipStatusLine i) =
      some ⟨put 0 (sipStatusLine i), (sipStatusLine i).length⟩ := by
    have hfit' : 0 + (sipStatusLine i).length + 2 ≤ n := by omega
    rw [sipPutline, if_pos hfit', List.nil_append, Nat.zero_add]
  unfold writeSip
  generalize sipHeaders seed = headers
  rw [if_neg (by omega), hseed, sipPutStatus, hline]
  dsimp only
  rw [stores_sipFinish (sipPutHeaders_extends headers _) hk]
  exact stores_put_zero hk (by omega)

/-- Where the size is not seed-free, distinguished seeds give different paddings. -/
theorem prefixWrites_distinguished {p : ImitateProto} (hfree : ¬ SeedFree p n)
    {payload payload' : Bytes}
    (hseed : Distinguished (imitateFnv1aSeed payload) (imitateFnv1aSeed payload'))
    (hbuf : n ≤ buf.length) :
    stores (prefixWrites p n payload) buf ≠ stores (prefixWrites p n payload') buf := by
  unfold prefixWrites
  generalize imitateFnv1aSeed payload = seed at hseed ⊢
  generalize imitateFnv1aSeed payload' = seed' at hseed ⊢
  intro heq
  cases p with
  | none => exact hfree trivial
  | quic =>
    have hn : 0 < n := Nat.pos_of_ne_zero hfree
    have hget := congrArg (·[0]?) heq
    simp only [writeQuicShort_get hn _ hbuf] at hget
    exact hseed.quic (Option.some.inj hget)
  | dns => exact hfree trivial
  | stun =>
    have hn : 8 < n := Nat.lt_of_not_le hfree
    have hget := congrArg (·[8]?) heq
    simp only [writeStun_get hn _ hbuf] at hget
    exact hseed.stun (Option.some.inj hget)
  | sip =>
    -- "100 Trying" against "200 OK"
    have hn : 22 ≤ n := Nat.le_of_not_lt hfree
    have h₀ : (sipStatusLine 0).length = 20 := rfl
    have h₂ : (sipStatusLine 2).length = 16 := rfl
    have hget := congrArg (·[8]?) heq
    dsimp only at hget
    rw [writeSip_get hseed.sip.1 (by omega) hbuf (by omega),
      writeSip_get hseed.sip.2 (by omega) hbuf (by omega)] at hget
    exact absurd hget (by decide)

end AmneziaWg
