import AmneziaWg.Imitate.Writers
import AmneziaWg.Lib.HeaderLines

/-!
# The SIP filler is a SIP header

`write_sip` writes lines while they fit. The Content-Length line comes last and states how
much follows the header of which it is part; `write_sip` searches for a number of digits that
agrees with itself.

* **Layout**: `SipText.Holds`, the text under way is a list of lines.
* **The search**: `sipBodyLength_spec`, what it finds is right; `sipContentLength_isSome`, it
  finds something whenever there is room. With one space the search can only miss at a power of
  ten, and there two spaces will do.
* **Reading**: a reader of header lines finds `SipParsed`.
-/

namespace AmneziaWg

open Linux Writes HeaderLines

/-! ## Decimal digits -/

theorem le_decimalDigitsLoop (fuel value digits : ℕ) :
    digits ≤ decimalDigitsLoop fuel value digits := by
  induction fuel generalizing value digits with
  | zero => exact Nat.le_refl digits
  | succ fuel ih =>
    rw [decimalDigitsLoop]
    split
    · exact Nat.le_of_succ_le (ih (value / 10) (digits + 1))
    · exact Nat.le_refl digits

theorem decimalDigitsLoop_le_iff {fuel v : ℕ} (h : v ≤ fuel) (digits k : ℕ) :
    decimalDigitsLoop fuel v digits ≤ digits + k ↔ v < 10 ^ (k + 1) := by
  have hpow : 10 ≤ 10 ^ (k + 1) := Nat.le_self_pow (Nat.succ_ne_zero k) 10
  induction fuel generalizing v digits k with
  | zero =>
    have hloop : decimalDigitsLoop 0 v digits = digits := rfl
    rw [hloop]
    omega
  | succ fuel ih =>
    rw [decimalDigitsLoop]
    split
    · cases k with
      | zero =>
        -- the loop goes round once more
        have hle := le_decimalDigitsLoop fuel (v / 10) (digits + 1)
        rw [Nat.zero_add, Nat.pow_one]
        omega
      | succ k =>
        have hloop := ih (v := v / 10) (by omega) (digits + 1) k
          (Nat.le_self_pow (Nat.succ_ne_zero k) 10)
        rw [Nat.div_lt_iff_lt_mul (by omega), ← Nat.pow_succ] at hloop
        rw [show digits + (k + 1) = digits + 1 + k by omega]
        exact hloop
    · omega

/-- `decimal_digits` counts digits. -/
theorem decimalDigits_le_iff (v k : ℕ) : decimalDigits v ≤ k + 1 ↔ v < 10 ^ (k + 1) := by
  rw [Nat.add_comm k 1]
  have hloop := decimalDigitsLoop_le_iff (Nat.le_refl v) 1 k
  rwa [Nat.add_comm k 1] at hloop

theorem decimalDigits_pos (v : ℕ) : 0 < decimalDigits v := le_decimalDigitsLoop v v 1

/-- What `%d` prints is as long as `decimal_digits` says. -/
theorem length_decimal (v : ℕ) : (decimal v).length = decimalDigits v := by
  have hlen : (decimal v).length = (Nat.toDigits 10 v).length := List.length_map ..
  have hpos : 0 < (Nat.toDigits 10 v).length := Nat.length_toDigits_pos
  have hpos' := decimalDigits_pos v
  have hiff : ∀ k, (Nat.toDigits 10 v).length ≤ k + 1 ↔ decimalDigits v ≤ k + 1 := by
    intro k
    rw [decimalDigits_le_iff, Nat.length_toDigits_le_iff (by omega) (by omega)]
  have hle := (hiff (decimalDigits v - 1)).mpr (by omega)
  have hge := (hiff ((Nat.toDigits 10 v).length - 1)).mp (by omega)
  omega

/-! ## The search for Content-Length -/

variable {total length pos n : ℕ}

/-- What the search returns: a body that follows a header in which it has been printed. -/
theorem sipBodyLength_spec {sws digits body : ℕ}
    (h : sipBodyLength total length pos sws n digits = some body) :
    pos + 15 + sws + decimalDigits body + 4 ≤ length ∧
      body = total - (pos + 15 + sws + decimalDigits body + 4) := by
  induction n generalizing digits with
  | zero => cases h
  | succ n ih =>
    rw [sipBodyLength] at h
    split at h
    · cases h
    · next hend =>
      split at h
      · next hdigits =>
        cases h
        rw [hdigits]
        exact ⟨Nat.le_of_not_lt hend, rfl⟩
      · exact ih h

/-- The search finds a number of digits that agrees with itself, if all that it tries fit. -/
theorem sipBodyLength_isSome {sws digits d : ℕ}
    (hroom : pos + 15 + sws + (digits + n) + 4 ≤ length + 1) (hlo : digits ≤ d)
    (hhi : d < digits + n) (hd : decimalDigits (total - (pos + 15 + sws + d + 4)) = d) :
    (sipBodyLength total length pos sws n digits).isSome := by
  induction n generalizing digits with
  | zero => omega
  | succ n ih =>
    rw [sipBodyLength]
    rw [if_neg (by omega)]
    split
    · rfl
    · next hne =>
      have hlt : digits ≠ d := by
        intro heq
        rw [heq] at hne
        exact hne hd
      exact ih (by omega) (by omega) (by omega)

/-- Where the search misses: the digits have become too few just behind a power of ten. -/
theorem sipBodyLength_none {total length pos sws n digits : ℕ}
    (hroom : pos + 15 + sws + (digits + n) + 4 ≤ length + 1)
    (hstart : digits ≤ decimalDigits (total - (pos + 15 + sws + digits + 4)))
    (hpos : 0 < digits) (hmax : decimalDigits total < digits + n)
    (h : sipBodyLength total length pos sws n digits = none) :
    ∃ d, 0 < d ∧ d ≤ decimalDigits total ∧ total - (pos + 15 + sws + d + 4) = 10 ^ d := by
  have hfew : ∀ v, v ≤ total → decimalDigits v ≤ decimalDigits total := by
    intro v hv
    have hpos := decimalDigits_pos total
    obtain ⟨k, hk⟩ : ∃ k, decimalDigits total = k + 1 := ⟨decimalDigits total - 1, by omega⟩
    have htotal := (decimalDigits_le_iff total k).mp (by omega)
    rw [hk]
    exact (decimalDigits_le_iff v k).mpr (by omega)
  induction n generalizing digits with
  | zero =>
    -- more digits than the total has
    have := hfew _ (Nat.sub_le total (pos + 15 + sws + digits + 4))
    omega
  | succ n ih =>
    rw [sipBodyLength] at h
    rw [if_neg (by omega)] at h
    split at h
    · cases h
    · next hne =>
      obtain ⟨k, rfl⟩ : ∃ k, digits = k + 1 := ⟨digits - 1, by omega⟩
      have hmany : ¬decimalDigits (total - (pos + 15 + sws + (k + 1) + 4)) ≤ k + 1 := by omega
      rw [decimalDigits_le_iff] at hmany
      by_cases hnext : k + 1 + 1 ≤ decimalDigits (total - (pos + 15 + sws + (k + 1 + 1) + 4))
      · exact ih (by omega) hnext (by omega) (by omega) h
      · -- one byte less has one digit less
        have hless : decimalDigits (total - (pos + 15 + sws + (k + 1 + 1) + 4)) ≤ k + 1 := by
          omega
        rw [decimalDigits_le_iff] at hless
        have hbound := hfew _ (Nat.sub_le total (pos + 15 + sws + (k + 1) + 4))
        exact ⟨k + 1, by omega, by omega, by omega⟩

/-- With room for both attempts, one of them succeeds. -/
theorem sipContentLength_isSome (hroom : pos + 21 + decimalDigits total ≤ length) :
    (sipContentLength total length pos).isSome := by
  unfold sipContentLength
  split
  · rfl
  · next hmiss =>
    have hdigits := decimalDigits_pos total
    have hstart : 1 ≤ decimalDigits (total - (pos + 15 + 1 + 1 + 4)) := decimalDigits_pos _
    have hmissed := @sipBodyLength_none total length pos 1 (decimalDigits total) 1 (by omega)
      hstart Nat.one_pos (by omega) hmiss
    rcases hmissed with ⟨d, hd, hmax, hpow⟩
    -- with one more space, a byte less than the power of ten follows
    have hfit : decimalDigits (total - (pos + 15 + 2 + d + 4)) = d := by
      have hbody : total - (pos + 15 + 2 + d + 4) = 10 ^ d - 1 := by omega
      obtain ⟨k, rfl⟩ : ∃ k, d = k + 1 := ⟨d - 1, by omega⟩
      have hle : decimalDigits (10 ^ (k + 1) - 1) ≤ k + 1 := by
        rw [decimalDigits_le_iff]
        have := Nat.pow_pos (n := k + 1) (show 0 < 10 by omega)
        omega
      have hge : ¬decimalDigits (10 ^ (k + 1) - 1) ≤ k := by
        cases k with
        | zero =>
          have := decimalDigits_pos (10 ^ (0 + 1) - 1)
          omega
        | succ k =>
          rw [decimalDigits_le_iff, Nat.pow_succ 10 (k + 1)]
          have := Nat.pow_pos (n := k + 1) (show 0 < 10 by omega)
          omega
      rw [hbody]
      omega
    have hfound : (sipBodyLength total length pos 2 (decimalDigits total) 1).isSome :=
      sipBodyLength_isSome (by omega) hd (by omega) hfit
    split
    · rfl
    · next hnone =>
      rw [hnone] at hfound
      cases hfound

/-- The line: its length is the one that the search has counted with. -/
theorem sipContentLength_spec {line : Bytes} (h : sipContentLength total length pos = some line) :
    ∃ sws body, line = ascii "Content-Length" ++ chr ':' ::
        (List.replicate sws (chr ' ') ++ (decimal body ++ crlf)) ∧
      pos + line.length + 2 ≤ length ∧ body = total - (pos + line.length + 2) := by
  have hspec : ∀ sws body, sipBodyLength total length pos sws (decimalDigits total) 1 = some body →
      line = ascii "Content-Length" ++ chr ':' ::
        (List.replicate sws (chr ' ') ++ (decimal body ++ crlf)) →
      pos + line.length + 2 ≤ length ∧ body = total - (pos + line.length + 2) := by
    intro sws body hbody hline
    have hlen : pos + line.length + 2 = pos + 15 + sws + decimalDigits body + 4 := by
      have hname : (ascii "Content-Length").length = 14 := rfl
      have hend : crlf.length = 2 := rfl
      rw [hline, List.length_append, List.length_cons, List.length_append, List.length_append,
        List.length_replicate, length_decimal, hname, hend]
      omega
    rw [hlen]
    exact sipBodyLength_spec hbody
  have hone : ascii "Content-Length: " =
      ascii "Content-Length" ++ chr ':' :: List.replicate 1 (chr ' ') := by decide
  have htwo : ascii "Content-Length:  " =
      ascii "Content-Length" ++ chr ':' :: List.replicate 2 (chr ' ') := by decide
  have hend : ascii "\r\n" = crlf := by decide
  unfold sipContentLength at h
  split at h
  · next body hbody =>
    have hline : line = ascii "Content-Length" ++ chr ':' ::
        (List.replicate 1 (chr ' ') ++ (decimal body ++ crlf)) := by
      cases h
      simp only [hone, hend, List.append_assoc, List.cons_append]
    exact ⟨1, body, hline, hspec 1 body hbody hline⟩
  · split at h
    · next body hbody =>
      have hline : line = ascii "Content-Length" ++ chr ':' ::
          (List.replicate 2 (chr ' ') ++ (decimal body ++ crlf)) := by
        cases h
        simp only [htwo, hend, List.append_assoc, List.cons_append]
      exact ⟨2, body, hline, hspec 2 body hbody hline⟩
    · cases h

/-! ## Lines -/

/-- The lines that the text consists of; there is room for an empty one behind them. -/
structure SipText.Holds (t : SipText) (length : ℕ) (lines : List Bytes) : Prop where
  lays : Lays 0 lines.flatten t.writes
  pos : lines.flatten.length = t.pos
  room : t.pos + 2 ≤ length

variable {t : SipText} {lines : List Bytes}

theorem sipPutline_holds {t' : SipText} {line : Bytes} (hlays : Lays 0 lines.flatten t.writes)
    (hpos : lines.flatten.length = t.pos) (h : sipPutline length t line = some t') :
    t'.Holds length (lines ++ [line]) := by
  unfold sipPutline at h
  split at h
  · next hfit =>
    cases h
    refine ⟨?_, ?_, hfit⟩
    · rw [List.flatten_append, List.flatten_singleton]
      refine hlays.append ?_
      rw [hpos, Nat.zero_add]
      exact lays_put t.pos line
    · rw [List.flatten_append, List.flatten_singleton, List.length_append, hpos]
  · cases h

theorem sipPutStatus_holds {i : ℕ} (h : sipPutStatus length n i = some t) :
    ∃ k, t.Holds length [sipStatusLine k] := by
  induction n generalizing i with
  | zero => cases h
  | succ n ih =>
    rw [sipPutStatus] at h
    split at h
    · next t' ht' =>
      cases h
      have hstart : Lays 0 ([] : List Bytes).flatten (SipText.mk [] 0).writes := lays_nil 0
      exact ⟨i, sipPutline_holds hstart rfl ht'⟩
    · exact ih h

/-- If no rotation fits, then none of those tried does. -/
theorem sipPutStatus_none {i k : ℕ} (h : sipPutStatus length n i = none) (hlo : i ≤ k)
    (hhi : k < i + n) : length < (sipStatusLine k).length + 2 := by
  induction n generalizing i with
  | zero => omega
  | succ n ih =>
    rw [sipPutStatus] at h
    split at h
    · cases h
    · next hline =>
      rcases Nat.eq_or_lt_of_le hlo with rfl | hlt
      · unfold sipPutline at hline
        split at hline
        · cases hline
        · next hfit =>
          rw [Nat.zero_add] at hfit
          omega
      · exact ih h hlt (by omega)

/-- The shortest status line is among any three. -/
theorem sipPutStatus_isSome (h : 18 ≤ length) (i : ℕ) :
    ∃ t k, sipPutStatus length 3 i = some t ∧ t.Holds length [sipStatusLine k] := by
  cases hput : sipPutStatus length 3 i with
  | some t =>
    rcases sipPutStatus_holds hput with ⟨k, hk⟩
    exact ⟨t, k, rfl, hk⟩
  | none =>
    obtain ⟨k, hlo, hhi, hk⟩ : ∃ k, i ≤ k ∧ k < i + 3 ∧ k % 3 = 2 :=
      ⟨i + (2 - i % 3), by omega, by omega, by omega⟩
    have hline : (sipStatusLine k).length = 16 := by
      rw [sipStatusLine, sipStatus, hk]
      rfl
    have hnone := sipPutStatus_none hput hlo hhi
    omega

/-- The lines that are put are the first ones. -/
theorem sipPutlines_holds {headers : List Bytes} (h : t.Holds length lines) :
    ∃ n ≤ headers.length, (sipPutlines length headers t).1.Holds length (lines ++ headers.take n) ∧
      ((sipPutlines length headers t).2 = true ↔ n = headers.length) := by
  induction headers generalizing t lines with
  | nil => exact ⟨0, Nat.le_refl 0, by rwa [List.take_nil, List.append_nil], by simp [sipPutlines]⟩
  | cons line headers ih =>
    rw [sipPutlines]
    split
    · next t' ht' =>
      rcases ih (sipPutline_holds h.lays h.pos ht') with ⟨n, hn, hholds, hall⟩
      refine ⟨n + 1, Nat.succ_le_succ hn, ?_, ?_⟩
      · rw [List.take_succ_cons]
        rwa [List.append_assoc] at hholds
      · rw [hall, List.length_cons]
        omega
    · refine ⟨0, Nat.zero_le _, ?_, ?_⟩
      · rwa [List.take_zero, List.append_nil]
      · rw [List.length_cons]
        simp

/-- Content-Length: what it says, if it is there, and when it is. -/
structure ContentLength (total length pos : ℕ) (cl : Option Bytes) : Prop where
  value : ∀ line, cl = some line → ∃ sws body, line = ascii "Content-Length" ++ chr ':' ::
      (List.replicate sws (chr ' ') ++ (decimal body ++ crlf)) ∧
    body = total - (pos + line.length + 2)
  present : pos + 21 + decimalDigits total ≤ length → cl.isSome

theorem sipContentLength_holds (h : t.Holds length lines) :
    ContentLength total length t.pos (sipContentLength total length t.pos) ∧
      ∀ line, sipContentLength total length t.pos = some line →
        ∃ t', sipPutline length t line = some t' ∧ t'.Holds length (lines ++ [line]) := by
  refine ⟨⟨?_, sipContentLength_isSome⟩, ?_⟩
  · intro line hline
    rcases sipContentLength_spec hline with ⟨sws, body, htext, -, hbody⟩
    exact ⟨sws, body, htext, hbody⟩
  · intro line hline
    rcases sipContentLength_spec hline with ⟨-, -, -, hroom, -⟩
    have hput : sipPutline length t line =
        some ⟨t.writes ++ put t.pos line, t.pos + line.length⟩ := if_pos hroom
    exact ⟨_, hput, sipPutline_holds h.lays h.pos hput⟩

theorem sipPutHeaders_holds {total length : ℕ} {headers lines : List Bytes} {t : SipText}
    (h : t.Holds length lines) :
    ∃ n ≤ headers.length, ∃ cl : Option Bytes,
      (sipPutHeaders total length headers t).Holds length (lines ++ headers.take n ++ cl.toList) ∧
      (cl.isSome → n = headers.length) ∧
      (n = headers.length → ContentLength total length (lines ++ headers).flatten.length cl) := by
  rcases sipPutlines_holds h with ⟨n, hn, hholds, hall⟩
  refine ⟨n, hn, ?_⟩
  unfold sipPutHeaders
  generalize sipPutlines length headers t = r at hholds hall
  dsimp only
  by_cases hdone : r.2 = true
  · -- all lines were put
    have hlast := hall.mp hdone
    rcases sipContentLength_holds hholds with ⟨hcl, hput⟩
    have hpos := hholds.pos
    rw [hlast, List.take_length] at hpos
    rw [if_pos hdone, hpos]
    refine ⟨sipContentLength total length r.1.pos, ?_, fun _ => hlast, fun _ => hcl⟩
    cases hline : sipContentLength total length r.1.pos with
    | none =>
      dsimp only
      rwa [Option.toList_none, List.append_nil]
    | some line =>
      rcases hput line hline with ⟨t', ht', hholds'⟩
      dsimp only
      rw [ht', Option.toList_some]
      exact hholds'
  · rw [if_neg hdone]
    refine ⟨none, ?_, ?_, ?_⟩
    · rwa [Option.toList_none, List.append_nil]
    · intro hsome
      cases hsome
    · intro hlast
      exact absurd (hall.mpr hlast) hdone

theorem sipFinish_lays (h : t.Holds length lines) :
    Lays 0 (lines.flatten ++ crlf ++ List.replicate (length - (t.pos + 2)) (chr ' '))
      (sipFinish length t) := by
  have hend : crlf.length = 2 := rfl
  rw [sipFinish, if_pos h.room]
  refine (h.lays.append ?_).append ?_
  · rw [Nat.zero_add, h.pos]
    exact lays_put t.pos crlf
  · rw [Nat.zero_add, List.length_append, h.pos, hend]
    exact lays_put (t.pos + 2) _

/-! ## The lines are lines -/

theorem cr_not_mem_hexDigit (v : U8) : hexDigit (v &&& 0x0f) ≠ 0x0d := by
  have hlow : (v &&& 0x0f).toNat ≤ 0x0f := by
    rw [BitVec.toNat_and]
    exact Nat.and_le_right
  unfold hexDigit
  generalize v &&& 0x0f = digit at hlow ⊢
  split <;> bv_omega

theorem cr_not_mem_hex8 (v : U32) : (0x0d : U8) ∉ hex8 v := by
  intro h
  rcases List.mem_map.mp h with ⟨k, -, hk⟩
  exact cr_not_mem_hexDigit _ hk

theorem cr_not_mem_decimal (n : ℕ) : (0x0d : U8) ∉ decimal n := by
  intro h
  exact absurd (mem_toDigits h).1 (by decide)

theorem cr_not_mem_sipHost (i : ℕ) : (0x0d : U8) ∉ sipHost i := by
  unfold sipHost
  split <;> decide

theorem cr_not_mem_sipMethod (i : ℕ) : (0x0d : U8) ∉ sipMethod i := by
  unfold sipMethod
  split <;> decide

theorem sipHost_ne_nil (i : ℕ) : sipHost i ≠ [] := by
  unfold sipHost
  split <;> decide

theorem sipMethod_ne_nil (i : ℕ) : sipMethod i ≠ [] := by
  unfold sipMethod
  split <;> decide

theorem sipStatusLine_isLine (i : ℕ) : IsLine (sipStatusLine i) := by
  have hstatus : sipStatus i ≠ [] ∧ (0x0d : U8) ∉ sipStatus i := by
    unfold sipStatus
    split <;> decide
  rw [sipStatusLine, List.append_assoc]
  exact (isLine_text hstatus.1 hstatus.2).prepend (by decide)

theorem sipHeaders_isLine (seed : U32) : ∀ line ∈ sipHeaders seed, IsLine line := by
  have hrport : IsLine (ascii ";rport\r\n") :=
    isLine_text (show ascii ";rport" ≠ [] by decide) (by decide)
  have hhex : ∀ v, IsLine (hex8 v ++ ascii "\r\n") := fun v =>
    isLine_text (List.cons_ne_nil _ _) (cr_not_mem_hex8 v)
  have hhost : ∀ i, IsLine (sipHost i ++ ascii "\r\n") := fun i =>
    isLine_text (sipHost_ne_nil i) (cr_not_mem_sipHost i)
  have hmethod : ∀ i, IsLine (sipMethod i ++ ascii "\r\n") := fun i =>
    isLine_text (sipMethod_ne_nil i) (cr_not_mem_sipMethod i)
  simp only [sipHeaders, List.append_assoc, List.forall_mem_cons, List.not_mem_nil,
    IsEmpty.forall_iff, implies_true, and_true]
  refine ⟨?_, ?_, ?_, ?_, ?_⟩
  · -- Via
    exact (((hrport.prepend (cr_not_mem_hex8 _)).prepend (by decide)).prepend
      (cr_not_mem_sipHost _)).prepend (by decide)
  · -- From
    exact (((hhex _).prepend (by decide)).prepend (cr_not_mem_sipHost _)).prepend (by decide)
  · -- To
    exact (((hhex _).prepend (by decide)).prepend (cr_not_mem_sipHost _)).prepend (by decide)
  · -- Call-ID
    exact (((hhost _).prepend (by decide)).prepend (cr_not_mem_hex8 _)).prepend (by decide)
  · -- CSeq
    exact (((hmethod _).prepend (by decide)).prepend (cr_not_mem_decimal _)).prepend (by decide)

theorem sipHeaders_fieldName (seed : U32) : (sipHeaders seed).map fieldName =
    [ascii "Via", ascii "From", ascii "To", ascii "Call-ID", ascii "CSeq"] := by
  simp only [sipHeaders, List.append_assoc, List.map_cons, List.map_nil]
  generalize sipHost _ = host
  generalize sipMethod _ = method
  rfl

/-! ## Reading -/

/-- A reader takes the value of Content-Length for the number that was printed. -/
theorem ContentLength.read {cl : Option Bytes} {line : Bytes}
    (h : ContentLength total length pos cl) (hline : cl = some line) :
    IsLine line ∧ fieldName line = ascii "Content-Length" ∧
      numberField line = some (total - (pos + line.length + 2)) := by
  rcases h.value line hline with ⟨sws, body, htext, hbody⟩
  rw [← hbody, htext]
  have hcolon : chr ':' ∉ ascii "Content-Length" := by decide
  refine ⟨?_, fieldName_append hcolon _, numberField_toDigits hcolon sws body⟩
  have hne : decimal body ≠ [] := by
    intro hnil
    have hlen := length_decimal body
    have hpos := decimalDigits_pos body
    rw [hnil, List.length_nil] at hlen
    omega
  have hspaces : (0x0d : U8) ∉ List.replicate sws (chr ' ') := by
    intro hmem
    exact absurd (List.eq_of_mem_replicate hmem) (by decide)
  have hname : (0x0d : U8) ∉ ascii "Content-Length" ++ [chr ':'] := by decide
  rw [List.append_cons]
  exact ((isLine_text hne (cr_not_mem_decimal body)).prepend hspaces).prepend hname

/-- The filler: lines, an empty line and spaces. -/
theorem writeSip_lays (seed : U32) (total : ℕ) {padding : ℕ} (hmin : 18 ≤ padding) :
    ∃ i n : ℕ, ∃ cl : Option Bytes, ∃ lines : List Bytes,
      lines = sipStatusLine i :: (sipHeaders seed).take n ++ cl.toList ∧
      n ≤ 5 ∧ (cl.isSome → n = 5) ∧
      (n = 5 → ContentLength total padding (sipStatusLine i :: sipHeaders seed).flatten.length cl) ∧
      lines.flatten.length + 2 ≤ padding ∧
      Lays 0 (lines.flatten ++ crlf ++
        List.replicate (padding - (lines.flatten.length + 2)) (chr ' '))
        (writeSip total padding seed) := by
  rcases sipPutStatus_isSome hmin (seed.toNat % 3) with ⟨t, i, hstatus, ht⟩
  rcases @sipPutHeaders_holds total padding (sipHeaders seed) _ t ht with
    ⟨n, hn, cl, hholds, hlast, hcl⟩
  have hlays := sipFinish_lays hholds
  have hroom := hholds.room
  rw [← hholds.pos] at hlays hroom
  refine ⟨i, n, cl, _, rfl, hn, hlast, hcl, hroom, ?_⟩
  rw [writeSip, if_neg (by omega), hstatus]
  exact hlays

/-- What a reader of header lines finds: a status line, the first of the five headers,
Content-Length only behind all of them, an empty line and spaces up to the payload.
Content-Length counts what follows the empty line, and is there if it has room. -/
structure SipParsed (seed : U32) (total padding : ℕ) (datagram payload : Bytes) (i n : ℕ)
    (cl : Option Bytes) (spaces : Bytes) : Prop where
  read : block datagram =
    some (sipStatusLine i :: (sipHeaders seed).take n ++ cl.toList, spaces ++ payload)
  blank : ∀ b ∈ spaces, b = chr ' '
  headers : n ≤ 5
  last : cl.isSome → n = 5
  value : ∀ line, cl = some line → fieldName line = ascii "Content-Length" ∧
    numberField line = some (spaces ++ payload).length
  present : n = 5 → (sipStatusLine i :: sipHeaders seed).flatten.length + 21 +
    decimalDigits total ≤ padding → cl.isSome

/-- For every seed, padding and payload, the filler is a header that counts right. -/
theorem writeSip_selfConsistent (seed : U32) (total padding : ℕ) (buf : Bytes)
    (hbuf : buf.length = total) (hmin : 18 ≤ padding) (hpad : padding ≤ total) :
    (sipHeaders seed).map fieldName =
      [ascii "Via", ascii "From", ascii "To", ascii "Call-ID", ascii "CSeq"] ∧
    ∃ i n cl spaces, SipParsed seed total padding (stores (writeSip total padding seed) buf)
      (buf.drop padding) i n cl spaces := by
  refine ⟨sipHeaders_fieldName seed, ?_⟩
  rcases writeSip_lays seed total hmin with
    ⟨i, n, cl, lines, hlines, hn, hlast, hcl, hroom, hlays⟩
  have hall : ∀ line ∈ lines, IsLine line := by
    intro line hline
    rw [hlines] at hline
    rcases List.mem_append.mp hline with hline | hline
    · rcases List.mem_cons.mp hline with rfl | hline
      · exact sipStatusLine_isLine i
      · exact sipHeaders_isLine seed line (List.mem_of_mem_take hline)
    · have hsome : cl = some line := Option.mem_toList.mp hline
      have hfive := hlast (Option.isSome_of_mem hsome)
      exact ((hcl hfive).read hsome).1
  have hpadding : (lines.flatten ++ crlf ++
      List.replicate (padding - (lines.flatten.length + 2)) (chr ' ')).length = padding := by
    have hend : crlf.length = 2 := rfl
    rw [List.length_append, List.length_append, List.length_replicate, hend]
    omega
  have hdatagram := hlays.stores_eq (show _ ≤ buf.length by omega)
  rw [hpadding, List.append_assoc] at hdatagram
  refine ⟨i, n, cl, List.replicate (padding - (lines.flatten.length + 2)) (chr ' '),
    by rw [hdatagram, block_lines hall, ← hlines], fun b hb => List.eq_of_mem_replicate hb, hn, hlast, ?_,
    fun hfive => (hcl hfive).present⟩
  intro line hline
  have hfive := hlast (Option.isSome_of_mem hline)
  have hread := (hcl hfive).read hline
  refine ⟨hread.2.1, ?_⟩
  -- the header ends where Content-Length has counted from
  have hend : lines.flatten.length =
      (sipStatusLine i :: sipHeaders seed).flatten.length + line.length := by
    have htake : (sipHeaders seed).take n = sipHeaders seed := by
      rw [hfive]
      rfl
    rw [hlines, hline, htake, Option.toList_some, List.flatten_append, List.length_append,
      List.flatten_singleton]
  rw [hread.2.2, List.length_append, List.length_replicate, List.length_drop, hend]
  exact congrArg some (by omega)

/-- Room for the status line alone, and room for everything. -/
theorem writeSip_selfConsistent_both :
    (∃ i n cl spaces, SipParsed 7 1300 18 (stores (writeSip 1300 18 7) (List.replicate 1300 0xff))
      ((List.replicate 1300 0xff).drop 18) i n cl spaces) ∧
    ∃ i n cl spaces, SipParsed 7 1300 400 (stores (writeSip 1300 400 7) (List.replicate 1300 0xff))
      ((List.replicate 1300 0xff).drop 400) i n cl spaces :=
  ⟨(writeSip_selfConsistent 7 1300 18 (List.replicate 1300 0xff) List.length_replicate
      (by decide) (by decide)).2,
    (writeSip_selfConsistent 7 1300 400 (List.replicate 1300 0xff) List.length_replicate
      (by decide) (by decide)).2⟩

end AmneziaWg
