import Mathlib.Data.List.Nodup
import AmneziaWg.Messages
import AmneziaWg.Lib.Machine
import AmneziaWg.Lib.RingBitmap

/-!
# The replay counter

`counter_validate` (`receive.c`) is the RFC 6479 replay filter: a 64-bit head
counter and a ring of 128 words with one bit per recent counter, cleared lazily
when the head moves.

* **Model**: `counterValidate` on 64-bit words, with every masked index and the
  capped clearing loop of the source.
* **Abstract filter**: `Filter.admits` over the list of accepted counters, in
  unbounded numbers: fresh, below the limit, and not further than the window
  behind the highest one.
* **Refinement**: `Tracked` ties every live bit of the ring to the accepted
  list; `counterValidate_tracked` is the step lemma and `tracked_after` the run
  lemma.
-/

namespace AmneziaWg.Counter

open Linux RingBitmap

/-! ## Model -/

/-- The number of words of the ring. -/
def words : ℕ := counterBitsTotal / bitsPerLong

instance : NeZero words := ⟨by decide⟩

/-- `struct noise_replay_counter` without its lock. -/
structure NoiseReplayCounter where
  counter : U64
  backtrack : Fin words → BitVec bitsPerLong

/-- The counter of a keypair from `kzalloc`. -/
def zeroed : NoiseReplayCounter := ⟨0, fun _ => 0⟩

/-- The C loop `for (i = 1; i <= top; ++i) backtrack[(i + index_current) & mask] = 0`. -/
def clearBacktrack (backtrack : Fin words → BitVec bitsPerLong) (indexCurrent : U64) :
    ℕ → Fin words → BitVec bitsPerLong
  | 0 => backtrack
  | i + 1 =>
    Function.update (clearBacktrack backtrack indexCurrent i)
      (Fin.ofNat words ((BitVec.ofNat 64 (i + 1) + indexCurrent) &&& BitVec.ofNat 64 (words - 1)).toNat) 0

/-- `test_and_set_bit`: the old bit, and the array with the bit set. -/
def testAndSetBit (backtrack : Fin words → BitVec bitsPerLong) (index : Fin words) (nr : ℕ) :
    Bool × (Fin words → BitVec bitsPerLong) :=
  ((backtrack index).getLsbD nr,
    Function.update backtrack index (backtrack index ||| BitVec.twoPow bitsPerLong nr))

/-- The head moves up to `their_counter`: clear the words that enter. -/
def moveHead (counter : NoiseReplayCounter) (theirCounter : U64) : NoiseReplayCounter :=
  let index := theirCounter >>> 6
  let indexCurrent := counter.counter >>> 6
  let top := min (index - indexCurrent).toNat words
  { counter := theirCounter, backtrack := clearBacktrack counter.backtrack indexCurrent top }

/-- `counter_validate`: the new counter and whether `their_counter` is accepted. -/
def counterValidate (counter : NoiseReplayCounter) (theirCounter : U64) :
    NoiseReplayCounter × Bool :=
  if counter.counter ≥ BitVec.ofNat 64 rejectAfterMessages + 1 ∨
      theirCounter ≥ BitVec.ofNat 64 rejectAfterMessages then
    (counter, false)
  else
    let theirCounter := theirCounter + 1
    if BitVec.ofNat 64 counterWindowSize + theirCounter < counter.counter then
      (counter, false)
    else
      let index := theirCounter >>> 6
      let counter := if theirCounter > counter.counter then moveHead counter theirCounter else counter
      let index := Fin.ofNat words (index &&& BitVec.ofNat 64 (words - 1)).toNat
      let nr := (theirCounter &&& BitVec.ofNat 64 (bitsPerLong - 1)).toNat
      let (old, backtrack) := testAndSetBit counter.backtrack index nr
      ({ counter with backtrack := backtrack }, !old)

/-- The filter as a machine that answers each counter. -/
def machine : Mealy NoiseReplayCounter U64 Bool where
  step := counterValidate

/-- The counters of a sequence that the code accepts, from a given state. -/
def accepted (counter : NoiseReplayCounter) : List U64 → List ℕ
  | [] => []
  | c :: cs =>
    if (counterValidate counter c).2 then
      c.toNat :: accepted (counterValidate counter c).1 cs
    else
      accepted (counterValidate counter c).1 cs

/-! ## The abstract filter -/

variable {acc : List ℕ}

namespace Filter

/-- One more than the largest accepted counter, `0` if there is none. -/
def next : List ℕ → ℕ
  | [] => 0
  | c :: acc => max (c + 1) (next acc)

/-- What the filter is for: fresh, below the limit, not behind the window. -/
def admits (acc : List ℕ) (c : ℕ) : Prop :=
  c < rejectAfterMessages ∧ c ∉ acc ∧ next acc ≤ c + 1 + counterWindowSize

theorem lt_next {c : ℕ} (h : c ∈ acc) : c < next acc := by
  induction acc with
  | nil => cases h
  | cons a acc ih =>
    rcases List.mem_cons.mp h with rfl | h
    · simp only [next]
      omega
    · have := ih h
      simp only [next]
      omega

theorem next_le {b : ℕ} (h : ∀ c ∈ acc, c < b) : next acc ≤ b := by
  induction acc with
  | nil => exact Nat.zero_le b
  | cons a acc ih =>
    have ha : a < b := h a (List.mem_cons_self ..)
    have hacc : next acc ≤ b := ih fun c hc => h c (List.mem_cons_of_mem a hc)
    simp only [next]
    omega

/-- `next` does not depend on the order in which the counters were accepted. -/
theorem next_append_singleton (acc : List ℕ) (c : ℕ) :
    next (acc ++ [c]) = max (c + 1) (next acc) := by
  induction acc with
  | nil => rfl
  | cons a acc ih =>
    simp only [List.cons_append, next, ih]
    omega

end Filter

/-! ## Machine words as numbers -/

theorem rejectAfterMessages_toNat :
    (BitVec.ofNat 64 rejectAfterMessages).toNat = rejectAfterMessages := by decide

theorem rejectAfterMessages_succ_toNat :
    (BitVec.ofNat 64 rejectAfterMessages + 1).toNat = rejectAfterMessages + 1 := by decide

theorem counterWindowSize_toNat :
    (BitVec.ofNat 64 counterWindowSize).toNat = counterWindowSize := by decide

/-- Room above the limit: a counter below it can be bumped and moved by a window. -/
theorem rejectAfterMessages_room : rejectAfterMessages + counterWindowSize + 1 < 2 ^ 64 := by
  decide

/-- Bumping a counter below the limit does not wrap. -/
theorem succ_toNat {c : U64} (hc : c.toNat < rejectAfterMessages) :
    (c + 1).toNat = c.toNat + 1 := by
  have hroom := rejectAfterMessages_room
  have hone : (1 : U64).toNat = 1 := rfl
  rw [BitVec.toNat_add, hone]
  exact Nat.mod_eq_of_lt (by omega)

theorem toNat_word (x : U64) : (x >>> 6).toNat = x.toNat / bitsPerLong := by
  simp [BitVec.toNat_ushiftRight, Nat.shiftRight_eq_div_pow, bitsPerLong]

/-- Masking an index is reducing it modulo the ring size. -/
theorem ofNat_mask_eq_slot (x : U64) :
    Fin.ofNat words (x &&& BitVec.ofNat 64 (words - 1)).toNat = slot words x.toNat := by
  have hmask : (x &&& BitVec.ofNat 64 (words - 1)).toNat = x.toNat % words := by
    rw [BitVec.toNat_and]
    exact Nat.and_two_pow_sub_one_eq_mod x.toNat 7
  rw [hmask]
  simp [slot, Fin.ofNat]

theorem bit_mask_toNat (x : U64) :
    (x &&& BitVec.ofNat 64 (bitsPerLong - 1)).toNat = x.toNat % bitsPerLong := by
  rw [BitVec.toNat_and]
  exact Nat.and_two_pow_sub_one_eq_mod x.toNat 6

/-- The clearing loop is `clearWords`, as long as its indices do not wrap. -/
theorem clearBacktrack_eq (backtrack : Fin words → BitVec bitsPerLong) (cur : U64) (k : ℕ)
    (hk : k + cur.toNat < 2 ^ 64) :
    clearBacktrack backtrack cur k = clearWords backtrack cur.toNat k := by
  induction k with
  | zero => rfl
  | succ k ih =>
    have hsum : (BitVec.ofNat 64 (k + 1) + cur).toNat = k + 1 + cur.toNat := by
      rw [BitVec.toNat_add, BitVec.toNat_ofNat]
      omega
    rw [clearBacktrack, clearWords, clearWord, ofNat_mask_eq_slot, hsum, ih (by omega)]

/-- The bit test of the code, in the ring's own terms. -/
theorem testAndSetBit_eq (backtrack : Fin words → BitVec bitsPerLong) (t : U64) :
    testAndSetBit backtrack (Fin.ofNat words ((t >>> 6) &&& BitVec.ofNat 64 (words - 1)).toNat)
        (t &&& BitVec.ofNat 64 (bitsPerLong - 1)).toNat =
      (bit backtrack t.toNat, setBit backtrack t.toNat) := by
  rw [ofNat_mask_eq_slot, bit_mask_toNat, toNat_word]
  rfl

/-! ## The refinement -/

/-- The positions that the ring records: a counter `c` stands at bit `c + 1`. -/
def positions (acc : List ℕ) : Set ℕ := {t | ∃ c ∈ acc, t = c + 1}

/-- The counter state holds exactly the accepted counters. -/
structure Tracked (s : NoiseReplayCounter) (acc : List ℕ) : Prop where
  head : s.counter.toNat = Filter.next acc
  below : ∀ c ∈ acc, c < rejectAfterMessages
  ring : Tracks s.backtrack (Filter.next acc / bitsPerLong) (positions acc)

theorem tracked_zeroed : Tracked zeroed [] where
  head := rfl
  below := by simp
  ring := by
    have hpos : positions [] = ∅ := by simp [positions]
    rw [hpos]
    exact tracks_zero _

theorem positions_append (acc : List ℕ) (c : ℕ) :
    positions (acc ++ [c]) = insert (c + 1) (positions acc) := by
  ext t
  simp only [positions, List.mem_append, List.mem_singleton, Set.mem_ofPred_eq, Set.mem_insert_iff]
  constructor
  · rintro ⟨d, hd | rfl, rfl⟩
    · exact Or.inr ⟨d, hd, rfl⟩
    · exact Or.inl rfl
  · rintro (rfl | ⟨d, hd, rfl⟩)
    · exact ⟨c, Or.inr rfl, rfl⟩
    · exact ⟨d, Or.inl hd, rfl⟩

theorem mem_positions_succ (acc : List ℕ) (c : ℕ) : c + 1 ∈ positions acc ↔ c ∈ acc := by
  simp [positions]

variable {s : NoiseReplayCounter}

theorem Tracked.next_le (h : Tracked s acc) :
    Filter.next acc ≤ rejectAfterMessages := Filter.next_le h.below

/-- Every recorded position lies at or below the head. -/
theorem positions_word_le (acc : List ℕ) :
    ∀ t ∈ positions acc, t / bitsPerLong ≤ Filter.next acc / bitsPerLong := by
  rintro t ⟨c, hc, rfl⟩
  exact Nat.div_le_div_right (Filter.lt_next hc)

/-- Moving the head keeps the recorded positions. -/
theorem moveHead_tracks (h : Tracked s acc) {t : U64} (hlt : Filter.next acc < t.toNat) :
    Tracks (moveHead s t).backtrack (t.toNat / bitsPerLong) (positions acc) := by
  have hle : Filter.next acc / bitsPerLong ≤ t.toNat / bitsPerLong := by
    exact Nat.div_le_div_right (by omega)
  have hsub : (t >>> 6 - s.counter >>> 6).toNat =
      t.toNat / bitsPerLong - Filter.next acc / bitsPerLong := by
    rw [BitVec.toNat_sub_of_le, toNat_word, toNat_word, h.head]
    rw [BitVec.le_def, toNat_word, toNat_word, h.head]
    exact hle
  have htlt : t.toNat < 2 ^ 64 := t.isLt
  have hcur : (s.counter >>> 6).toNat = Filter.next acc / bitsPerLong := by
    rw [toNat_word, h.head]
  have hwrap : min (t.toNat / bitsPerLong - Filter.next acc / bitsPerLong) words +
      (s.counter >>> 6).toNat < 2 ^ 64 := by
    rw [hcur]
    have hdiv : t.toNat / bitsPerLong ≤ t.toNat := Nat.div_le_self _ _
    omega
  have hclear : (moveHead s t).backtrack = clearWords s.backtrack (Filter.next acc / bitsPerLong)
      (min (t.toNat / bitsPerLong - Filter.next acc / bitsPerLong) words) := by
    show clearBacktrack s.backtrack (s.counter >>> 6)
      (min (t >>> 6 - s.counter >>> 6).toNat words) = _
    rw [hsub, clearBacktrack_eq _ _ _ hwrap, hcur]
  rw [hclear]
  exact h.ring.advance hle (positions_word_le acc)

/-- The head after the code has looked at position `t`. -/
def headAt (s : NoiseReplayCounter) (t : U64) : NoiseReplayCounter :=
  if t > s.counter then moveHead s t else s

/-- What one call does, with the wrap-free conditions read as numbers. -/
theorem counterValidate_cases (h : Tracked s acc) (c : U64) :
    counterValidate s c =
      if c.toNat < rejectAfterMessages ∧ Filter.next acc ≤ c.toNat + 1 + counterWindowSize then
        ({ headAt s (c + 1) with backtrack := setBit (headAt s (c + 1)).backtrack (c.toNat + 1) },
          !bit (headAt s (c + 1)).backtrack (c.toNat + 1))
      else (s, false) := by
  have hroom := rejectAfterMessages_room
  have hnext := h.next_le
  have hhead : ¬ s.counter ≥ BitVec.ofNat 64 rejectAfterMessages + 1 := by
    rw [ge_iff_le, BitVec.le_def, rejectAfterMessages_succ_toNat, h.head]
    omega
  unfold counterValidate
  by_cases hc : c.toNat < rejectAfterMessages
  · have hc' : ¬ c ≥ BitVec.ofNat 64 rejectAfterMessages := by
      rw [ge_iff_le, BitVec.le_def, rejectAfterMessages_toNat]
      omega
    have hsucc := succ_toNat hc
    have hsum : (BitVec.ofNat 64 counterWindowSize + (c + 1)).toNat =
        counterWindowSize + (c.toNat + 1) := by
      rw [BitVec.toNat_add, counterWindowSize_toNat, hsucc]
      exact Nat.mod_eq_of_lt (by omega)
    rw [if_neg (not_or_intro hhead hc')]
    by_cases hw : Filter.next acc ≤ c.toNat + 1 + counterWindowSize
    · have hw' : ¬ BitVec.ofNat 64 counterWindowSize + (c + 1) < s.counter := by
        rw [BitVec.lt_def, hsum, h.head]
        omega
      simp only [if_neg hw', if_pos (And.intro hc hw), testAndSetBit_eq, hsucc]
      rfl
    · have hw' : BitVec.ofNat 64 counterWindowSize + (c + 1) < s.counter := by
        rw [BitVec.lt_def, hsum, h.head]
        omega
      simp only [if_pos hw', hw, and_false, if_false]
  · have hc' : c ≥ BitVec.ofNat 64 rejectAfterMessages := by
      rw [ge_iff_le, BitVec.le_def, rejectAfterMessages_toNat]
      omega
    rw [if_pos (Or.inr hc'), if_neg (by simp [hc])]

/-- The head word after the call, and that the ring still holds `acc` there. -/
theorem headAt_tracks (h : Tracked s acc) {c : U64} (hc : c.toNat < rejectAfterMessages) :
    (headAt s (c + 1)).counter.toNat = Filter.next (acc ++ [c.toNat]) ∧
    Tracks (headAt s (c + 1)).backtrack (Filter.next (acc ++ [c.toNat]) / bitsPerLong)
      (positions acc) := by
  have hroom := rejectAfterMessages_room
  have hsucc := succ_toNat hc
  rw [Filter.next_append_singleton]
  by_cases hlt : Filter.next acc < c.toNat + 1
  · -- the head moves
    have hgt : c + 1 > s.counter := by
      rw [gt_iff_lt, BitVec.lt_def, hsucc, h.head]
      exact hlt
    rw [headAt, if_pos hgt, Nat.max_eq_left (by omega), ← hsucc]
    exact ⟨rfl, moveHead_tracks h (by omega)⟩
  · have hgt : ¬ c + 1 > s.counter := by
      rw [gt_iff_lt, BitVec.lt_def, hsucc, h.head]
      exact hlt
    rw [headAt, if_neg hgt, Nat.max_eq_right (by omega)]
    exact ⟨h.head, h.ring⟩

/-- A position inside the window is inside the live words: the redundant word
pays for the partial word at each end. -/
theorem window_live {m c : ℕ} (hle : c + 1 ≤ m) (hw : m ≤ c + 1 + counterWindowSize) :
    (c + 1) / bitsPerLong ≤ m / bitsPerLong ∧ m / bitsPerLong < (c + 1) / bitsPerLong + words := by
  have hW : counterWindowSize = 64 * 127 := by decide
  have hn : words = 128 := by decide
  have hb : bitsPerLong = 64 := rfl
  rw [hW] at hw
  rw [hn, hb]
  omega

/-- Step lemma: the call answers as the abstract filter and keeps the state in
step with it. -/
theorem counterValidate_tracked (h : Tracked s acc) (c : U64) :
    ((counterValidate s c).2 = true ↔ Filter.admits acc c.toNat) ∧
    Tracked (counterValidate s c).1
      (if (counterValidate s c).2 then acc ++ [c.toNat] else acc) := by
  have heq := counterValidate_cases h c
  by_cases hin : c.toNat < rejectAfterMessages ∧ Filter.next acc ≤ c.toNat + 1 + counterWindowSize
  · rw [heq, if_pos hin]
    obtain ⟨hcount, hring⟩ := headAt_tracks h hin.1
    have hnext : Filter.next (acc ++ [c.toNat]) = max (c.toNat + 1) (Filter.next acc) :=
      Filter.next_append_singleton acc c.toNat
    obtain ⟨hle, hlt⟩ : (c.toNat + 1) / bitsPerLong ≤ Filter.next (acc ++ [c.toNat]) / bitsPerLong ∧
        Filter.next (acc ++ [c.toNat]) / bitsPerLong < (c.toNat + 1) / bitsPerLong + words :=
      window_live (by omega) (by omega)
    have hbit : bit (headAt s (c + 1)).backtrack (c.toNat + 1) = true ↔ c.toNat ∈ acc := by
      rw [hring _ hle hlt, mem_positions_succ]
    have hset : Tracks (setBit (headAt s (c + 1)).backtrack (c.toNat + 1))
        (Filter.next (acc ++ [c.toNat]) / bitsPerLong) (insert (c.toNat + 1) (positions acc)) :=
      hring.setBit (by decide) hle hlt
    by_cases hmem : c.toNat ∈ acc
    · -- seen before: the bit was set already and nothing changes
      have hold : bit (headAt s (c + 1)).backtrack (c.toNat + 1) = true := hbit.mpr hmem
      have hkeep : Filter.next (acc ++ [c.toNat]) = Filter.next acc := by
        have := Filter.lt_next hmem
        omega
      simp only [hold, Bool.not_true, Bool.false_eq_true, if_false, false_iff]
      refine ⟨fun hadm => hadm.2.1 hmem, ?_⟩
      rw [hkeep] at hcount hset
      rw [Set.insert_eq_of_mem ((mem_positions_succ acc _).mpr hmem)] at hset
      exact ⟨hcount, h.below, hset⟩
    · have hold : bit (headAt s (c + 1)).backtrack (c.toNat + 1) = false := by
        rw [← Bool.not_eq_true, hbit]
        exact hmem
      simp only [hold, Bool.not_false, if_true, true_iff]
      refine ⟨⟨hin.1, hmem, hin.2⟩, hcount, ?_, by rw [positions_append]; exact hset⟩
      intro d hd
      rcases List.mem_append.mp hd with hd | hd
      · exact h.below d hd
      · rw [List.mem_singleton.mp hd]
        exact hin.1
  · rw [heq, if_neg hin]
    refine ⟨?_, by simpa using h⟩
    simp only [Filter.admits, Bool.false_eq_true, false_iff]
    exact fun hadm => hin ⟨hadm.1, hadm.2.2⟩

/-- Run lemma: after any sequence the state tracks what was accepted. -/
theorem tracked_after (h : Tracked s acc) (cs : List U64) :
    Tracked (machine.after s cs) (acc ++ accepted s cs) := by
  induction cs generalizing s acc with
  | nil => simpa [accepted] using h
  | cons c cs ih =>
    obtain ⟨-, hstep⟩ := counterValidate_tracked h c
    have hrec := ih hstep
    show Tracked (machine.after (counterValidate s c).1 cs) (acc ++ accepted s (c :: cs))
    by_cases hok : (counterValidate s c).2
    · simpa [accepted, hok] using hrec
    · simpa [accepted, hok] using hrec

/-- No counter is accepted twice. -/
theorem accepted_nodup (h : Tracked s acc) (hacc : acc.Nodup) (cs : List U64) :
    (acc ++ accepted s cs).Nodup := by
  induction cs generalizing s acc with
  | nil => simpa [accepted] using hacc
  | cons c cs ih =>
    obtain ⟨hans, hstep⟩ := counterValidate_tracked h c
    by_cases hok : (counterValidate s c).2
    · have hfresh : c.toNat ∉ acc := (hans.mp hok).2.1
      rw [if_pos hok] at hstep
      have hnodup : (acc ++ [c.toNat]).Nodup := by
        rw [List.nodup_append]
        refine ⟨hacc, List.nodup_singleton _, ?_⟩
        intro a ha b hb hab
        rw [List.mem_singleton.mp hb] at hab
        exact hfresh (hab ▸ ha)
      simpa [accepted, hok] using ih hstep hnodup
    · rw [if_neg hok] at hstep
      simpa [accepted, hok] using ih hstep hacc

/-! ## The sliding window theorem -/

/-- The additions of one call, on unbounded numbers, stay below `2 ^ 64`: the two
limits, the bumped counter, the window above it, and every index of the clearing
loop; and the index subtraction does not go below zero. -/
def NoOverflow (s : NoiseReplayCounter) (c : U64) : Prop :=
  rejectAfterMessages + 1 < 2 ^ 64 ∧
  (c.toNat < rejectAfterMessages →
    c.toNat + 1 < 2 ^ 64 ∧ counterWindowSize + (c.toNat + 1) < 2 ^ 64 ∧
    (s.counter.toNat < c.toNat + 1 →
      (s.counter >>> 6).toNat ≤ ((c + 1) >>> 6).toNat ∧
      ∀ i ≤ min (((c + 1) >>> 6) - (s.counter >>> 6)).toNat words,
        i + (s.counter >>> 6).toNat < 2 ^ 64))

theorem noOverflow (s : NoiseReplayCounter) (c : U64) : NoOverflow s c := by
  have hroom := rejectAfterMessages_room
  refine ⟨by omega, fun hc => ⟨by omega, by omega, fun hlt => ?_⟩⟩
  have hsucc := succ_toNat hc
  have hle : (s.counter >>> 6).toNat ≤ ((c + 1) >>> 6).toNat := by
    rw [toNat_word, toNat_word, hsucc]
    exact Nat.div_le_div_right (by omega)
  refine ⟨hle, fun i hi => ?_⟩
  have hsub : (((c + 1) >>> 6) - (s.counter >>> 6)).toNat =
      ((c + 1) >>> 6).toNat - (s.counter >>> 6).toNat := BitVec.toNat_sub_of_le hle
  have hlt' : ((c + 1) >>> 6).toNat < 2 ^ 64 := BitVec.isLt _
  omega

/-- `counter_validate` is an exact sliding window filter: after any sequence of
counters from the zeroed state, `c` is accepted exactly when the abstract filter
admits it. No counter is accepted twice and no addition wraps. -/
theorem counterValidate_exact_window (cs : List U64) (c : U64) :
    ((counterValidate (machine.after zeroed cs) c).2 = true ↔
      c.toNat < rejectAfterMessages ∧ c.toNat ∉ accepted zeroed cs ∧
      Filter.next (accepted zeroed cs) ≤ c.toNat + 1 + counterWindowSize) ∧
    (accepted zeroed cs).Nodup ∧
    NoOverflow (machine.after zeroed cs) c := by
  have htracked : Tracked (machine.after zeroed cs) (accepted zeroed cs) := by
    simpa using tracked_after tracked_zeroed cs
  have hnodup : (accepted zeroed cs).Nodup := by
    simpa using accepted_nodup tracked_zeroed List.nodup_nil cs
  exact ⟨(counterValidate_tracked htracked c).1, hnodup, noOverflow _ c⟩

end AmneziaWg.Counter
