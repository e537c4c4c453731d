import Mathlib.Data.Set.Insert
import Mathlib.Data.Nat.ModEq
import Mathlib.Data.Fin.Basic
import Mathlib.Logic.Function.Basic

/-!
# A ring of words read as a sliding bitmap

`Ring w n` is an array of `n` words of `w` bits. Position `t` lives at bit
`t % w` of word number `t / w`, and word number `i` lives in slot `i % n`, so
the same slot serves many word numbers over time. `Tracks r hi S` says which of
them it serves now: for the `n` word numbers that end at `hi`, the bits are
exactly the membership of `S`.

Two operations keep it: setting a bit inside the live words (`Tracks.setBit`),
and moving the head from `hi` to `hi'` after clearing the slots of the word
numbers that enter (`Tracks.advance`).
-/

namespace RingBitmap

/-- An array of `n` words of `w` bits. -/
abbrev Ring (w n : ℕ) := Fin n → BitVec w

variable {w n : ℕ} [NeZero n]

/-- The slot of word number `i`. -/
def slot (n : ℕ) [NeZero n] (i : ℕ) : Fin n := Fin.ofNat n i

/-- The bit at position `t`. -/
def bit (r : Ring w n) (t : ℕ) : Bool := (r (slot n (t / w))).getLsbD (t % w)

/-- Set the bit at position `t`. -/
def setBit (r : Ring w n) (t : ℕ) : Ring w n :=
  Function.update r (slot n (t / w)) (r (slot n (t / w)) ||| BitVec.twoPow w (t % w))

/-- Zero the slot of word number `i`. -/
def clearWord (r : Ring w n) (i : ℕ) : Ring w n := Function.update r (slot n i) 0

/-- Zero the slots of the word numbers `cur + 1, …, cur + k`, in this order. -/
def clearWords (r : Ring w n) (cur : ℕ) : ℕ → Ring w n
  | 0 => r
  | k + 1 => clearWord (clearWords r cur k) (k + 1 + cur)

/-! ## Slots -/

theorem slot_eq_iff (i j : ℕ) : slot n i = slot n j ↔ i % n = j % n := by
  simp [slot, Fin.ext_iff, Fin.ofNat]

/-- Word numbers closer than `n` share a slot only when they are equal. -/
theorem slot_inj {i j : ℕ} (hij : i < j + n) (hji : j < i + n)
    (h : slot n i = slot n j) : i = j := by
  rw [slot_eq_iff] at h
  have hn : 0 < n := Nat.pos_of_ne_zero (NeZero.ne n)
  rcases Nat.le_total i j with hle | hle
  · have hd : n ∣ j - i := (Nat.modEq_iff_dvd' hle).mp h
    have hz : j - i = 0 := Nat.eq_zero_of_dvd_of_lt hd (by omega)
    omega
  · have hd : n ∣ i - j := (Nat.modEq_iff_dvd' hle).mp h.symm
    have hz : i - j = 0 := Nat.eq_zero_of_dvd_of_lt hd (by omega)
    omega

/-! ## Setting a bit -/

theorem bit_setBit_self (r : Ring w n) {t : ℕ} (hw : 0 < w) : bit (setBit r t) t = true := by
  have ht : t % w < w := Nat.mod_lt t hw
  simp [bit, setBit, ht]

/-- Setting a bit does not show at another position of the live words. -/
theorem bit_setBit_of_ne (r : Ring w n) {t u : ℕ} (hne : u ≠ t)
    (htu : t / w < u / w + n) (hut : u / w < t / w + n) :
    bit (setBit r t) u = bit r u := by
  by_cases hslot : slot n (u / w) = slot n (t / w)
  · -- same slot, hence the same word number and a different bit of it
    have hword : u / w = t / w := slot_inj hut htu hslot
    have hmod : t % w ≠ u % w := by
      intro h
      apply hne
      calc u = w * (u / w) + u % w := (Nat.div_add_mod u w).symm
        _ = w * (t / w) + t % w := by rw [hword, h]
        _ = t := Nat.div_add_mod t w
    simp [bit, setBit, hslot, BitVec.getLsbD_or, BitVec.getLsbD_twoPow, hmod]
  · simp [bit, setBit, Function.update_of_ne hslot]

/-! ## Clearing words -/

theorem clearWords_of_mem (r : Ring w n) {cur k i : ℕ} (hlo : cur < i) (hhi : i ≤ cur + k) :
    clearWords r cur k (slot n i) = 0 := by
  induction k with
  | zero => omega
  | succ k ih =>
    by_cases hslot : slot n i = slot n (k + 1 + cur)
    · rw [clearWords, clearWord, hslot, Function.update_self]
    · have hne : i ≠ k + 1 + cur := fun h => hslot (by rw [h])
      rw [clearWords, clearWord, Function.update_of_ne hslot]
      exact ih (by omega)

/-- A slot that no cleared word number uses keeps its word. -/
theorem clearWords_of_not_mem (r : Ring w n) {cur k : ℕ} {p : Fin n}
    (h : ∀ i, cur < i → i ≤ cur + k → p ≠ slot n i) : clearWords r cur k p = r p := by
  induction k with
  | zero => rfl
  | succ k ih =>
    have hne : p ≠ slot n (k + 1 + cur) := h (k + 1 + cur) (by omega) (by omega)
    rw [clearWords, clearWord, Function.update_of_ne hne]
    exact ih fun i hlo hhi => h i hlo (by omega)

/-! ## The live words -/

/-- The bits of the `n` word numbers that end at `hi` are the membership of `S`. -/
def Tracks (r : Ring w n) (hi : ℕ) (S : Set ℕ) : Prop :=
  ∀ t, t / w ≤ hi → hi < t / w + n → (bit r t = true ↔ t ∈ S)

theorem tracks_zero (hi : ℕ) : Tracks (fun _ => 0 : Ring w n) hi ∅ := by
  intro t _ _
  simp [bit]

theorem Tracks.setBit {r : Ring w n} {hi t : ℕ} {S : Set ℕ} (h : Tracks r hi S) (hw : 0 < w)
    (hle : t / w ≤ hi) (hlt : hi < t / w + n) :
    Tracks (RingBitmap.setBit r t) hi (insert t S) := by
  intro u hule hult
  by_cases hu : u = t
  · subst hu
    simp [bit_setBit_self r hw]
  · rw [bit_setBit_of_ne r hu (by omega) (by omega), h u hule hult]
    simp [hu]

/-- Moving the head: the word numbers `hi + 1, …, hi'` enter empty. Clearing `n`
slots already empties the whole ring, so a longer jump needs no more. -/
theorem Tracks.advance {r : Ring w n} {hi hi' : ℕ} {S : Set ℕ} (h : Tracks r hi S)
    (hle : hi ≤ hi') (hS : ∀ t ∈ S, t / w ≤ hi) :
    Tracks (clearWords r hi (min (hi' - hi) n)) hi' S := by
  have hn : 0 < n := Nat.pos_of_ne_zero (NeZero.ne n)
  intro t htle htlt
  by_cases hold : t / w ≤ hi
  · -- a word number that was live before: no entering word number shares its slot
    have hkeep : clearWords r hi (min (hi' - hi) n) (slot n (t / w)) = r (slot n (t / w)) := by
      apply clearWords_of_not_mem
      intro i hlo hup hslot
      have hup' : i ≤ hi' := by omega
      have heq : t / w = i := slot_inj (by omega) (by omega) hslot
      omega
    have hbit : bit (clearWords r hi (min (hi' - hi) n)) t = bit r t := by
      simp only [bit, hkeep]
    rw [hbit]
    exact h t hold (by omega)
  · -- an entering word number: its slot was cleared, under this number or an alias
    have hnot : t ∉ S := fun ht => hold (hS t ht)
    have hzero : clearWords r hi (min (hi' - hi) n) (slot n (t / w)) = 0 := by
      rcases Nat.le_total (hi' - hi) n with hsmall | hbig
      · rw [Nat.min_eq_left hsmall]
        exact clearWords_of_mem r (by omega) (by omega)
      · rw [Nat.min_eq_right hbig]
        -- some word number in `hi + 1, …, hi + n` has the same residue
        obtain ⟨i, hlo, hup, hmod⟩ : ∃ i, hi < i ∧ i ≤ hi + n ∧ i % n = t / w % n := by
          refine ⟨hi + 1 + (t / w - (hi + 1)) % n, by omega, ?_, ?_⟩
          · have := Nat.mod_lt (t / w - (hi + 1)) hn
            omega
          · rw [Nat.add_mod_mod]
            congr 1
            omega
        rw [← (slot_eq_iff i (t / w)).mpr hmod]
        exact clearWords_of_mem r hlo hup
    simp [bit, hzero, hnot]

end RingBitmap
