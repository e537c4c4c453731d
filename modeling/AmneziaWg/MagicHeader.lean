import AmneziaWg.Device
import AmneziaWg.Lib.Text
import Mathlib.Data.Nat.Digits.Defs

/-!
# Header ranges as texts and as generators

`magic_header.c` with the random helpers that `compat.h` supplies for kernels
without them. A range is written by `mh_genspec`, read by `mh_parse`, drawn from
by `mh_genheader` and tested by `mh_validate`; these have to agree.

* **Text**: `mhParse_specText`, in a buffer that `length_specText_le` fits.
* **Drawing**: the compat helper divides by the width of the range in 32 bits,
  which is zero for the range of all words (`mhGenheaderCompat_whole`).
  A word of any other range is drawn and accepted (`mhGenheader_accepted`).
-/

namespace AmneziaWg

open Linux Stepwise

/-! ## The text of a range -/

/-- `scnprintf` into a buffer: the last byte of it is for the terminator. -/
def scnprintf (buflen : ℕ) (text : Bytes) : Bytes := text.take (buflen - 1)

/-- What the formats of `mh_genspec` print. -/
def specText (mh : MagicHeader) : Bytes :=
  if mh.start = mh.stop then decimal mh.start.toNat
  else decimal mh.start.toNat ++ chr '-' :: decimal mh.stop.toNat

def mhGenspec (mh : MagicHeader) (buflen : ℕ) : Bytes := scnprintf buflen (specText mh)

/-- The size of `buf` in `wg_get_device_dump`. -/
def specBufLen : ℕ := 32

theorem length_decimal_u32 (v : U32) : (decimal v.toNat).length ≤ 10 :=
  le_of_eq_of_le (List.length_map chr)
    (Nat.toDigits_length 10 v.toNat 10 (by omega) (lt_trans v.isLt (by decide)))

/-- Two numbers of ten digits and the dash. -/
theorem length_specText_le (mh : MagicHeader) : (specText mh).length ≤ 21 := by
  have hstart := length_decimal_u32 mh.start
  have hstop := length_decimal_u32 mh.stop
  unfold specText
  split
  · omega
  · rw [List.length_append, List.length_cons]
    omega

theorem specText_length_ne_zero (mh : MagicHeader) : (specText mh).length ≠ 0 := by
  have hpos : (decimal mh.start.toNat).length ≠ 0 := by
    rw [decimal, List.length_map]
    exact Nat.ne_of_gt Nat.length_toDigits_pos
  unfold specText
  split
  · exact hpos
  · rw [List.length_append, List.length_cons]
    omega

theorem mhGenspec_eq (mh : MagicHeader) : mhGenspec mh specBufLen = specText mh :=
  List.take_of_length_le (le_trans (length_specText_le mh) (by decide))

theorem dash_not_mem_decimal (n : ℕ) : chr '-' ∉ decimal n := by
  intro h
  exact absurd (mem_toDigits h).1 (by decide)

theorem kstrtouint_decimal (v : U32) : kstrtouint 10 (decimal v.toNat) = .ok v :=
  kstrtouint_toDigits v

/-- Every range that is not inverted is read back from its text. -/
theorem mhParse_specText {r : MagicHeader} (h : r.start ≤ r.stop) (mh : MagicHeader) :
    mhParse mh (some (specText r)) = ⟨r, none⟩ := by
  unfold specText
  by_cases heq : r.start = r.stop
  · -- a single number
    rw [if_pos heq, mhParse, strsep_all (dash_not_mem_decimal _)]
    dsimp only
    rw [kstrtouint_decimal]
    have hr : (⟨r.start, r.start⟩ : MagicHeader) = r := congrArg (MagicHeader.mk r.start) heq
    exact congrArg (Outcome.mk · none) hr
  · rw [if_neg heq, mhParse, strsep_append (dash_not_mem_decimal _)]
    dsimp only
    rw [kstrtouint_decimal]
    dsimp only
    rw [kstrtouint_decimal]
    dsimp only
    rw [if_neg (BitVec.not_lt.mpr h)]

/-- An inverted range is written as two numbers, which are rejected. -/
theorem mhParse_specText_inverted {r : MagicHeader} (h : r.stop < r.start) (mh : MagicHeader) :
    (mhParse mh (some (specText r))).err = some .EINVAL := by
  have hne : r.start ≠ r.stop := fun heq => absurd h (heq ▸ BitVec.lt_irrefl r.start)
  unfold specText mhParse
  rw [if_neg hne, strsep_append (dash_not_mem_decimal _)]
  dsimp only
  rw [kstrtouint_decimal]
  dsimp only
  rw [kstrtouint_decimal]
  exact if_pos h

/-- A descriptor that is accepted leaves a range that is not inverted. -/
theorem mhParse_ordered {mh r : MagicHeader} {desc : Option Bytes}
    (h : mhParse mh desc = ⟨r, none⟩) : r.start ≤ r.stop := by
  unfold mhParse at h
  split at h
  · cases h
  split at h
  · cases h
  split at h
  · -- one number, which is both ends
    cases h
    exact BitVec.le_refl _
  split at h
  · cases h
  next start _ stop _ =>
  rcases Outcome.mk.inj h with ⟨rfl, herr⟩
  by_contra hgt
  rw [if_pos (BitVec.not_le.mp hgt)] at herr
  cases herr

/-! ## Drawing from a range -/

/-- `get_random_u32_below` of `compat.h`, from one 32-bit draw. A division by zero traps. -/
def getRandomU32Below (rand ceil : U32) : Option U32 :=
  if ceil = 0 then none else some (rand % ceil)

/-- `get_random_u32_inclusive` of `compat.h`. -/
def getRandomU32InclusiveCompat (rand floor ceil : U32) : Option U32 :=
  (getRandomU32Below rand (ceil - floor + 1)).map fun below => floor + below

/-- `mh_genheader` on a kernel that takes its random helpers from `compat.h`. -/
def mhGenheaderCompat (rand : U32) (mh : MagicHeader) : Option U32 :=
  getRandomU32InclusiveCompat rand mh.start mh.stop

/-- The range of all words. -/
def MagicHeader.whole : MagicHeader := ⟨0, BitVec.allOnes 32⟩

section Draw

variable {r : MagicHeader}

/-- The width of a range, as the helper computes it. -/
theorem width_toNat (h : r.start ≤ r.stop) :
    (r.stop - r.start + 1).toNat = (r.stop.toNat - r.start.toNat + 1) % 2 ^ 32 := by
  rw [BitVec.toNat_add, BitVec.toNat_sub_of_le h]
  rfl

theorem whole_iff (h : r.start ≤ r.stop) :
    r = MagicHeader.whole ↔ r.stop.toNat - r.start.toNat + 1 = 2 ^ 32 := by
  have hstart := r.start.isLt
  have hstop := r.stop.isLt
  have hle : r.start.toNat ≤ r.stop.toNat := h
  constructor
  · rintro rfl
    decide
  · intro hwidth
    -- the only range of this width starts at zero and ends at the last word
    have hzero : r.start = 0 := BitVec.eq_of_toNat_eq (show r.start.toNat = 0 by omega)
    have hlast : r.stop = BitVec.allOnes 32 :=
      BitVec.eq_of_toNat_eq (show r.stop.toNat = 2 ^ 32 - 1 by omega)
    rw [MagicHeader.whole, ← hzero, ← hlast]

/-- The width wraps to zero for the range of all words only. -/
theorem width_eq_zero_iff (h : r.start ≤ r.stop) :
    r.stop - r.start + 1 = 0 ↔ r = MagicHeader.whole := by
  have hstop := r.stop.isLt
  rw [whole_iff h, ← BitVec.toNat_inj, width_toNat h]
  show (r.stop.toNat - r.start.toNat + 1) % 2 ^ 32 = 0 ↔ _
  omega

theorem mhGenheaderCompat_whole (rand : U32) : mhGenheaderCompat rand .whole = none := rfl

/-- On the other ranges the helper computes what the kernel's own one does. -/
theorem mhGenheaderCompat_eq (h : r.start ≤ r.stop) (hr : r ≠ .whole) (rand : U32) :
    mhGenheaderCompat rand r = some (mhGenheader rand r) := by
  have hwidth : ¬ r.stop - r.start + 1 = 0 := fun hzero => hr ((width_eq_zero_iff h).mp hzero)
  rw [mhGenheaderCompat, getRandomU32InclusiveCompat, getRandomU32Below, if_neg hwidth]
  rfl

/-- The sum of the floor and the offset does not wrap around. -/
theorem mhGenheader_toNat (h : r.start ≤ r.stop) (hr : r ≠ .whole) (rand : U32) :
    (mhGenheader rand r).toNat =
      r.start.toNat + rand.toNat % (r.stop.toNat - r.start.toNat + 1) := by
  have hstop := r.stop.isLt
  have hle : r.start.toNat ≤ r.stop.toNat := h
  have hwidth : (r.stop.toNat - r.start.toNat + 1) % 2 ^ 32 = r.stop.toNat - r.start.toNat + 1 := by
    have hne := (not_congr (whole_iff h)).mp hr
    exact Nat.mod_eq_of_lt (by omega)
  have hoff := Nat.mod_lt rand.toNat (show r.stop.toNat - r.start.toNat + 1 > 0 by omega)
  rw [mhGenheader, getRandomU32Inclusive, BitVec.toNat_add, BitVec.toNat_umod, width_toNat h,
    hwidth]
  exact Nat.mod_eq_of_lt (by omega)

end Draw

/-- Of the ranges that are parsed, exactly the range of all words cannot be drawn from. For any
other one, whatever word is drawn: the draw does not trap, the sum does not wrap around, and
the receiver accepts the word. -/
theorem mhGenheader_accepted {mh : MagicHeader} {desc : Option Bytes} {r : MagicHeader}
    (hparse : mhParse mh desc = ⟨r, none⟩) :
    (∀ rand, ∃ word, mhGenheaderCompat rand r = some word ∧
      word.toNat = r.start.toNat + rand.toNat % (r.stop.toNat - r.start.toNat + 1) ∧
      mhValidate (readLe32 (le32 word)) r) ↔ r ≠ .whole := by
  constructor
  · rintro h rfl
    rcases h 0 with ⟨word, hdraw, -⟩
    rw [mhGenheaderCompat_whole] at hdraw
    cases hdraw
  intro hrange rand
  have hle : r.start ≤ r.stop := mhParse_ordered hparse
  have hword := mhGenheader_toNat hle hrange rand
  refine ⟨mhGenheader rand r, mhGenheaderCompat_eq hle hrange rand, hword, ?_⟩
  have hread : readLe32 (le32 (mhGenheader rand r)) = mhGenheader rand r := by
    have h := readLe32_le32 (mhGenheader rand r) []
    rwa [List.append_nil] at h
  have hle' : r.start.toNat ≤ r.stop.toNat := hle
  have hoff := Nat.mod_lt rand.toNat (show r.stop.toNat - r.start.toNat + 1 > 0 by omega)
  rw [hread]
  constructor
  · show r.start.toNat ≤ (mhGenheader rand r).toNat
    omega
  · show (mhGenheader rand r).toNat ≤ r.stop.toNat
    omega

/-- The range `5-9`, and the draw 12. -/
theorem mhGenheader_accepted_range :
    mhParse ⟨1, 1⟩ (some (ascii "5-9")) = ⟨⟨5, 9⟩, none⟩ ∧
    ∃ word, mhGenheaderCompat 12 ⟨5, 9⟩ = some word ∧ word.toNat = 5 + 12 % (9 - 5 + 1) ∧
      mhValidate (readLe32 (le32 word)) ⟨5, 9⟩ :=
  ⟨rfl, (@mhGenheader_accepted ⟨1, 1⟩ (some (ascii "5-9")) ⟨5, 9⟩ rfl).mpr (by decide) 12⟩

/-- The descriptor of the range of all words is accepted, and no draw from it returns. -/
theorem mhGenheader_whole :
    mhParse ⟨1, 1⟩ (some (ascii "0-4294967295")) = ⟨.whole, none⟩ ∧
      ∀ rand, mhGenheaderCompat rand .whole = none :=
  ⟨mhParse_specText (r := .whole) (by decide) ⟨1, 1⟩, mhGenheaderCompat_whole⟩

end AmneziaWg
