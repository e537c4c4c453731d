import AmneziaWg.Lib.Linux
import Mathlib.Data.List.TakeWhile

/-!
# Reading back texts

What the kernel's text routines return on a text put together from known parts.

* **Separators**: `strsep_append`, `strsep_all`.
* **Numerals**: a decimal numeral is the text of a list of digits. The number
  parsers read the value of every numeral that is in their range
  (`kstrtouint_numeral`, `kstrtoint_numeral`), and `%u` prints one
  (`toDigits_numeral`).
-/

namespace Linux

/-! ## Separators -/

/-- A token that is free of the separator is cut off in front of it. -/
theorem strsep_append {delim : U8} {tok : Bytes} (h : delim ∉ tok) (rest : Bytes) :
    strsep delim (some (tok ++ delim :: rest)) = (some tok, some rest) := by
  have hne : ∀ c ∈ tok, decide (c ≠ delim) = true := by
    intro c hc
    exact decide_eq_true fun heq => h (heq ▸ hc)
  have hstop : decide (delim ≠ delim) = false := decide_eq_false (not_not.mpr rfl)
  rw [strsep, List.dropWhile_append_of_pos hne, List.takeWhile_append_of_pos hne,
    List.dropWhile_cons, List.takeWhile_cons, hstop]
  show (some (tok ++ []), some rest) = _
  rw [List.append_nil]

/-- A text without the separator is one token. -/
theorem strsep_all {delim : U8} {s : Bytes} (h : delim ∉ s) :
    strsep delim (some s) = (some s, none) := by
  have hne : ∀ c ∈ s, decide (c ≠ delim) = true := by
    intro c hc
    exact decide_eq_true fun heq => h (heq ▸ hc)
  rw [strsep, List.dropWhile_eq_nil_iff.mpr hne]
  show (some (s.takeWhile _), none) = _
  rw [List.takeWhile_eq_self_iff.mpr hne]

/-! ## Texts of digits -/

/-- The character of a decimal digit. -/
def digitChar (d : ℕ) : U8 := chr '0' + BitVec.ofNat 8 d

/-- The text of a list of decimal digits, the highest first. -/
def numeral (ds : List ℕ) : Bytes := ds.map digitChar

/-- A non-empty list of decimal digits. -/
structure Decimal (ds : List ℕ) : Prop where
  nonempty : ds ≠ []
  digits : ∀ d ∈ ds, d < 10

theorem digit_digitChar : ∀ d < 10, digit 10 (digitChar d) = some d := by decide

/-- A digit is no sign, separator or bracket. -/
theorem digitChar_range : ∀ d < 10, chr '0' ≤ digitChar d ∧ digitChar d ≤ chr '9' := by decide

theorem parseInteger_numeral {ds : List ℕ} (h : ∀ d ∈ ds, d < 10) :
    parseInteger 10 (numeral ds) = (ds, []) := by
  induction ds with
  | nil => rfl
  | cons d ds ih =>
    have hd := digit_digitChar d (h d (List.mem_cons_self ..))
    have hds := ih fun e he => h e (List.mem_cons_of_mem d he)
    rw [numeral, List.map_cons, parseInteger, hd]
    show (d :: (parseInteger 10 (numeral ds)).1, (parseInteger 10 (numeral ds)).2) = (d :: ds, [])
    rw [hds]

theorem mem_numeral {ds : List ℕ} (h : Decimal ds) {c : U8} (hc : c ∈ numeral ds) :
    chr '0' ≤ c ∧ c ≤ chr '9' := by
  rcases List.mem_map.mp hc with ⟨d, hd, rfl⟩
  exact digitChar_range d (h.digits d hd)

/-! ## Reading a numeral -/

section Read

variable {ds : List ℕ}

theorem kstrtoullNoSign_numeral (h : Decimal ds) (hv : digitsValue 10 ds < 2 ^ 64) :
    kstrtoullNoSign 10 (numeral ds) = .ok (digitsValue 10 ds) := by
  have hparse : parseInteger 10 (fixupRadix 10 (numeral ds)) = (ds, []) :=
    parseInteger_numeral h.digits
  have hne : ds.isEmpty = false := List.isEmpty_eq_false_iff.mpr h.nonempty
  unfold kstrtoullNoSign
  rw [hparse]
  show (if digitsValue 10 ds > 2 ^ 64 - 1 then _ else if ds.isEmpty then _ else _) = _
  rw [if_neg (by omega), hne]
  rfl

/-- A numeral has no sign in front. -/
theorem kstrtoull_numeral (h : Decimal ds) (hv : digitsValue 10 ds < 2 ^ 64) :
    kstrtoull 10 (numeral ds) = .ok (digitsValue 10 ds) := by
  have hread := kstrtoullNoSign_numeral h hv
  cases ds with
  | nil => exact absurd rfl h.nonempty
  | cons d ds =>
    have hsign : digitChar d ≠ chr '+' := by
      intro heq
      have hrange := digitChar_range d (h.digits d (List.mem_cons_self ..))
      rw [heq] at hrange
      exact absurd hrange.1 (by decide)
    show (if digitChar d = chr '+' then _ else kstrtoullNoSign 10 (numeral (d :: ds))) = _
    rw [if_neg hsign]
    exact hread

theorem kstrtouint_numeral (h : Decimal ds) (hv : digitsValue 10 ds < 2 ^ 32) :
    kstrtouint 10 (numeral ds) = .ok (BitVec.ofNat 32 (digitsValue 10 ds)) := by
  unfold kstrtouint
  rw [kstrtoull_numeral h (by omega)]
  show (if digitsValue 10 ds ≥ 2 ^ 32 then _ else _) = _
  rw [if_neg (by omega)]

theorem kstrtoint_numeral (h : Decimal ds) (hv : digitsValue 10 ds < 2 ^ 31) :
    kstrtoint 10 (numeral ds) = .ok (digitsValue 10 ds : ℤ) := by
  have hll : kstrtoll 10 (numeral ds) = .ok (digitsValue 10 ds : ℤ) := by
    have hull := kstrtoull_numeral h (show digitsValue 10 ds < 2 ^ 64 by omega)
    cases ds with
    | nil => exact absurd rfl h.nonempty
    | cons d ds =>
      have hsign : digitChar d ≠ chr '-' := by
        intro heq
        have hrange := digitChar_range d (h.digits d (List.mem_cons_self ..))
        rw [heq] at hrange
        exact absurd hrange.1 (by decide)
      show (if digitChar d = chr '-' then _ else
        (kstrtoull 10 (numeral (d :: ds))).bind fun tmp =>
          if tmp ≥ 2 ^ 63 then .error .ERANGE else .ok (tmp : ℤ)) = _
      rw [if_neg hsign, hull]
      show (if digitsValue 10 (d :: ds) ≥ 2 ^ 63 then _ else _) = _
      rw [if_neg (by omega)]
  unfold kstrtoint
  rw [hll]
  show (if (digitsValue 10 ds : ℤ) < -2 ^ 31 ∨ (digitsValue 10 ds : ℤ) ≥ 2 ^ 31 then _ else _) = _
  rw [if_neg (by omega)]

end Read

/-! ## Printing a number -/

/-- One more digit at the low end. -/
theorem digitsValue_concat (base : ℕ) (ds : List ℕ) (d : ℕ) :
    digitsValue base (ds ++ [d]) = digitsValue base ds * base + d := by
  rw [digitsValue, List.foldl_append]
  rfl

theorem chr_digitChar : ∀ d < 10, chr d.digitChar = digitChar d := by decide

/-- What `%u` prints is a numeral of the number. -/
theorem toDigits_numeral (n : ℕ) :
    ∃ ds, Decimal ds ∧ digitsValue 10 ds = n ∧ (Nat.toDigits 10 n).map chr = numeral ds := by
  induction n using Nat.strong_induction_on with
  | _ n ih =>
    by_cases hn : n < 10
    · -- a single digit
      refine ⟨[n], ⟨List.cons_ne_nil n [], ?_⟩, Nat.zero_add n, ?_⟩
      · intro d hd
        rw [List.mem_singleton.mp hd]
        exact hn
      · rw [Nat.toDigits_of_lt_base hn, List.map_singleton, chr_digitChar n hn]
        rfl
    · -- the digits of the quotient, and the remainder
      rcases ih (n / 10) (by omega) with ⟨ds, hds, hvalue, htext⟩
      have hlast : n % 10 < 10 := Nat.mod_lt n (by omega)
      refine ⟨ds ++ [n % 10], ⟨?_, ?_⟩, ?_, ?_⟩
      · exact List.append_ne_nil_of_left_ne_nil hds.nonempty _
      · intro d hd
        rcases List.mem_append.mp hd with hd | hd
        · exact hds.digits d hd
        · rw [List.mem_singleton.mp hd]
          exact hlast
      · rw [digitsValue_concat, hvalue]
        omega
      · rw [Nat.toDigits_of_base_le (by omega) (by omega), List.map_append, htext,
          List.map_singleton, chr_digitChar _ hlast, numeral, numeral, List.map_append,
          List.map_singleton]

/-- What `%u` prints of a 32-bit number reads back as the number. -/
theorem kstrtouint_toDigits (v : U32) :
    kstrtouint 10 ((Nat.toDigits 10 v.toNat).map chr) = .ok v := by
  rcases toDigits_numeral v.toNat with ⟨ds, hds, hvalue, htext⟩
  have hlt := v.isLt
  rw [htext, kstrtouint_numeral hds (by omega), hvalue, BitVec.ofNat_toNat, BitVec.setWidth_eq]

theorem mem_toDigits {n : ℕ} {c : U8} (h : c ∈ (Nat.toDigits 10 n).map chr) :
    chr '0' ≤ c ∧ c ≤ chr '9' := by
  rcases toDigits_numeral n with ⟨ds, hds, -, htext⟩
  rw [htext] at h
  exact mem_numeral hds h

end Linux
