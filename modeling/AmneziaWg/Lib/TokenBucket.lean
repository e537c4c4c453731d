import Mathlib.Data.List.Basic
import Mathlib.Data.Nat.Notation

/-!
# Token accounts

A token bucket earns one token per unit of time, up to a capacity, and pays `cost` tokens
for each grant. An implementation may keep its tokens in any form, forget a bucket that is
full, and lose tokens; what it owes is `Account`: the grants so far, and the tokens that
could be spent now, never exceed the capacity and the time that has passed.

* `Account.start`, `Account.elapse`, `Account.lose`, `Account.spend`: the rules.
* `Account.count_le`: how many grants an interval can hold.
-/

namespace TokenBucket

/-- The grants from `a` to `b`, both included. -/
def countIn (grants : List ℕ) (a b : ℕ) : ℕ := grants.countP fun t => a ≤ t ∧ t ≤ b

/-- The grants from `a` on. -/
def countFrom (grants : List ℕ) (a : ℕ) : ℕ := grants.countP fun t => a ≤ t

/-- The times of the grants, and the tokens available at time `now`, are in order. -/
structure Account (cost capacity now available : ℕ) (grants : List ℕ) : Prop where
  past : ∀ t ∈ grants, t ≤ now
  /-- Counted from any moment, grants and tokens are covered. -/
  covered : ∀ a ≤ now, cost * countFrom grants a + available ≤ capacity + (now - a)
  /-- And so they were at any moment before. -/
  bounded : ∀ a b, a ≤ b → cost * countIn grants a b ≤ capacity + (b - a)

section Rules

variable {cost capacity now available : ℕ} {grants : List ℕ}

/-- No grants yet, and no more tokens than fit. -/
theorem Account.start (h : available ≤ capacity) (now : ℕ) :
    Account cost capacity now available [] := by
  constructor
  · intro t ht
    cases ht
  · intro a _
    simp only [countFrom, List.countP_nil]
    omega
  · intro a b _
    simp only [countIn, List.countP_nil]
    omega

/-- Time passes, and earns no more than itself. -/
theorem Account.elapse (h : Account cost capacity now available grants) {now' available' : ℕ}
    (hnow : now ≤ now') (hcap : available' ≤ capacity)
    (hearn : available' ≤ available + (now' - now)) :
    Account cost capacity now' available' grants := by
  constructor
  · intro t ht
    exact Nat.le_trans (h.past t ht) hnow
  · intro a ha
    by_cases hpast : a ≤ now
    · have := h.covered a hpast
      omega
    · -- nothing was granted since
      have hzero : countFrom grants a = 0 := by
        refine List.countP_eq_zero.mpr ?_
        intro t ht
        have := h.past t ht
        simp only [decide_eq_true_eq]
        omega
      rw [hzero]
      omega
  · exact h.bounded

/-- Tokens may get lost. -/
theorem Account.lose (h : Account cost capacity now available grants) {available' : ℕ}
    (hle : available' ≤ available) : Account cost capacity now available' grants := by
  refine ⟨h.past, ?_, h.bounded⟩
  intro a ha
  have := h.covered a ha
  omega

/-- A grant is paid for. -/
theorem Account.spend (h : Account cost capacity now available grants) {available' : ℕ}
    (hpaid : available' + cost ≤ available) :
    Account cost capacity now available' (now :: grants) := by
  have hfrom : ∀ a ≤ now, countFrom (now :: grants) a = countFrom grants a + 1 := by
    intro a ha
    simp [countFrom, ha]
  have hcovered : ∀ a ≤ now,
      cost * countFrom (now :: grants) a + available' ≤ capacity + (now - a) := by
    intro a ha
    have := h.covered a ha
    rw [hfrom a ha, Nat.mul_add, Nat.mul_one]
    omega
  constructor
  · intro t ht
    rcases List.mem_cons.mp ht with rfl | ht
    · exact Nat.le_refl _
    · exact h.past t ht
  · exact hcovered
  · intro a b hab
    by_cases hin : a ≤ now ∧ now ≤ b
    · -- up to now, the interval is all the time since `a`
      have hall : countIn (now :: grants) a b ≤ countFrom (now :: grants) a := by
        refine List.countP_mono_left ?_
        intro t _ ht
        simp only [decide_eq_true_eq] at ht ⊢
        exact ht.1
      have := hcovered a hin.1
      have hmul := Nat.mul_le_mul_left cost hall
      omega
    · have hsame : countIn (now :: grants) a b = countIn grants a b := by
        simp [countIn, hin]
      rw [hsame]
      exact h.bounded a b hab

/-- An interval holds a burst, and what its length earns. -/
theorem Account.count_le (h : Account cost capacity now available grants) {burst : ℕ}
    (hcost : 0 < cost) (hburst : capacity = cost * burst) (a length : ℕ) :
    countIn grants a (a + length) ≤ burst + length / cost := by
  have hbound := h.bounded a (a + length) (Nat.le_add_right ..)
  rw [hburst, Nat.add_sub_cancel_left] at hbound
  have hdiv : countIn grants a (a + length) ≤ (cost * burst + length) / cost :=
    (Nat.le_div_iff_mul_le hcost).mpr (by rw [Nat.mul_comm]; exact hbound)
  rwa [Nat.mul_add_div hcost] at hdiv

end Rules

end TokenBucket
