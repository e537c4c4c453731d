import Mathlib.Data.List.TakeDrop

/-!
# Fields of a buffer

`slice off n buf` reads `n` elements at an offset, `overwrite off bs buf` writes some
there. What was written is read back, and what lies elsewhere stays.
-/

namespace Splice

variable {α : Type*} {buf bs : List α} {off n m : ℕ}

/-- `n` elements from `off` on. -/
def slice (off n : ℕ) (buf : List α) : List α := (buf.drop off).take n

/-- The buffer with `bs` at `off`. -/
def overwrite (off : ℕ) (bs buf : List α) : List α :=
  buf.take off ++ bs ++ buf.drop (off + bs.length)

theorem length_overwrite (h : off + bs.length ≤ buf.length) :
    (overwrite off bs buf).length = buf.length := by
  simp only [overwrite, List.length_append, List.length_take, List.length_drop]
  omega

/-- In front of the field nothing changes. -/
theorem take_overwrite (hm : m ≤ off) (h : off ≤ buf.length) :
    (overwrite off bs buf).take m = buf.take m := by
  have hlen : m ≤ (buf.take off).length := by
    rw [List.length_take]
    omega
  rw [overwrite, List.append_assoc, List.take_append_of_le_length hlen, List.take_take,
    Nat.min_eq_left hm]

/-- The field itself is read back. -/
theorem slice_overwrite (h : off ≤ buf.length) :
    slice off bs.length (overwrite off bs buf) = bs := by
  have hlen : (buf.take off).length = off := by
    rw [List.length_take]
    omega
  rw [slice, overwrite, List.append_assoc, List.drop_left' hlen, List.take_left' rfl]

/-- A field in front is read as before. -/
theorem slice_overwrite_of_le (hm : m + n ≤ off) (h : off ≤ buf.length) :
    slice m n (overwrite off bs buf) = slice m n buf := by
  rw [slice, slice, List.take_drop, List.take_drop, take_overwrite hm h]

section Append

variable {xs ys : List α} {k i : ℕ}

/-- A field behind `xs` is a field of what follows `xs`. -/
theorem overwrite_append (h : xs.length = k) :
    overwrite (k + i) bs (xs ++ ys) = xs ++ overwrite i bs ys := by
  subst h
  rw [overwrite, overwrite, Nat.add_assoc, List.take_length_add_append,
    List.drop_length_add_append, List.append_assoc, List.append_assoc, List.append_assoc]

theorem slice_append (h : xs.length = k) : slice (k + i) n (xs ++ ys) = slice i n ys := by
  subst h
  rw [slice, slice, List.drop_length_add_append]

theorem overwrite_zero : overwrite 0 bs buf = bs ++ buf.drop bs.length := by
  simp [overwrite]

theorem slice_zero (h : xs.length = n) : slice 0 n (xs ++ ys) = xs := by
  subst h
  simp [slice]

theorem overwrite_behind (h : xs.length = k) :
    overwrite k bs (xs ++ ys) = xs ++ (bs ++ ys.drop bs.length) := by
  have hfield := @overwrite_append _ bs xs ys k 0 h
  rw [Nat.add_zero, overwrite_zero] at hfield
  exact hfield

theorem slice_behind (h : xs.length = k) : slice k n (xs ++ ys) = ys.take n :=
  @slice_append _ n xs ys k 0 h

end Append

end Splice
