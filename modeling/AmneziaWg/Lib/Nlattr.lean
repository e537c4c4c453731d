import Mathlib.Data.Nat.Basic
import Mathlib.Data.List.Basic

/-!
# Attributes in a message of limited room

Attributes are appended to a message one by one, and one that no longer fits is
refused. What an attribute takes may depend on where it starts, since some are
aligned. A list of attributes fits as a whole exactly if its end does.

* **Model**: `nlaPut`, `nlaPutAll`, `nlaNestStart`.
* **Rule**: `nlaPutAll_eq`, with the end of a list given by `extent`.
-/

namespace Nlattr

/-- `nla_total_size`: a header of four bytes, aligned to four. -/
def nlaTotalSize (payload : ℕ) : ℕ := (4 + payload + 3) / 4 * 4

/-- `nla_nest_start`: an attribute without payload; the position after it. -/
def nlaNestStart (capacity pos : ℕ) : Option ℕ :=
  if pos + nlaTotalSize 0 ≤ capacity then some (pos + nlaTotalSize 0) else none

section Attributes

variable {α : Type*} (size : ℕ → α → ℕ)

/-- `nla_put`: the position after the attribute, unless it does not fit. -/
def nlaPut (capacity : ℕ) (a : α) (pos : ℕ) : Option ℕ :=
  if pos + size pos a ≤ capacity then some (pos + size pos a) else none

/-- Attributes one after the other, up to the first that does not fit. -/
def nlaPutAll (capacity : ℕ) : List α → ℕ → Option ℕ
  | [], pos => some pos
  | a :: rest, pos =>
    match nlaPut size capacity a pos with
    | none => none
    | some pos => nlaPutAll capacity rest pos

/-- Where the attributes end. -/
def extent : List α → ℕ → ℕ
  | [], pos => pos
  | a :: rest, pos => extent rest (pos + size pos a)

variable {size}

theorem le_extent (as : List α) (pos : ℕ) : pos ≤ extent size as pos := by
  induction as generalizing pos with
  | nil => exact le_rfl
  | cons a rest ih => exact le_trans (Nat.le_add_right ..) (ih _)

theorem extent_append (as bs : List α) (pos : ℕ) :
    extent size (as ++ bs) pos = extent size bs (extent size as pos) := by
  induction as generalizing pos with
  | nil => rfl
  | cons a rest ih => exact ih _

/-- The attributes fit if and only if their end does. -/
theorem nlaPutAll_eq {capacity : ℕ} (as : List α) {pos : ℕ} (hpos : pos ≤ capacity) :
    nlaPutAll size capacity as pos =
      if extent size as pos ≤ capacity then some (extent size as pos) else none := by
  induction as generalizing pos with
  | nil => exact (if_pos hpos).symm
  | cons a rest ih =>
    rw [nlaPutAll, nlaPut]
    by_cases hfits : pos + size pos a ≤ capacity
    · rw [if_pos hfits]
      exact ih hfits
    · -- the rest only lies further behind
      have hend : ¬ extent size (a :: rest) pos ≤ capacity := fun hle =>
        hfits (le_trans (le_extent rest _) hle)
      rw [if_neg hfits, if_neg hend]

theorem nlaPutAll_of_le {capacity : ℕ} {as : List α} {pos : ℕ} (h : extent size as pos ≤ capacity) :
    nlaPutAll size capacity as pos = some (extent size as pos) := by
  rw [nlaPutAll_eq as (le_trans (le_extent as pos) h), if_pos h]

end Attributes

end Nlattr
