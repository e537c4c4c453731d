import Mathlib.Data.List.Basic
import Mathlib.Algebra.Order.Ring.Int
import Mathlib.Algebra.BigOperators.Group.List.Basic

/-!
# Segments of a buffer

A segment is an offset and a length, both signed: a layout computed with signed
arithmetic can go wrong in either. `Tiles a segs b` says that the segments fill
`[a, b)` one after the other, without gap and without a negative length; a
tiling lies in its range (`Tiles.inside`), has pairwise disjoint segments
(`Tiles.disjoint`) and is as long as its parts (`Tiles.sum_len`).
-/

namespace Segments

/-- An offset and a length. -/
structure Segment where
  off : ℤ
  len : ℤ
deriving DecidableEq, Repr

/-- The segment has no negative length and lies in `[0, size)`. -/
def Segment.Inside (s : Segment) (size : ℤ) : Prop := 0 ≤ s.len ∧ 0 ≤ s.off ∧ s.off + s.len ≤ size

/-- The segments share no position. -/
def Segment.Apart (s t : Segment) : Prop := s.off + s.len ≤ t.off ∨ t.off + t.len ≤ s.off

instance (s : Segment) (size : ℤ) : Decidable (s.Inside size) :=
  inferInstanceAs (Decidable (_ ∧ _ ∧ _))

instance (s t : Segment) : Decidable (s.Apart t) := inferInstanceAs (Decidable (_ ∨ _))

/-- The segments fill `[a, b)` in order. -/
def Tiles (a : ℤ) : List Segment → ℤ → Prop
  | [], b => a = b
  | s :: segs, b => s.off = a ∧ 0 ≤ s.len ∧ Tiles (a + s.len) segs b

variable {a b : ℤ} {segs : List Segment}

theorem Tiles.le (h : Tiles a segs b) : a ≤ b := by
  induction segs generalizing a with
  | nil => exact le_of_eq h
  | cons s segs ih =>
    obtain ⟨-, hlen, hrest⟩ := h
    have := ih hrest
    omega

/-- Every segment of a tiling starts and ends in its range. -/
theorem Tiles.bounds (h : Tiles a segs b) {s : Segment} (hs : s ∈ segs) :
    0 ≤ s.len ∧ a ≤ s.off ∧ s.off + s.len ≤ b := by
  induction segs generalizing a with
  | nil => cases hs
  | cons t segs ih =>
    obtain ⟨hoff, hlen, hrest⟩ := h
    rcases List.mem_cons.mp hs with rfl | hs
    · have := hrest.le
      omega
    · have := ih hrest hs
      omega

theorem Tiles.inside {size : ℤ} (h : Tiles 0 segs b) (hb : b ≤ size) {s : Segment} (hs : s ∈ segs) :
    s.Inside size := by
  obtain ⟨hlen, hlo, hhi⟩ := h.bounds hs
  exact ⟨hlen, hlo, by omega⟩

theorem Tiles.disjoint (h : Tiles a segs b) : segs.Pairwise Segment.Apart := by
  induction segs generalizing a with
  | nil => exact List.Pairwise.nil
  | cons s segs ih =>
    obtain ⟨hoff, -, hrest⟩ := h
    refine List.Pairwise.cons ?_ (ih hrest)
    intro t ht
    have := hrest.bounds ht
    exact Or.inl (by omega)

theorem Tiles.sum_len (h : Tiles a segs b) : a + (segs.map Segment.len).sum = b := by
  induction segs generalizing a with
  | nil => simpa [Tiles] using h
  | cons s segs ih =>
    have := ih h.2.2
    rw [List.map_cons, List.sum_cons]
    omega

end Segments
