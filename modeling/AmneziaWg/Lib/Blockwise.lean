import Mathlib.Data.List.Basic

/-!
# Hashing block by block

A hash folds a compression function over the blocks of a message. A streaming hash has
compressed the blocks that are complete and keeps the rest in a buffer.

* **Blocks**: `blocks`, `compressed`; `pieces`, where the last one may be shorter.
* **Streams**: `Absorbed`, what a state and a buffer have taken in; it is kept when the buffer
  grows, when a full buffer is compressed, and when whole blocks follow an empty buffer.
-/

namespace Blockwise

variable {α S : Type*} {n : ℕ}

/-! ## Blocks -/

/-- The blocks of `n` elements; what is left over is dropped. -/
def blocks (n : ℕ) (l : List α) : List (List α) :=
  (List.range (l.length / n)).map fun i => (l.drop (n * i)).take n

theorem blocks_nil : blocks n ([] : List α) = [] := by
  rw [blocks, List.length_nil, Nat.zero_div]
  rfl

theorem blocks_single (hn : 0 < n) {l : List α} (h : l.length = n) : blocks n l = [l] := by
  have hone : l.length / n = 1 := by rw [h, Nat.div_self hn]
  have hall : l.take n = l := List.take_of_length_le (Nat.le_of_eq h)
  rw [blocks, hone]
  show [(l.drop (n * 0)).take n] = [l]
  rw [Nat.mul_zero, List.drop_zero, hall]

theorem blocks_append (hn : 0 < n) {xs : List α} (h : n ∣ xs.length) (ys : List α) :
    blocks n (xs ++ ys) = blocks n xs ++ blocks n ys := by
  rcases h with ⟨k, hk⟩
  have hcount : (xs ++ ys).length / n = k + ys.length / n := by
    rw [List.length_append, hk, Nat.mul_add_div hn]
  have hfront : xs.length / n = k := by rw [hk, Nat.mul_div_cancel_left k hn]
  rw [blocks, blocks, blocks, hcount, hfront, List.range_add, List.map_append, List.map_map]
  congr 1
  · -- a block in front ends where `xs` ends, at the latest
    refine List.map_congr_left ?_
    intro i hi
    have hlt := List.mem_range.mp hi
    have hend : n * i + n ≤ xs.length := by
      rw [hk, ← Nat.mul_succ]
      exact Nat.mul_le_mul_left n hlt
    rw [List.drop_append_of_le_length (by omega), List.take_append_of_le_length]
    rw [List.length_drop]
    omega
  · refine List.map_congr_left ?_
    intro i _
    show ((xs ++ ys).drop (n * (k + i))).take n = _
    rw [Nat.mul_add, ← hk, List.drop_length_add_append]

/-- The blocks are all full. -/
theorem length_of_mem_blocks {l block : List α} (h : block ∈ blocks n l) : block.length = n := by
  rw [blocks] at h
  obtain ⟨i, hi, rfl⟩ := List.mem_map.mp h
  have hlt := List.mem_range.mp hi
  have hend : n * i + n ≤ l.length := by
    rw [← Nat.mul_succ]
    calc n * (i + 1) ≤ n * (l.length / n) := Nat.mul_le_mul_left n hlt
      _ ≤ l.length := Nat.mul_div_le l.length n
  rw [List.length_take, List.length_drop]
  omega

/-- The blocks, and what is left over if there is any. -/
def pieces (n : ℕ) (l : List α) : List (List α) :=
  blocks n l ++ if l.length % n = 0 then [] else [l.drop (n * (l.length / n))]

theorem pieces_append {xs : List α} (hn : 0 < n) (h : n ∣ xs.length) (ys : List α) :
    pieces n (xs ++ ys) = blocks n xs ++ pieces n ys := by
  rw [pieces, pieces, blocks_append hn h, List.append_assoc]
  rcases h with ⟨k, hk⟩
  have hrest : (xs ++ ys).length % n = ys.length % n := by
    rw [List.length_append, hk, Nat.mul_add_mod]
  have hcount : n * ((xs ++ ys).length / n) = xs.length + n * (ys.length / n) := by
    rw [List.length_append, hk, Nat.mul_add_div hn, Nat.mul_add]
  rw [hrest, hcount, List.drop_length_add_append]

theorem pieces_short {l : List α} (h : l.length < n) : pieces n l = if l = [] then [] else [l] := by
  have hcount : l.length / n = 0 := Nat.div_eq_of_lt h
  have hblocks : blocks n l = [] := by
    rw [blocks, hcount]
    rfl
  rw [pieces, hblocks, hcount, Nat.mul_zero, List.drop_zero, List.nil_append, Nat.mod_eq_of_lt h]
  simp only [List.length_eq_zero_iff]

section Compress

variable (compress : S → List α → S) (init : S)

/-- The state after the blocks of a message. -/
def compressed (n : ℕ) (l : List α) : S := (blocks n l).foldl compress init

theorem compressed_append (hn : 0 < n) {xs block : List α} (h : n ∣ xs.length)
    (hblock : block.length = n) :
    compressed compress init n (xs ++ block) = compress (compressed compress init n xs) block := by
  rw [compressed, compressed, blocks_append hn h, blocks_single hn hblock, List.foldl_append,
    List.foldl_cons, List.foldl_nil]

/-! ## Streams -/

/-- The state has compressed the front of the message, and the buffer holds the rest. -/
structure Absorbed (n : ℕ) (h : S) (buf l : List α) : Prop where
  front : ∃ front, l = front ++ buf ∧ n ∣ front.length ∧ h = compressed compress init n front

theorem absorbed_nil : Absorbed compress init n init [] [] :=
  ⟨[], rfl, Nat.dvd_zero n, by rw [compressed, blocks_nil, List.foldl_nil]⟩

variable {compress init} {h : S} {buf l : List α}

/-- The buffer takes more. -/
theorem Absorbed.append (ha : Absorbed compress init n h buf l) (data : List α) :
    Absorbed compress init n h (buf ++ data) (l ++ data) := by
  rcases ha.front with ⟨front, rfl, haligned, hstate⟩
  exact ⟨front, List.append_assoc .., haligned, hstate⟩

/-- A full buffer is compressed. -/
theorem Absorbed.full (hn : 0 < n) (ha : Absorbed compress init n h buf l)
    (hfull : buf.length = n) : Absorbed compress init n (compress h buf) [] l := by
  rcases ha.front with ⟨front, rfl, haligned, hstate⟩
  refine ⟨front ++ buf, (List.append_nil _).symm, ?_, ?_⟩
  · rw [List.length_append, hfull]
    exact Nat.dvd_add haligned (Nat.dvd_refl n)
  · rw [compressed_append _ _ hn haligned hfull, hstate]

/-- Whole blocks follow an empty buffer. -/
theorem Absorbed.whole (hn : 0 < n) (ha : Absorbed compress init n h [] l) {data : List α}
    (hdata : n ∣ data.length) :
    Absorbed compress init n ((blocks n data).foldl compress h) [] (l ++ data) := by
  rcases ha.front with ⟨front, rfl, haligned, hstate⟩
  rw [List.append_nil]
  refine ⟨front ++ data, (List.append_nil _).symm, ?_, ?_⟩
  · rw [List.length_append]
    exact Nat.dvd_add haligned hdata
  · rw [compressed, blocks_append hn haligned, List.foldl_append, hstate, compressed]

/-- What was taken in, as a fold over pieces, the last of which is in the buffer. -/
theorem Absorbed.pieces (hn : 0 < n) (ha : Absorbed compress init n h buf l)
    (hroom : buf.length < n) :
    (pieces n l).foldl compress init = if buf = [] then h else compress h buf := by
  rcases ha.front with ⟨front, rfl, haligned, hstate⟩
  rw [pieces_append hn haligned, pieces_short hroom, List.foldl_append, hstate, compressed]
  split <;> rfl

end Compress

end Blockwise
