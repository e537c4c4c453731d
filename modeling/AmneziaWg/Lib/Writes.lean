import AmneziaWg.Lib.Splice
import Mathlib.Data.List.Basic

/-!
# Writes to a buffer

Code that fills a buffer element by element is modelled by the list of its
writes, an index and a value each, in program order. `stores` performs them.
`Fills a b ws` says that the writes stay in `[a, b)` and leave none of it out; the
result on that range then depends on the writes alone (`Fills.stores_eq`).
`Lays off bs ws` says what the result is: the writes amount to one copy of `bs`.
-/

namespace Writes

variable {α : Type*}

/-- Perform the writes in order; a write outside the buffer has no effect on it. -/
def stores (ws : List (ℕ × α)) (buf : List α) : List α :=
  ws.foldl (fun buf w => buf.set w.1 w.2) buf

/-- The writes of a copy of `bs` to offset `off`. -/
def put (off : ℕ) : List α → List (ℕ × α)
  | [] => []
  | b :: bs => (off, b) :: put (off + 1) bs

/-- The writes stay in `[a, b)` and cover it. -/
structure Fills (a b : ℕ) (ws : List (ℕ × α)) : Prop where
  inside : ∀ w ∈ ws, a ≤ w.1 ∧ w.1 < b
  covers : ∀ k, a ≤ k → k < b → ∃ w ∈ ws, w.1 = k

/-! ## Storing -/

@[simp] theorem stores_nil (buf : List α) : stores [] buf = buf := rfl

theorem stores_cons (w : ℕ × α) (ws : List (ℕ × α)) (buf : List α) :
    stores (w :: ws) buf = stores ws (buf.set w.1 w.2) := rfl

theorem stores_append (ws ws' : List (ℕ × α)) (buf : List α) :
    stores (ws ++ ws') buf = stores ws' (stores ws buf) := List.foldl_append

@[simp] theorem length_stores (ws : List (ℕ × α)) (buf : List α) :
    (stores ws buf).length = buf.length := by
  induction ws generalizing buf with
  | nil => rfl
  | cons w ws ih => rw [stores_cons, ih, List.length_set]

variable {ws : List (ℕ × α)} {k : ℕ}

/-- An index that is not written keeps its value. -/
theorem stores_frame (h : ∀ w ∈ ws, w.1 ≠ k) (buf : List α) : (stores ws buf)[k]? = buf[k]? := by
  induction ws generalizing buf with
  | nil => rfl
  | cons w ws ih =>
    rcases List.forall_mem_cons.mp h with ⟨hw, hws⟩
    rw [stores_cons, ih hws, List.getElem?_set_ne hw]

variable {buf : List α}

/-- An index that is written has a value that does not depend on the buffer. -/
theorem stores_written (h : ∃ w ∈ ws, w.1 = k) {buf' : List α} (hlen : k < buf.length)
    (hlen' : k < buf'.length) : (stores ws buf)[k]? = (stores ws buf')[k]? := by
  induction ws generalizing buf buf' with
  | nil =>
    rcases h with ⟨w, hw, -⟩
    cases hw
  | cons w ws ih =>
    rw [stores_cons, stores_cons]
    by_cases hws : ∃ w ∈ ws, w.1 = k
    · -- a later write decides
      exact ih hws (by rwa [List.length_set]) (by rwa [List.length_set])
    · -- this is the last write to `k`
      have hframe : ∀ w ∈ ws, w.1 ≠ k := fun w hw hk => hws ⟨w, hw, hk⟩
      have hwk : w.1 = k := by
        rcases h with ⟨w', hw', hk⟩
        rcases List.mem_cons.mp hw' with rfl | hw'
        · exact hk
        · exact absurd hk (hframe w' hw')
      rw [stores_frame hframe, stores_frame hframe, hwk, List.getElem?_set_self hlen,
        List.getElem?_set_self hlen']

/-! ## Filling a range -/

theorem fills_nil (a : ℕ) : Fills a a ([] : List (ℕ × α)) := by
  constructor
  · intro w hw
    cases hw
  · intro k hlo hhi
    omega

variable {a : ℕ}

theorem Fills.eq_nil (h : Fills a a ws) : ws = [] := by
  cases ws with
  | nil => rfl
  | cons w ws =>
    have := h.inside w (List.mem_cons_self ..)
    omega

theorem fills_singleton (a : ℕ) (v : α) : Fills a (a + 1) [(a, v)] := by
  constructor
  · intro w hw
    rw [List.mem_singleton.mp hw]
    exact ⟨Nat.le_refl a, Nat.lt_succ_self a⟩
  · intro k hlo hhi
    exact ⟨(a, v), List.mem_singleton.mpr rfl, show a = k by omega⟩

variable {b : ℕ} {ws' : List (ℕ × α)}

theorem Fills.append {c : ℕ} (h : Fills a b ws) (h' : Fills b c ws') (hab : a ≤ b) (hbc : b ≤ c) :
    Fills a c (ws ++ ws') := by
  constructor
  · intro w hw
    rcases List.mem_append.mp hw with hw | hw
    · have := h.inside w hw
      omega
    · have := h'.inside w hw
      omega
  · intro k hlo hhi
    rcases Nat.lt_or_ge k b with hk | hk
    · rcases h.covers k hlo hk with ⟨w, hw, rfl⟩
      exact ⟨w, List.mem_append_left _ hw, rfl⟩
    · rcases h'.covers k hk hhi with ⟨w, hw, rfl⟩
      exact ⟨w, List.mem_append_right _ hw, rfl⟩

/-- The order of the writes does not matter for what they fill. -/
theorem Fills.comm (h : Fills a b (ws ++ ws')) : Fills a b (ws' ++ ws) := by
  constructor
  · intro w hw
    exact h.inside w (List.mem_append.mpr (List.mem_append.mp hw).symm)
  · intro k hlo hhi
    rcases h.covers k hlo hhi with ⟨w, hw, hk⟩
    exact ⟨w, List.mem_append.mpr (List.mem_append.mp hw).symm, hk⟩

/-- Writes over a filled range leave it filled. -/
theorem Fills.over (h : Fills a b ws) (hin : ∀ w ∈ ws', a ≤ w.1 ∧ w.1 < b) :
    Fills a b (ws ++ ws') := by
  constructor
  · intro w hw
    rcases List.mem_append.mp hw with hw | hw
    · exact h.inside w hw
    · exact hin w hw
  · intro k hlo hhi
    rcases h.covers k hlo hhi with ⟨w, hw, hk⟩
    exact ⟨w, List.mem_append_left _ hw, hk⟩

variable {bs : List α}

theorem fills_put (h : a + bs.length = b) : Fills a b (put a bs) := by
  induction bs generalizing a with
  | nil =>
    have hab : a = b := h
    rw [hab]
    exact fills_nil b
  | cons v bs ih =>
    rw [List.length_cons] at h
    exact (fills_singleton a v).append (ih (by omega)) (by omega) (by omega)

/-- What a copy leaves at its places. -/
theorem stores_put {off : ℕ} (hk : k < bs.length) (hlen : off + bs.length ≤ buf.length) :
    (stores (put off bs) buf)[off + k]? = bs[k]? := by
  induction bs generalizing off k buf with
  | nil => cases hk
  | cons b bs ih =>
    rw [put, stores_cons]
    rw [List.length_cons] at hk hlen
    cases k with
    | zero =>
      -- the rest of the copy lies behind the first place
      have hframe : ∀ w ∈ put (off + 1) bs, w.1 ≠ off := by
        intro w hw
        have := ((fills_put rfl).inside w hw).1
        omega
      show (stores (put (off + 1) bs) (buf.set off b))[off]? = some b
      rw [stores_frame hframe, List.getElem?_set_self (by omega)]
    | succ k =>
      rw [show off + (k + 1) = off + 1 + k by omega]
      rw [ih (by omega) (by rw [List.length_set]; omega)]
      rfl

theorem stores_put_zero (hk : k < bs.length) (hlen : bs.length ≤ buf.length) :
    (stores (put 0 bs) buf)[k]? = bs[k]? := by
  have h : (stores (put 0 bs) buf)[0 + k]? = bs[k]? := stores_put hk (by omega)
  rwa [Nat.zero_add] at h

/-- Writes that fill the first `n` places: what they leave there is the same for
all buffers, and the rest of the buffer is unchanged. -/
theorem Fills.stores_eq {n : ℕ} (h : Fills 0 n ws) (d : α) (hn : n ≤ buf.length) :
    stores ws buf = stores ws (List.replicate n d) ++ buf.drop n := by
  apply List.ext_getElem?
  intro k
  rcases Nat.lt_or_ge k n with hk | hk
  · rw [List.getElem?_append_left (by rwa [length_stores, List.length_replicate])]
    exact stores_written (h.covers k (Nat.zero_le k) hk) (by omega) (by rwa [List.length_replicate])
  · have hframe : ∀ w ∈ ws, w.1 ≠ k := by
      intro w hw hwk
      have := (h.inside w hw).2
      omega
    rw [stores_frame hframe, List.getElem?_append_right (by rwa [length_stores, List.length_replicate]),
      length_stores, List.length_replicate, List.getElem?_drop, Nat.add_sub_cancel' hk]

/-! ## What is left in the buffer -/

/-- The writes amount to a copy of `bs` to `off`. -/
def Lays (off : ℕ) (bs : List α) (ws : List (ℕ × α)) : Prop :=
  ∀ buf : List α, off + bs.length ≤ buf.length → stores ws buf = Splice.overwrite off bs buf

theorem lays_nil (off : ℕ) : Lays off [] ([] : List (ℕ × α)) := by
  intro buf _
  simp [Splice.overwrite]

theorem lays_put (off : ℕ) (bs : List α) : Lays off bs (put off bs) := by
  induction bs generalizing off with
  | nil => exact lays_nil off
  | cons b bs ih =>
    intro buf hlen
    rw [List.length_cons] at hlen
    have hset : (buf.set off b).length = buf.length := List.length_set
    rw [put, stores_cons, ih (off + 1) (buf.set off b) (by omega), Splice.overwrite,
      Splice.overwrite, List.length_cons, List.drop_set_of_lt (by omega),
      List.take_set, List.take_succ_eq_append_getElem (by omega),
      List.set_append_right _ _ (by rw [List.length_take]; omega)]
    simp [List.length_take, Nat.min_eq_left (show off ≤ buf.length by omega), Nat.add_assoc,
      Nat.add_comm 1 bs.length]

/-- Two copies side by side are one. -/
theorem Lays.append {off : ℕ} {bs' : List α} (h : Lays off bs ws)
    (h' : Lays (off + bs.length) bs' ws') : Lays off (bs ++ bs') (ws ++ ws') := by
  intro buf hlen
  rw [List.length_append] at hlen
  have hfirst := h buf (by omega)
  have hsame : (Splice.overwrite off bs buf).length = buf.length :=
    Splice.length_overwrite (by omega)
  have hfront : (buf.take off ++ bs).length = off + bs.length := by
    rw [List.length_append, List.length_take]
    omega
  rw [stores_append, hfirst, h' _ (by omega), Splice.overwrite, Splice.overwrite,
    Splice.overwrite, List.take_left' hfront, ← List.drop_drop, List.drop_left' hfront,
    List.drop_drop, List.length_append]
  simp only [List.append_assoc, Nat.add_assoc]

/-- The copy in the back may be made first. -/
theorem Lays.append_comm {off : ℕ} {bs' : List α} (h : Lays off bs ws)
    (h' : Lays (off + bs.length) bs' ws') : Lays off (bs ++ bs') (ws' ++ ws) := by
  intro buf hlen
  rw [List.length_append] at hlen
  have hlast := h' buf (by omega)
  have hsame : (Splice.overwrite (off + bs.length) bs' buf).length = buf.length :=
    Splice.length_overwrite (by omega)
  have hfront : (buf.take (off + bs.length)).length = off + bs.length := by
    rw [List.length_take]
    omega
  rw [stores_append, hlast, h _ (by omega), Splice.overwrite,
    Splice.take_overwrite (by omega) (by omega), Splice.overwrite, Splice.overwrite,
    List.append_assoc (buf.take (off + bs.length)), List.drop_left' hfront, List.length_append]
  simp only [List.append_assoc, Nat.add_assoc]

/-- A buffer whose first places are laid out. -/
theorem Lays.stores_eq (h : Lays 0 bs ws) (hlen : bs.length ≤ buf.length) :
    stores ws buf = bs ++ buf.drop bs.length := by
  rw [h buf (by omega), Splice.overwrite_zero]

/-- The front of such a buffer. -/
theorem Lays.take_stores (h : Lays 0 bs ws) {n : ℕ} (hn : bs.length = n) (hlen : n ≤ buf.length) :
    (stores ws buf).take n = bs := by
  rw [h.stores_eq (by omega), List.take_left' hn]

end Writes
