import AmneziaWg.Lib.Linux
import Mathlib.Data.List.Basic

/-!
# Socket buffers

A packet on its way up the stack: a linear area, a data pointer into it, and page
fragments behind it. Positions count from `head`; `tail` is the end of the linear area.
Operations that would move the data pointer out of the linear area have no result.

* **Model**: `SkBuff`, `pull`, `push`, `mayPull`, `trim`, `linearize`.
* **Laws**: what each operation does to `content`, the linear area and the fragments as
  one byte string.
-/

namespace Linux

/-- `struct sk_buff`. Sizes are 32-bit numbers. -/
structure SkBuff where
  /-- From `head` to `tail`. -/
  linear : Bytes
  data : ℕ
  /-- The paged part. -/
  frags : Bytes
  /-- `skb_transport_header`. -/
  transportHeader : ℤ
  data_le : data ≤ linear.length
  size_lt : linear.length + frags.length < 2 ^ 32

namespace SkBuff

/-! ## Model layer -/

/-- `skb_headlen`. -/
def headlen (skb : SkBuff) : ℕ := skb.linear.length - skb.data

def len (skb : SkBuff) : ℕ := skb.headlen + skb.frags.length

/-- Everything from `head` on. -/
def content (skb : SkBuff) : Bytes := skb.linear ++ skb.frags

/-- `__skb_pull`. -/
def rawPull (skb : SkBuff) (n : ℕ) : Option SkBuff :=
  if h : skb.data + n ≤ skb.linear.length then
    some { skb with data := skb.data + n, data_le := h }
  else none

/-- `skb_pull`: it does nothing if there is not enough data. -/
def pull (skb : SkBuff) (n : ℕ) : Option SkBuff := if n > skb.len then some skb else skb.rawPull n

/-- `skb_push` and `__skb_push`. -/
def push (skb : SkBuff) (n : ℕ) : Option SkBuff :=
  if n ≤ skb.data then
    some { skb with data := skb.data - n, data_le := (Nat.sub_le ..).trans skb.data_le }
  else none

/-- `__pskb_pull_tail`: bytes move from the fragments to the linear area. -/
def pullTail (skb : SkBuff) (n : ℕ) : SkBuff where
  linear := skb.linear ++ skb.frags.take n
  data := skb.data
  frags := skb.frags.drop n
  transportHeader := skb.transportHeader
  data_le := by
    rw [List.length_append]
    exact skb.data_le.trans (Nat.le_add_right ..)
  size_lt := by
    have := skb.size_lt
    rw [List.length_append, List.length_take, List.length_drop]
    omega

/-- `pskb_may_pull`; `alloc` says whether memory is there if it is needed. -/
def mayPull (alloc : Bool) (skb : SkBuff) (n : ℕ) : Bool × SkBuff :=
  if n ≤ skb.headlen then (true, skb)
  else if n > skb.len then (false, skb)
  else if alloc then (true, skb.pullTail (n - skb.headlen)) else (false, skb)

/-- The packet ends `n` bytes behind `data`. -/
def cut (skb : SkBuff) (n : ℕ) : SkBuff where
  linear := skb.linear.take (skb.data + n)
  data := skb.data
  frags := skb.frags.take (n - skb.headlen)
  transportHeader := skb.transportHeader
  data_le := by
    have := skb.data_le
    rw [List.length_take]
    omega
  size_lt := by
    have := skb.size_lt
    rw [List.length_take, List.length_take]
    omega

/-- `pskb_trim`. A packet with fragments may need memory. -/
def trim (alloc : Bool) (skb : SkBuff) (n : ℕ) : Bool × SkBuff :=
  if n < skb.len then
    if skb.frags ≠ [] ∧ alloc = false then (false, skb) else (true, skb.cut n)
  else (true, skb)

/-- `skb_linearize`. -/
def linearize (alloc : Bool) (skb : SkBuff) : Bool × SkBuff :=
  if skb.frags ≠ [] then
    if alloc then (true, skb.pullTail skb.frags.length) else (false, skb)
  else (true, skb)

/-! ## Laws -/

theorem len_eq (skb : SkBuff) : skb.len = skb.content.length - skb.data := by
  have := skb.data_le
  rw [len, headlen, content, List.length_append]
  omega

@[simp] theorem pullTail_content (skb : SkBuff) (n : ℕ) : (skb.pullTail n).content = skb.content := by
  rw [content, pullTail, content, List.append_assoc, List.take_append_drop]

theorem cut_content (skb : SkBuff) (n : ℕ) :
    (skb.cut n).content = skb.content.take (skb.data + n) := by
  have hsub : n - skb.headlen = skb.data + n - skb.linear.length := by
    have := skb.data_le
    rw [headlen]
    omega
  show skb.linear.take (skb.data + n) ++ skb.frags.take (n - skb.headlen) = _
  rw [content, List.take_append, hsub]

variable {alloc : Bool} {skb skb' : SkBuff} {n : ℕ}

/-- A pull that was granted: nothing moves, and the bytes are in the linear area. -/
theorem mayPull_true (h : skb.mayPull alloc n = (true, skb')) :
    skb'.content = skb.content ∧ skb'.data = skb.data ∧ skb'.data + n ≤ skb'.linear.length := by
  have hdata := skb.data_le
  unfold mayPull at h
  split at h
  · next hn =>
    cases h
    rw [headlen] at hn
    exact ⟨rfl, rfl, by omega⟩
  split at h
  · cases h
  next hlong hlen =>
  split at h
  · cases h
    refine ⟨pullTail_content .., rfl, ?_⟩
    show skb.data + n ≤ (skb.linear ++ skb.frags.take (n - skb.headlen)).length
    rw [len] at hlen
    rw [headlen] at hlong hlen ⊢
    rw [List.length_append, List.length_take]
    omega
  · cases h

/-- Without fragments nothing has to be pulled. -/
theorem mayPull_linear (h : skb.data + n ≤ skb.linear.length) :
    skb.mayPull alloc n = (true, skb) := by
  rw [mayPull, if_pos]
  rw [headlen]
  omega

theorem trim_true (h : skb.trim alloc n = (true, skb')) (hn : n ≤ skb.len) :
    skb'.content = skb.content.take (skb.data + n) ∧ skb'.data = skb.data ∧
      skb'.linear = skb.linear.take (skb.data + n) := by
  unfold trim at h
  split at h
  · split at h
    · cases h
    · cases h
      exact ⟨cut_content skb n, rfl, rfl⟩
  · -- already as short
    cases h
    rw [len_eq] at hn
    have hlen := skb.len_eq
    have hdata := skb.data_le
    have hall : skb.content.length ≤ skb.data + n := by omega
    rw [content, List.length_append] at hall
    refine ⟨(List.take_of_length_le ?_).symm, rfl, (List.take_of_length_le (by omega)).symm⟩
    rw [content, List.length_append]
    exact hall

theorem linearize_true (h : skb.linearize alloc = (true, skb')) :
    skb'.linear = skb.content ∧ skb'.frags = [] ∧ skb'.data = skb.data := by
  unfold linearize at h
  split at h
  · split at h
    · cases h
      refine ⟨?_, List.drop_length, rfl⟩
      show skb.linear ++ skb.frags.take skb.frags.length = _
      rw [List.take_length, content]
    · cases h
  · next hfrags =>
    cases h
    have hnil : skb.frags = [] := not_not.mp hfrags
    refine ⟨?_, hnil, rfl⟩
    rw [content, hnil, List.append_nil]

end SkBuff

end Linux
