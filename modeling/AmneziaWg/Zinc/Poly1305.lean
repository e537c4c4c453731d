import Mathlib.Data.Nat.ModEq
import AmneziaWg.Lib.Blockwise
import AmneziaWg.Lib.Words

/-!
# The Poly1305 authenticator

`poly1305.c` takes a message in pieces of any size and hands it, in blocks of 16 bytes, to the
arithmetic of one of two files: `poly1305-donna64.c` where there are 128-bit integers, and
`poly1305-donna32.c` elsewhere.

* **Specification**: `rfcPoly1305`, of RFC 8439.
* **Model**: `Core`, what the arithmetic provides; `poly1305Init`, `poly1305Update`,
  `poly1305Final`.
* **Refinement**: `Core.Correct`, a core that keeps the accumulator modulo `p` in some
  representation; with any such core, however the message is cut, the tag is the specified one.
-/

namespace AmneziaWg.Zinc

open Linux Words Blockwise

/-! ## Specification -/

/-- The prime `2^130 - 5`. -/
def p : ℕ := 2 ^ 130 - 5

/-- The bits of the key that `r` may have. -/
def clamp (r : ℕ) : ℕ := r &&& 0x0ffffffc0ffffffc0ffffffc0fffffff

/-- One piece of the message, with a `1` behind it. -/
def absorb (r acc : ℕ) (piece : Bytes) : ℕ := (acc + leValue (piece ++ [1])) * r % p

/-- The tag of a message under a key of 32 bytes. -/
def rfcPoly1305 (key msg : Bytes) : Bytes :=
  let r := clamp (leValue (key.take 16))
  let s := leValue (key.drop 16)
  le 16 (((pieces 16 msg).foldl (absorb r) 0 + s) % 2 ^ 128)

/-! ## Model -/

/-- A number in four words, such as `nonce[4]`, the second half of the key. -/
structure Quad where
  n0 : U32
  n1 : U32
  n2 : U32
  n3 : U32

def Quad.value (n : Quad) : ℕ :=
  n.n0.toNat + 2 ^ 32 * n.n1.toNat + 2 ^ 64 * n.n2.toNat + 2 ^ 96 * n.n3.toNat

/-- What `poly1305-donna64.c` and `poly1305-donna32.c` provide: `poly1305_init_generic`, the loop
body of `poly1305_blocks_generic`, and `poly1305_emit_generic`. -/
structure Core where
  State : Type
  init : Bytes → State
  block : State → Bytes → U32 → State
  emit : State → Quad → Bytes

/-- `struct poly1305_ctx`: the first `num` bytes of its buffer are in `data`. -/
structure Poly1305Ctx (core : Core) where
  state : core.State
  nonce : Quad
  data : Bytes
  room : data.length < 16

variable {core : Core}

/-- `poly1305_blocks`: the blocks of the input; what is left over is not read. -/
def poly1305Blocks (core : Core) (st : core.State) (input : Bytes) (padbit : U32) : core.State :=
  (blocks 16 input).foldl (fun st block => core.block st block padbit) st

def poly1305Init (core : Core) (key : Bytes) : Poly1305Ctx core where
  state := core.init key
  nonce := ⟨readLe32 (key.drop 16), readLe32 (key.drop 20), readLe32 (key.drop 24),
    readLe32 (key.drop 28)⟩
  data := []
  room := by decide

/-- The rest of `poly1305_update`, when the buffer is empty: the whole blocks are absorbed, and
what is left over stays in the buffer. -/
def updateWhole (ctx : Poly1305Ctx core) (input : Bytes) : Poly1305Ctx core :=
  let rem := input.length % 16
  let len := input.length - rem
  { state := if len ≥ 16 then poly1305Blocks core ctx.state (input.take len) 1 else ctx.state
    nonce := ctx.nonce
    data := input.drop len
    room := by
      rw [List.length_drop]
      omega }

def poly1305Update (ctx : Poly1305Ctx core) (input : Bytes) : Poly1305Ctx core :=
  if 0 < ctx.data.length then
    if h : input.length < 16 - ctx.data.length then
      { ctx with
        data := ctx.data ++ input
        room := by
          rw [List.length_append]
          omega }
    else
      let rem := 16 - ctx.data.length
      updateWhole
        { ctx with state := poly1305Blocks core ctx.state (ctx.data ++ input.take rem) 1 }
        (input.drop rem)
  else updateWhole ctx input

/-- `poly1305_final`: a last block that is not full ends with a `1` and zeros, and no bit is added
above it. -/
def poly1305Final (ctx : Poly1305Ctx core) : Bytes :=
  let state :=
    if 0 < ctx.data.length then
      poly1305Blocks core ctx.state (ctx.data ++ 1 :: List.replicate (15 - ctx.data.length) 0) 0
    else ctx.state
  core.emit state ctx.nonce

/-! ## Refinement -/

/-- A core is correct if its states represent the clamped key and the accumulator modulo `p`. -/
structure Core.Correct (core : Core) where
  /-- The state holds the key `r` and the accumulator `acc`. -/
  Holds : core.State → ℕ → ℕ → Prop
  init : ∀ {key : Bytes}, 16 ≤ key.length →
    Holds (core.init key) (clamp (leValue (key.take 16))) 0
  block : ∀ {st : core.State} {r acc : ℕ} {block : Bytes} {padbit : U32}, Holds st r acc →
    block.length = 16 → padbit.toNat ≤ 1 →
    Holds (core.block st block padbit) r ((acc + (leValue block + 2 ^ 128 * padbit.toNat)) * r % p)
  emit : ∀ {st : core.State} {r acc : ℕ}, Holds st r acc → ∀ nonce : Quad,
    core.emit st nonce = le 16 ((acc % p + nonce.value) % 2 ^ 128)

variable {acc r : ℕ}

/-- A core may leave out multiples of `p`. -/
theorem mod_step {v v' m j k : ℕ} (hv : v % p = acc % p) (h : (v + m) * r = v' + p * k + p * j) :
    v' % p = (acc + m) * r % p % p := by
  have hcongr : (v + m) * r ≡ (acc + m) * r [MOD p] := (Nat.ModEq.add_right m hv).mul_right r
  rw [h] at hcongr
  rw [Nat.mod_mod, ← hcongr, Nat.add_mul_mod_self_left, Nat.add_mul_mod_self_left]

/-- Sixteen bytes with a `1` behind them. -/
theorem leValue_full {block : Bytes} (h : block.length = 16) :
    leValue (block ++ [1]) = leValue block + 2 ^ 128 * 1 := by
  rw [leValue_append, h]
  rfl

/-- The `1` and the zeros of the last block stand for the `1` behind the piece. -/
theorem leValue_padded (piece : Bytes) (n : ℕ) :
    leValue (piece ++ 1 :: List.replicate n 0) = leValue (piece ++ [1]) := by
  rw [leValue_append, leValue_append, leValue_cons, leValue_cons, leValue_zeros, leValue_nil]

section Refinement

variable (correct : core.Correct)

/-- Full blocks are absorbed one after the other. -/
theorem poly1305Blocks_holds {st : core.State} (h : correct.Holds st r acc) (input : Bytes) :
    correct.Holds (poly1305Blocks core st input 1) r ((blocks 16 input).foldl (absorb r) acc) := by
  have hfull : ∀ block ∈ blocks 16 input, block.length = 16 :=
    fun _ hmem => length_of_mem_blocks hmem
  rw [poly1305Blocks]
  generalize blocks 16 input = bs at hfull ⊢
  induction bs generalizing st acc with
  | nil => exact h
  | cons b bs ih =>
    have hlen : b.length = 16 := hfull b (List.mem_cons_self ..)
    have hnext := @correct.block st r acc b 1 h hlen (by decide)
    rw [show (1 : U32).toNat = 1 from rfl, ← leValue_full hlen] at hnext
    exact ih hnext fun b' hb' => hfull b' (List.mem_cons_of_mem b hb')

/-- The context has taken in the message. -/
structure Poly1305Ctx.Absorbed (ctx : Poly1305Ctx core) (r s : ℕ) (m : Bytes) : Prop where
  blocks : ∃ acc, correct.Holds ctx.state r acc ∧
    Blockwise.Absorbed (absorb r) 0 16 acc ctx.data m
  nonce : ctx.nonce.value = s

theorem poly1305Init_absorbed {key : Bytes} (hkey : key.length = 32) :
    (poly1305Init core key).Absorbed correct (clamp (leValue (key.take 16)))
      (leValue (key.drop 16)) [] := by
  refine ⟨⟨0, correct.init (by omega), absorbed_nil ..⟩, ?_⟩
  -- the four words are the 16 bytes from 16 on
  have hlt := leValue_lt (key.drop 16)
  rw [List.length_drop, hkey] at hlt
  have hword : ∀ i, leValue ((key.drop (16 + i)).take 4) =
      leValue (key.drop 16) / 256 ^ i % 256 ^ 4 := by
    intro i
    rw [leValue_take, ← List.drop_drop, leValue_drop]
  simp only [poly1305Init, Quad.value, toNat_readLe32]
  rw [hword 4, hword 8, hword 12, leValue_take]
  generalize leValue (key.drop 16) = n at hlt ⊢
  omega

/-- Nothing is left in the buffer when the whole blocks of the input are absorbed. -/
theorem updateWhole_absorbed {ctx : Poly1305Ctx core} {r acc : ℕ} {m : Bytes}
    (hholds : correct.Holds ctx.state r acc) (habs : Blockwise.Absorbed (absorb r) 0 16 acc [] m)
    (input : Bytes) :
    (updateWhole ctx input).Absorbed correct r ctx.nonce.value (m ++ input) := by
  generalize hlen : input.length - input.length % 16 = len
  have hcut : 16 ∣ (input.take len).length := by
    rw [List.length_take]
    omega
  have hrest : m ++ input = m ++ input.take len ++ input.drop len := by
    rw [List.append_assoc, List.take_append_drop]
  refine ⟨⟨(blocks 16 (input.take len)).foldl (absorb r) acc, ?_, ?_⟩, rfl⟩
  · show correct.Holds (if input.length - input.length % 16 ≥ 16 then
      poly1305Blocks core ctx.state (input.take (input.length - input.length % 16)) 1
      else ctx.state) r _
    rw [hlen]
    by_cases hwhole : len ≥ 16
    · rw [if_pos hwhole]
      exact poly1305Blocks_holds correct hholds _
    · -- less than a block
      have hnil : input.take len = [] := by
        apply List.length_eq_zero_iff.mp
        rw [List.length_take]
        omega
      rw [if_neg hwhole, hnil, blocks_nil]
      exact hholds
  · show Blockwise.Absorbed _ _ _ _ (input.drop (input.length - input.length % 16)) _
    rw [hlen, hrest]
    exact (habs.whole (by omega) hcut).append _

variable {ctx : Poly1305Ctx core} {s : ℕ} {m : Bytes}

theorem poly1305Update_absorbed (h : ctx.Absorbed correct r s m) (input : Bytes) :
    (poly1305Update ctx input).Absorbed correct r s (m ++ input) := by
  obtain ⟨⟨acc, hholds, habs⟩, hnonce⟩ := h
  have hroom := ctx.room
  rw [poly1305Update]
  by_cases hnum : 0 < ctx.data.length
  · rw [if_pos hnum]
    by_cases hshort : input.length < 16 - ctx.data.length
    · rw [dif_pos hshort]
      exact ⟨⟨acc, hholds, habs.append input⟩, hnonce⟩
    · -- the buffer is filled up to a block, which is absorbed
      rw [dif_neg hshort]
      have hblock : (ctx.data ++ input.take (16 - ctx.data.length)).length = 16 := by
        rw [List.length_append, List.length_take]
        omega
      have hnext := (habs.append (input.take (16 - ctx.data.length))).full (by omega) hblock
      have hstate := poly1305Blocks_holds correct hholds
        (ctx.data ++ input.take (16 - ctx.data.length))
      rw [blocks_single (by omega) hblock] at hstate
      have hdone := @updateWhole_absorbed core correct
        ⟨poly1305Blocks core ctx.state (ctx.data ++ input.take (16 - ctx.data.length)) 1,
          ctx.nonce, ctx.data, hroom⟩
        r _ _ hstate hnext (input.drop (16 - ctx.data.length))
      rw [List.append_assoc, List.take_append_drop] at hdone
      rw [← hnonce]
      exact hdone
  · have hempty : ctx.data = [] := List.length_eq_zero_iff.mp (by omega)
    rw [hempty] at habs
    rw [if_neg hnum, ← hnonce]
    exact updateWhole_absorbed correct hholds habs input

theorem foldl_poly1305Update_absorbed (h : ctx.Absorbed correct r s m) (chunks : List Bytes) :
    (chunks.foldl poly1305Update ctx).Absorbed correct r s (m ++ chunks.flatten) := by
  induction chunks generalizing ctx m with
  | nil =>
    rw [List.flatten_nil, List.append_nil]
    exact h
  | cons input chunks ih =>
    rw [List.foldl_cons, List.flatten_cons, ← List.append_assoc]
    exact ih (poly1305Update_absorbed correct h input)

theorem foldl_absorb_lt (hacc : acc < p) (ps : List Bytes) : ps.foldl (absorb r) acc < p := by
  induction ps generalizing acc with
  | nil => exact hacc
  | cons q ps ih => exact ih (Nat.mod_lt _ (by decide))

theorem poly1305Final_eq (h : ctx.Absorbed correct r s m) :
    poly1305Final ctx = le 16 (((pieces 16 m).foldl (absorb r) 0 + s) % 2 ^ 128) := by
  obtain ⟨⟨acc, hholds, habs⟩, hnonce⟩ := h
  have hroom := ctx.room
  have hsum := habs.pieces (by omega) hroom
  have hlt : (pieces 16 m).foldl (absorb r) 0 < p := foldl_absorb_lt (by decide) _
  rw [poly1305Final, ← hnonce]
  by_cases hnum : 0 < ctx.data.length
  · -- the last block is not full
    have hne : ctx.data ≠ [] := List.length_pos_iff.mp hnum
    have hlen : (ctx.data ++ 1 :: List.replicate (15 - ctx.data.length) (0 : U8)).length = 16 := by
      rw [List.length_append, List.length_cons, List.length_replicate]
      omega
    have hlast := @correct.block ctx.state r acc _ 0 hholds hlen (by decide)
    rw [show (0 : U32).toNat = 0 from rfl, Nat.mul_zero, Nat.add_zero, leValue_padded] at hlast
    rw [if_neg hne] at hsum
    rw [if_pos hnum, poly1305Blocks, blocks_single (by omega) hlen, List.foldl_cons, List.foldl_nil,
      correct.emit hlast, hsum, absorb, Nat.mod_mod]
  · have hempty : ctx.data = [] := List.length_eq_zero_iff.mp (by omega)
    rw [if_pos hempty] at hsum
    rw [if_neg hnum, correct.emit hholds, ← hsum, Nat.mod_eq_of_lt hlt]

end Refinement

/-- With a correct core, the tag of a message in pieces is the specified one. -/
theorem poly1305_eq (correct : core.Correct) {key : Bytes} (hkey : key.length = 32)
    (chunks : List Bytes) :
    poly1305Final (chunks.foldl poly1305Update (poly1305Init core key)) =
      rfcPoly1305 key chunks.flatten :=
  poly1305Final_eq correct
    (foldl_poly1305Update_absorbed correct (poly1305Init_absorbed correct hkey) chunks)

end AmneziaWg.Zinc
