import AmneziaWg.Lib.Wire
import Mathlib.Data.List.OfFn
import Mathlib.Data.Fintype.Pi

/-!
# Galois/Counter Mode

The mode of operation as its standard defines it, for nonces of 96 bits and over any block
cipher. Blocks are sixteen bytes. For the hash they are read as strings of 128 bits, the
highest bit of the first byte first.

* **Hash**: `mul`, the product of two bit strings in the field; `ghash`.
* **Mode**: `ctr`, `tag`, `decrypt`.
* **Law**: `decrypt_sealed`, what carries its tag decrypts.
-/

namespace Gcm

open Linux Wire

/-! ## Blocks and bits -/

abbrev Block := Fin 16 → U8

instance block_neZero : NeZero 16 := ⟨by decide⟩

/-- A string of 128 bits. -/
abbrev Bits := Fin 128 → Bool

/-- The first sixteen bytes, with zeros for those that are missing. -/
def block (bs : Bytes) : Block := fun j => bs.getD j 0

def bytes (b : Block) : Bytes := List.ofFn b

/-- The byte that holds a bit. -/
theorem div_lt_block (i : Fin 128) : (i : ℕ) / 8 < 16 := by omega

/-- The place of a byte in its block. -/
theorem mod_lt_block (i : ℕ) : i % 16 < 16 := Nat.mod_lt i (by decide)

def bits (b : Block) : Bits := fun i => (b ⟨i / 8, div_lt_block i⟩).getMsbD (i % 8)

theorem bits_injective : Function.Injective bits := by
  intro a b h
  funext j
  apply BitVec.eq_of_getMsbD_eq
  intro k hk
  -- bit `k` of byte `j` is bit `8 * j + k` of the block
  have hj := j.isLt
  have hbit := congrFun h ⟨8 * j + k, by omega⟩
  simp only [bits, show (8 * j.val + k) / 8 = j.val by omega,
    show (8 * j.val + k) % 8 = k by omega] at hbit
  exact hbit

/-- All blocks of a buffer, the last one filled up with zeros. -/
def blocks (bs : Bytes) : List Block :=
  (List.range ((bs.length + 15) / 16)).map fun j => block (bs.drop (16 * j))

@[simp] theorem length_bytes (b : Block) : (bytes b).length = 16 := List.length_ofFn

theorem block_bytes (b : Block) (rest : Bytes) : block (bytes b ++ rest) = b := by
  funext j
  have hj : (j : ℕ) < (List.ofFn b).length := by
    rw [List.length_ofFn]
    exact j.isLt
  rw [block, bytes, List.getD_eq_getElem?_getD, List.getElem?_append_left hj,
    List.getElem?_eq_getElem hj, List.getElem_ofFn]
  rfl

theorem blocks_nil : blocks [] = [] := rfl

/-- The blocks of a long buffer: the first one, and those of the rest. -/
theorem blocks_cons {bs : Bytes} (h : 0 < bs.length) :
    blocks bs = block bs :: blocks (bs.drop 16) := by
  have hcount : (bs.length + 15) / 16 = ((bs.drop 16).length + 15) / 16 + 1 := by
    rw [List.length_drop]
    omega
  rw [blocks, hcount, List.range_succ_eq_map, List.map_cons, List.map_map]
  congr 1
  refine List.map_congr_left fun j _ => ?_
  show block (bs.drop (16 * (j + 1))) = block ((bs.drop 16).drop (16 * j))
  rw [List.drop_drop]
  congr 2
  omega

/-! ## The field -/

def addBits (x y : Bits) : Bits := fun i => x i ^^ y i

/-- `11100001` and 120 zeros. -/
def reduction : Bits := fun i => i = 0 || i = 1 || i = 2 || i = 7

def shiftRight (v : Bits) : Bits := fun i =>
  if i.val = 0 then false else v ⟨i.val - 1, by omega⟩

/-- One step of the multiplication: `z` collects, `v` is multiplied by the variable. -/
def mulStep (bit : Bool) (s : Bits × Bits) : Bits × Bits :=
  (if bit then addBits s.1 s.2 else s.1,
    if s.2 127 then addBits (shiftRight s.2) reduction else shiftRight s.2)

/-- The product in the field. -/
def mul (x y : Bits) : Bits :=
  ((List.finRange 128).foldl (fun s i => mulStep (x i) s) (fun _ => false, y)).1

/-- The hash of a list of blocks, from a state on. -/
def ghash (h : Bits) (state : Bits) (bs : List Block) : Bits :=
  bs.foldl (fun y b => mul (addBits y (bits b)) h) state

theorem ghash_append (h state : Bits) (bs bs' : List Block) :
    ghash h state (bs ++ bs') = ghash h (ghash h state bs) bs' := List.foldl_append

/-! ## The mode -/

section Mode

variable (cipher : Block → Block) (nonce aad : Bytes)

/-- The nonce and a counter of 32 bits. -/
def counterBlock (n : ℕ) : Block := block (nonce ++ be 4 n)

/-- Byte `i` of the key stream. -/
def keystream (i : ℕ) : U8 :=
  cipher (counterBlock nonce (2 + i / 16)) ⟨i % 16, mod_lt_block i⟩

/-- Encryption and decryption. -/
def ctr (bs : Bytes) : Bytes := bs.mapIdx fun i b => b ^^^ keystream cipher nonce i

/-- The tag of associated data and ciphertext. -/
def tag (ciphertext : Bytes) : Bits :=
  addBits
    (ghash (bits (cipher fun _ => 0)) (fun _ => false)
      (blocks aad ++ blocks ciphertext ++
        [block (be 8 (8 * aad.length) ++ be 8 (8 * ciphertext.length))]))
    (bits (cipher (counterBlock nonce 1)))

/-- The plaintext of what ends with its tag. -/
def decrypt (message : Bytes) : Option Bytes :=
  let ciphertext := message.take (message.length - 16)
  if 16 ≤ message.length ∧
      bits (block (message.drop (message.length - 16))) = tag cipher nonce aad ciphertext then
    some (ctr cipher nonce ciphertext)
  else none

@[simp] theorem length_ctr (bs : Bytes) : (ctr cipher nonce bs).length = bs.length :=
  List.length_mapIdx

theorem ctr_ctr (bs : Bytes) : ctr cipher nonce (ctr cipher nonce bs) = bs := by
  apply List.ext_getElem?
  intro i
  rw [ctr, ctr, List.getElem?_mapIdx, List.getElem?_mapIdx, Option.map_map]
  cases bs[i]? with
  | none => rfl
  | some b =>
    rw [Option.map_some, Function.comp_apply, BitVec.xor_assoc, BitVec.xor_self, BitVec.xor_zero]

/-- What carries its tag decrypts. -/
theorem decrypt_sealed {t : Block} {plaintext : Bytes}
    (h : bits t = tag cipher nonce aad (ctr cipher nonce plaintext)) :
    decrypt cipher nonce aad (ctr cipher nonce plaintext ++ bytes t) = some plaintext := by
  have hlength : (ctr cipher nonce plaintext ++ bytes t).length - 16 =
      (ctr cipher nonce plaintext).length := by
    rw [List.length_append, length_bytes]
    omega
  have hblock : block (bytes t) = t := by
    have := block_bytes t []
    rwa [List.append_nil] at this
  rw [decrypt, hlength, List.take_left, List.drop_left, hblock, if_pos]
  · rw [ctr_ctr]
  · refine ⟨?_, h⟩
    rw [List.length_append, length_bytes]
    omega

end Mode

end Gcm
