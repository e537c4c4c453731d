import AmneziaWg.Lib.Linux

/-!
# Wire formats

Readers take a value from the front of a buffer and say what is left. For each of them
there is a writer, and a reader reads back what its writer wrote, whatever follows:
numbers in network order, vectors behind their length, integers of variable length, and
lists of such items that fill a buffer.
-/

namespace Wire

open Linux

/-! ## Numbers -/

/-- `n` in `k` bytes, the highest first. -/
def be : ℕ → ℕ → Bytes
  | 0, _ => []
  | k + 1, n => BitVec.ofNat 8 (n / 256 ^ k) :: be k n

@[simp] theorem length_be (k n : ℕ) : (be k n).length = k := by
  induction k with
  | zero => rfl
  | succ k ih => simp [be, ih]

theorem beValue_be (k n : ℕ) : beValue (be k n) = n % 256 ^ k := by
  induction k with
  | zero => simp [be, beValue, Nat.mod_one]
  | succ k ih =>
    have hsplit : n % 256 ^ (k + 1) = n % 256 ^ k + 256 ^ k * (n / 256 ^ k % 256) := by
      rw [Nat.pow_succ, Nat.mod_mul]
    rw [be, beValue, length_be, ih, BitVec.toNat_ofNat, hsplit, Nat.mul_comm, Nat.add_comm]

/-- What lies above the bytes is cut off. -/
theorem be_add_mul (k n m : ℕ) : be k (n + m * 256 ^ k) = be k n := by
  induction k generalizing m with
  | zero => rfl
  | succ k ih =>
    have hpos : 0 < 256 ^ k := Nat.pow_pos (by omega)
    have hsplit : m * 256 ^ (k + 1) = m * 256 * 256 ^ k := by
      rw [Nat.pow_succ, Nat.mul_assoc, Nat.mul_comm 256]
    have hfirst : BitVec.ofNat 8 (n / 256 ^ k + m * 256) = BitVec.ofNat 8 (n / 256 ^ k) := by
      apply BitVec.eq_of_toNat_eq
      rw [BitVec.toNat_ofNat, BitVec.toNat_ofNat]
      omega
    rw [be, be, hsplit, Nat.add_mul_div_right _ _ hpos, hfirst, ih]

/-- Bytes are the bytes of their number. -/
theorem be_beValue (bs : Bytes) : be bs.length (beValue bs) = bs := by
  induction bs with
  | nil => rfl
  | cons b bs ih =>
    have hpos : 0 < 256 ^ bs.length := Nat.pow_pos (by omega)
    rw [List.length_cons, be, beValue, Nat.add_comm, Nat.add_mul_div_right _ _ hpos,
      Nat.div_eq_of_lt (beValue_lt bs), Nat.zero_add, be_add_mul, ih, BitVec.ofNat_toNat,
      BitVec.setWidth_eq]

/-- The next `n` bytes. -/
def takeBytes (n : ℕ) (bs : Bytes) : Option (Bytes × Bytes) :=
  if n ≤ bs.length then some (bs.take n, bs.drop n) else none

theorem takeBytes_append (xs rest : Bytes) : takeBytes xs.length (xs ++ rest) = some (xs, rest) := by
  simp [takeBytes]

/-- A number of `k` bytes. -/
def number (k : ℕ) (bs : Bytes) : Option (ℕ × Bytes) :=
  (takeBytes k bs).map fun (xs, rest) => (beValue xs, rest)

variable {k : ℕ}

theorem number_be {n : ℕ} (h : n < 256 ^ k) (rest : Bytes) :
    number k (be k n ++ rest) = some (n, rest) := by
  have htake := takeBytes_append (be k n) rest
  rw [length_be] at htake
  have hvalue : beValue (be k n) = n := by rw [beValue_be, Nat.mod_eq_of_lt h]
  rw [number, htake, Option.map_some]
  exact congrArg (fun x => some (x, rest)) hvalue

/-- A reader goes on with what the one before it has read. -/
theorem bind_of_eq {α β : Type} {x : Option α} {a : α} (h : x = some a) (f : α → Option β) :
    (x >>= f) = f a := by
  rw [h]
  rfl

theorem guard_of {p : Prop} [Decidable p] (h : p) : (guard p : Option Unit) = some () := if_pos h

/-! ## Vectors -/

/-- Bytes behind their length, which has `k` bytes. -/
def putVec (k : ℕ) (body : Bytes) : Bytes := be k body.length ++ body

def vec (k : ℕ) (bs : Bytes) : Option (Bytes × Bytes) :=
  (number k bs).bind fun (n, rest) => takeBytes n rest

variable {body : Bytes}

theorem vec_putVec (h : body.length < 256 ^ k) (rest : Bytes) :
    vec k (putVec k body ++ rest) = some (body, rest) := by
  rw [vec, putVec, List.append_assoc, number_be h]
  exact takeBytes_append body rest

@[simp] theorem length_putVec (k : ℕ) (body : Bytes) :
    (putVec k body).length = k + body.length := by
  simp [putVec]

/-- A reader that must leave nothing. -/
def exactly {α : Type*} (read : Bytes → Option (α × Bytes)) (bs : Bytes) : Option α :=
  match read bs with
  | some (a, []) => some a
  | _ => none

theorem exactly_vec_putVec (h : body.length < 256 ^ k) :
    exactly (vec k) (putVec k body) = some body := by
  have hread := vec_putVec h []
  rw [List.append_nil] at hread
  rw [exactly, hread]

/-! ## Integers of variable length -/

/-- The two highest bits of the first byte say how many bytes there are: one, two, four or
eight. The others are the number. -/
def varint (bs : Bytes) : Option (ℕ × Bytes) :=
  match bs with
  | [] => none
  | b :: _ =>
    let k := 2 ^ (b.toNat / 64)
    (takeBytes k bs).map fun (xs, rest) => (beValue xs % 2 ^ (8 * k - 2), rest)

/-- The marker of the width lies above the bits of the number. -/
theorem marker_or {a x : ℕ} (hx : x < 64) : (64 * a) ||| x = 64 * a + x :=
  (Nat.two_pow_add_eq_or_of_lt (i := 6) hx a).symm

variable {v : ℕ}

/-- The marker stands in the first byte only. -/
theorem be_marked {m w : ℕ} (hw : 2 ^ w = 256 ^ k * 64) (hv : v < 2 ^ w) :
    be (k + 1) (m * 2 ^ w + v) = BitVec.ofNat 8 ((64 * m) ||| (v / 256 ^ k)) :: be k v := by
  rw [hw] at hv ⊢
  have hpos : 0 < 256 ^ k := Nat.pow_pos (by decide)
  have htop : v / 256 ^ k < 64 := Nat.div_lt_of_lt_mul hv
  have hsplit : m * (256 ^ k * 64) + v = v + 64 * m * 256 ^ k := by
    rw [Nat.add_comm, Nat.mul_comm (256 ^ k), ← Nat.mul_assoc, Nat.mul_comm m]
  rw [hsplit, be, be_add_mul, Nat.add_mul_div_right _ _ hpos, marker_or htop, Nat.add_comm]

/-- A number below `2 ^ w`, in `k + 1 = 2 ^ m` bytes with `m` in the two highest bits. -/
theorem varint_be {m w : ℕ} (hm : m < 4) (hk : k + 1 = 2 ^ m) (hw : 2 ^ w = 256 ^ k * 64)
    (hv : v < 2 ^ w) (rest : Bytes) :
    varint (be (k + 1) (m * 2 ^ w + v) ++ rest) = some (v, rest) := by
  have hexp : w = 8 * (k + 1) - 2 := by
    have hpow : 2 ^ w = 2 ^ (8 * k + 6) := by
      rw [hw, Nat.pow_add, Nat.pow_mul]
    have := Nat.pow_right_injective (Nat.le_refl 2) hpow
    omega
  have hlt : m * 2 ^ w + v < 256 ^ k * 256 :=
    calc m * 2 ^ w + v
        < m * 2 ^ w + 2 ^ w := Nat.add_lt_add_left hv _
      _ = (m + 1) * 2 ^ w := (Nat.succ_mul ..).symm
      _ ≤ 4 * 2 ^ w := Nat.mul_le_mul_right _ hm
      _ = 256 ^ k * 256 := by rw [hw, Nat.mul_comm, Nat.mul_assoc]
  -- the first byte begins with the bits of `m`
  have hfirst : (BitVec.ofNat 8 ((m * 2 ^ w + v) / 256 ^ k)).toNat / 64 = m := by
    rw [BitVec.toNat_ofNat, Nat.mod_eq_of_lt (Nat.div_lt_of_lt_mul hlt), Nat.div_div_eq_div_mul,
      ← hw, Nat.add_comm, Nat.add_mul_div_right _ _ (Nat.two_pow_pos _), Nat.div_eq_of_lt hv,
      Nat.zero_add]
  have hvalue : beValue (be (k + 1) (m * 2 ^ w + v)) % 2 ^ w = v := by
    rw [beValue_be, Nat.pow_succ, Nat.mod_eq_of_lt hlt, Nat.add_comm, Nat.add_mul_mod_self_right,
      Nat.mod_eq_of_lt hv]
  have htake := takeBytes_append (be (k + 1) (m * 2 ^ w + v)) rest
  rw [length_be] at htake
  show (takeBytes (2 ^ ((BitVec.ofNat 8 ((m * 2 ^ w + v) / 256 ^ k)).toNat / 64))
    (be (k + 1) (m * 2 ^ w + v) ++ rest)).map _ = _
  rw [hfirst, ← hk, htake, Option.map_some, ← hexp]
  exact congrArg (fun x => some (x, rest)) hvalue

/-- What the reader takes from the front has one of the four lengths, and the number has the
bits that are left in it. -/
theorem varint_taken {enc rest : Bytes} (h : varint (enc ++ rest) = some (v, rest)) :
    ∃ m < 4, enc.length = 2 ^ m ∧ v < 2 ^ (8 * 2 ^ m - 2) := by
  unfold varint at h
  split at h
  · cases h
  · next b _ _ =>
    have hb := b.isLt
    refine ⟨b.toNat / 64, by omega, ?_⟩
    obtain ⟨⟨xs, rest'⟩, htake, heq⟩ := Option.map_eq_some_iff.mp h
    obtain ⟨hv, rfl⟩ := Prod.mk.inj heq
    unfold takeBytes at htake
    split at htake
    · next hle =>
      have hdrop := congrArg List.length (Prod.mk.inj (Option.some.inj htake)).2
      rw [List.length_drop, List.length_append] at hdrop
      rw [List.length_append] at hle
      refine ⟨by omega, ?_⟩
      rw [← hv]
      exact Nat.mod_lt _ (Nat.two_pow_pos _)
    · cases htake

/-! ## Lists -/

/-- Items until the buffer ends; a bound on their number comes first. -/
def many {α : Type*} (item : Bytes → Option (α × Bytes)) : ℕ → Bytes → Option (List α)
  | _, [] => some []
  | 0, _ :: _ => none
  | n + 1, b :: bs =>
    (item (b :: bs)).bind fun (a, rest) => (many item n rest).map fun as => a :: as

variable {α : Type*}

/-- What is written item by item is read item by item. -/
theorem many_flatMap {item : Bytes → Option (α × Bytes)} {put : α → Bytes} {as : List α} {n : ℕ}
    (hput : ∀ a ∈ as, put a ≠ []) (hitem : ∀ a ∈ as, ∀ rest, item (put a ++ rest) = some (a, rest))
    (hn : as.length ≤ n) : many item n (as.flatMap put) = some as := by
  induction as generalizing n with
  | nil => cases n <;> rfl
  | cons a as ih =>
    obtain ⟨n, rfl⟩ : ∃ m, n = m + 1 := ⟨n - 1, by rw [List.length_cons] at hn; omega⟩
    have hrest := ih (fun b hb => hput b (List.mem_cons_of_mem a hb))
      (fun b hb => hitem b (List.mem_cons_of_mem a hb)) (Nat.le_of_succ_le_succ hn)
    have hread := hitem a (List.mem_cons_self ..) (as.flatMap put)
    rw [List.flatMap_cons]
    cases hbytes : put a ++ as.flatMap put with
    | nil => exact absurd (List.append_eq_nil_iff.mp hbytes).1 (hput a (List.mem_cons_self ..))
    | cons b bs =>
      rw [hbytes] at hread
      rw [many, hread, Option.bind_some]
      show (many item n (as.flatMap put)).map _ = _
      rw [hrest, Option.map_some]

/-- The items that fill a buffer; there are no more of them than bytes. -/
def items {α : Type*} (item : Bytes → Option (α × Bytes)) (bs : Bytes) : Option (List α) :=
  many item bs.length bs

theorem items_flatMap {α : Type*} {item : Bytes → Option (α × Bytes)} {put : α → Bytes}
    {as : List α} (hput : ∀ a ∈ as, put a ≠ [])
    (hitem : ∀ a ∈ as, ∀ rest, item (put a ++ rest) = some (a, rest)) :
    items item (as.flatMap put) = some as := by
  apply many_flatMap hput hitem
  clear hitem
  induction as with
  | nil => exact Nat.zero_le _
  | cons a as ih =>
    have hpos : 0 < (put a).length := List.length_pos_iff.mpr (hput a (List.mem_cons_self ..))
    have hrest := ih fun b hb => hput b (List.mem_cons_of_mem a hb)
    rw [List.flatMap_cons, List.length_append, List.length_cons]
    omega

theorem items_single {item : Bytes → Option (α × Bytes)} {a : α} {bs : Bytes} (hne : bs ≠ [])
    (hitem : ∀ rest, item (bs ++ rest) = some (a, rest)) : items item bs = some [a] := by
  have hread := @items_flatMap _ item (fun _ => bs) [a] (fun _ _ => hne) fun b hb => by
    rw [List.mem_singleton.mp hb]
    exact hitem
  simpa using hread

/-- One reader, then another. -/
def pair {α β : Type*} (read : Bytes → Option (α × Bytes)) (read' : Bytes → Option (β × Bytes))
    (bs : Bytes) : Option ((α × β) × Bytes) :=
  (read bs).bind fun (a, bs) => (read' bs).map fun (b, rest) => ((a, b), rest)

theorem pair_append {β : Type*} {read : Bytes → Option (α × Bytes)}
    {read' : Bytes → Option (β × Bytes)} {xs ys : Bytes} {a : α} {b : β}
    (h : ∀ rest, read (xs ++ rest) = some (a, rest))
    (h' : ∀ rest, read' (ys ++ rest) = some (b, rest)) (rest : Bytes) :
    pair read read' (xs ++ ys ++ rest) = some ((a, b), rest) := by
  rw [pair, List.append_assoc, h, Option.bind_some]
  show (read' (ys ++ rest)).map _ = _
  rw [h', Option.map_some]

/-- A vector that is filled with items, and nothing behind it. -/
def vecOf {α : Type*} (k : ℕ) (item : Bytes → Option (α × Bytes)) (bs : Bytes) :
    Option (List α) :=
  (exactly (vec k) bs).bind (items item)

theorem vecOf_putVec {item : Bytes → Option (α × Bytes)} {as : List α} (h : body.length < 256 ^ k)
    (hitems : items item body = some as) : vecOf k item (putVec k body) = some as := by
  rw [vecOf, exactly_vec_putVec h, Option.bind_some, hitems]

end Wire
