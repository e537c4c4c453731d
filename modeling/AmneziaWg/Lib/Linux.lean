import Mathlib.Data.Nat.Notation
import Mathlib.Algebra.Order.Ring.Int

/-!
# C and kernel library functions

What a kernel C program takes from outside itself, with the documented
behaviour of each function:

* fixed-width words, `int` arithmetic that wraps at 32 bits, error numbers;
* C strings as byte lists (the terminator is the end of the list), `strsep`,
  the `kstrto*` number parsers;
* `Routine`: a function that may fail and that draws on the allocator. The
  allocator decides every request; it never grants 2 GiB or more, so that a
  negative `int` passed as a size is never granted.
-/

namespace Linux

/-! ## Words -/

abbrev U8 := BitVec 8
abbrev U16 := BitVec 16
abbrev U32 := BitVec 32
abbrev U64 := BitVec 64

/-- A byte string: a C buffer, or a C string without its terminator. -/
abbrev Bytes := List U8

/-- A C `int` addition or conversion: the result wraps at 32 bits. -/
def wrapInt (x : ℤ) : ℤ := Int.bmod x (2 ^ 32)

/-- An `int` passed as a `size_t`: negative values become huge. -/
def sizeOfInt (x : ℤ) : ℕ := (x % 2 ^ 64).toNat

/-- The errors that kernel functions return (as negative numbers in C). -/
inductive Errno where
  | EINVAL
  | ENOMEM
  | ERANGE
  | EPERM
  | EMSGSIZE
deriving DecidableEq, Repr

variable {x : ℤ}

theorem wrapInt_of_range (hlo : -2 ^ 31 ≤ x) (hhi : x < 2 ^ 31) : wrapInt x = x := by
  rw [wrapInt, Int.bmod_def]
  split <;> omega

theorem wrapInt_range (x : ℤ) : -2 ^ 31 ≤ wrapInt x ∧ wrapInt x < 2 ^ 31 := by
  rw [wrapInt, Int.bmod_def]
  split <;> omega

theorem sizeOfInt_of_nonneg (hlo : 0 ≤ x) (hhi : x < 2 ^ 31) : sizeOfInt x = x.toNat := by
  rw [sizeOfInt, Int.emod_eq_of_lt hlo (by omega)]

theorem sizeOfInt_of_neg (hlo : -2 ^ 31 ≤ x) (hhi : x < 0) : 2 ^ 31 ≤ sizeOfInt x := by
  rw [sizeOfInt]
  omega

/-! ## C strings -/

/-- The byte of an ASCII character. -/
def chr (c : Char) : U8 := BitVec.ofNat 8 c.toNat

/-- The bytes of an ASCII string. -/
def ascii (s : String) : Bytes := s.toList.map chr

/-- `cpu_to_le32` in memory. -/
def le32 (v : U32) : Bytes :=
  [v.setWidth 8, (v >>> 8).setWidth 8, (v >>> 16).setWidth 8, (v >>> 24).setWidth 8]

/-- `cpu_to_le64` in memory. -/
def le64 (v : U64) : Bytes := le32 (v.setWidth 32) ++ le32 ((v >>> 32).setWidth 32)

/-- `le32_to_cpu` of the first four bytes. -/
def readLe32 (b : Bytes) : U32 :=
  BitVec.ofNat 32 ((b.getD 0 0).toNat + 2 ^ 8 * (b.getD 1 0).toNat + 2 ^ 16 * (b.getD 2 0).toNat +
    2 ^ 24 * (b.getD 3 0).toNat)

/-- Reading back what was stored. -/
theorem readLe32_le32 (v : U32) (rest : Bytes) : readLe32 (le32 v ++ rest) = v := by
  have hv := v.isLt
  apply BitVec.eq_of_toNat_eq
  show (BitVec.ofNat 32 ((v.setWidth 8).toNat + 2 ^ 8 * ((v >>> 8).setWidth 8).toNat +
    2 ^ 16 * ((v >>> 16).setWidth 8).toNat + 2 ^ 24 * ((v >>> 24).setWidth 8).toNat)).toNat = v.toNat
  simp only [BitVec.toNat_ofNat, BitVec.toNat_setWidth, BitVec.toNat_ushiftRight,
    Nat.shiftRight_eq_div_pow]
  -- peel one byte after the other
  have h₂ : v.toNat / 2 ^ 16 = v.toNat / 2 ^ 8 / 2 ^ 8 := by
    rw [Nat.div_div_eq_div_mul, ← Nat.pow_add]
  have h₃ : v.toNat / 2 ^ 24 = v.toNat / 2 ^ 8 / 2 ^ 8 / 2 ^ 8 := by
    rw [Nat.div_div_eq_div_mul, Nat.div_div_eq_div_mul, ← Nat.pow_add, ← Nat.pow_add]
  rw [h₂, h₃]
  generalize hb : v.toNat / 2 ^ 8 = b
  generalize hc : b / 2 ^ 8 = c
  omega

/-- `le64_to_cpu` of the first eight bytes. -/
def readLe64 (b : Bytes) : U64 := readLe32 (b.drop 4) ++ readLe32 b

theorem readLe64_le64 (v : U64) (rest : Bytes) : readLe64 (le64 v ++ rest) = v := by
  have hlow : readLe32 (le64 v ++ rest) = v.setWidth 32 := by
    rw [le64, List.append_assoc]
    exact readLe32_le32 _ _
  have hhigh : readLe32 ((le64 v ++ rest).drop 4) = (v >>> 32).setWidth 32 :=
    readLe32_le32 _ rest
  rw [readLe64, hlow, hhigh]
  ext i hi
  simp only [BitVec.getElem_append, BitVec.getElem_setWidth, BitVec.getLsbD_ushiftRight]
  split
  · exact BitVec.getLsbD_eq_getElem hi
  · rw [Nat.add_sub_cancel' (by omega)]
    exact BitVec.getLsbD_eq_getElem hi

/-- `ntohs` of the two bytes at an offset. -/
def readBe16 (b : Bytes) (off : ℕ) : ℕ := 2 ^ 8 * (b.getD off 0).toNat + (b.getD (off + 1) 0).toNat

/-- `memcmp` of two buffers of one length. -/
def memcmp : Bytes → Bytes → Ordering
  | a :: as, b :: bs => if a < b then .lt else if b < a then .gt else memcmp as bs
  | _, _ => .eq

/-- The number that a buffer denotes, the first byte being the highest. -/
def beValue : Bytes → ℕ
  | [] => 0
  | b :: bs => b.toNat * 256 ^ bs.length + beValue bs

theorem beValue_lt (b : Bytes) : beValue b < 256 ^ b.length := by
  induction b with
  | nil => simp [beValue]
  | cons b bs ih =>
    have hb := b.isLt
    rw [beValue, List.length_cons, Nat.pow_succ]
    calc b.toNat * 256 ^ bs.length + beValue bs
        < b.toNat * 256 ^ bs.length + 256 ^ bs.length := Nat.add_lt_add_left ih _
      _ = (b.toNat + 1) * 256 ^ bs.length := (Nat.succ_mul ..).symm
      _ ≤ 256 * 256 ^ bs.length := Nat.mul_le_mul_right _ hb
      _ = 256 ^ bs.length * 256 := Nat.mul_comm ..

/-- `memcmp` compares buffers of one length as numbers. -/
theorem memcmp_eq_compare {a b : Bytes} (h : a.length = b.length) :
    memcmp a b = compare (beValue a) (beValue b) := by
  induction a generalizing b with
  | nil =>
    rw [List.length_eq_zero_iff.mp h.symm]
    rfl
  | cons x xs ih =>
    cases b with
    | nil => cases h
    | cons y ys =>
      have hlen : xs.length = ys.length := Nat.succ.inj h
      have hxs := beValue_lt xs
      have hys := beValue_lt ys
      rw [hlen] at hxs
      -- a higher first byte outweighs all that follows
      have hlead : ∀ {u v : U8} {m n : ℕ}, u < v → m < 256 ^ ys.length →
          u.toNat * 256 ^ ys.length + m < v.toNat * 256 ^ ys.length + n := by
        intro u v m n huv hm
        have hstep : (u.toNat + 1) * 256 ^ ys.length ≤ v.toNat * 256 ^ ys.length :=
          Nat.mul_le_mul_right _ huv
        rw [Nat.succ_mul] at hstep
        omega
      rw [memcmp, beValue, beValue, hlen]
      by_cases hlt : x < y
      · rw [if_pos hlt, Nat.compare_eq_lt.mpr (hlead hlt hxs)]
      · rw [if_neg hlt]
        by_cases hgt : y < x
        · rw [if_pos hgt, Nat.compare_eq_gt.mpr (hlead hgt hys)]
        · have hxy : x = y := BitVec.le_antisymm (BitVec.not_lt.mp hgt) (BitVec.not_lt.mp hlt)
          rw [if_neg hgt, ih hlen, hxy, Nat.compare_eq_ite_lt, Nat.compare_eq_ite_lt]
          simp only [Nat.add_lt_add_iff_left]

/-- `strsep(&s, d)` with one delimiter: the token (`NULL` as `none`) and the new `s`. -/
def strsep (delim : U8) : Option Bytes → Option Bytes × Option Bytes
  | none => (none, none)
  | some s =>
    match s.dropWhile (· ≠ delim) with
    | [] => (some (s.takeWhile (· ≠ delim)), none)
    | _ :: rest => (some (s.takeWhile (· ≠ delim)), some rest)

/-- The digit that `_parse_integer` reads from a byte, if it is below the base. -/
def digit (base : ℕ) (c : U8) : Option ℕ :=
  let lc := c ||| 0x20
  let val : Option ℕ :=
    if chr '0' ≤ c ∧ c ≤ chr '9' then some (c.toNat - (chr '0').toNat)
    else if chr 'a' ≤ lc ∧ lc ≤ chr 'f' then some (lc.toNat - (chr 'a').toNat + 10)
    else none
  val.filter (· < base)

/-- The leading digits of a string and what follows them. -/
def parseInteger (base : ℕ) : Bytes → List ℕ × Bytes
  | [] => ([], [])
  | c :: s =>
    match digit base c with
    | some v => (v :: (parseInteger base s).1, (parseInteger base s).2)
    | none => ([], c :: s)

/-- The number that a digit list denotes. -/
def digitsValue (base : ℕ) (ds : List ℕ) : ℕ := ds.foldl (fun acc d => acc * base + d) 0

/-- `_parse_integer_fixup_radix`: base 16 skips a `0x` in front. -/
def fixupRadix (base : ℕ) (s : Bytes) : Bytes :=
  match base, s with
  | 16, z :: x :: rest => if z = chr '0' ∧ x ||| 0x20 = chr 'x' then rest else s
  | _, _ => s

/-- `_kstrtoull`: digits, then at most one newline, then the end of the string. -/
def kstrtoullNoSign (base : ℕ) (s : Bytes) : Except Errno ℕ :=
  let (ds, rest) := parseInteger base (fixupRadix base s)
  if digitsValue base ds > 2 ^ 64 - 1 then .error .ERANGE
  else if ds.isEmpty then .error .EINVAL
  else if rest = [] ∨ rest = [chr '\n'] then .ok (digitsValue base ds)
  else .error .EINVAL

/-- `kstrtoull`: an optional plus sign in front. -/
def kstrtoull (base : ℕ) (s : Bytes) : Except Errno ℕ :=
  match s with
  | c :: rest => if c = chr '+' then kstrtoullNoSign base rest else kstrtoullNoSign base s
  | [] => kstrtoullNoSign base []

/-- `kstrtoll`: an optional sign in front, the value in 64 signed bits. -/
def kstrtoll (base : ℕ) (s : Bytes) : Except Errno ℤ :=
  match s with
  | c :: rest =>
    if c = chr '-' then do
      let tmp ← kstrtoullNoSign base rest
      if tmp > 2 ^ 63 then .error .ERANGE else .ok (-(tmp : ℤ))
    else do
      let tmp ← kstrtoull base s
      if tmp ≥ 2 ^ 63 then .error .ERANGE else .ok (tmp : ℤ)
  | [] => .error .EINVAL

/-- `kstrtoint`: the value in 32 signed bits. -/
def kstrtoint (base : ℕ) (s : Bytes) : Except Errno ℤ := do
  let tmp ← kstrtoll base s
  if tmp < -2 ^ 31 ∨ tmp ≥ 2 ^ 31 then .error .ERANGE else .ok tmp

/-- `kstrtouint`: the value in 32 unsigned bits. -/
def kstrtouint (base : ℕ) (s : Bytes) : Except Errno U32 := do
  let tmp ← kstrtoull base s
  if tmp ≥ 2 ^ 32 then .error .ERANGE else .ok (BitVec.ofNat 32 tmp)

/-- `kstrtou8`: the value in 8 unsigned bits. -/
def kstrtou8 (base : ℕ) (s : Bytes) : Except Errno U8 := do
  let tmp ← kstrtoull base s
  if tmp ≥ 2 ^ 8 then .error .ERANGE else .ok (BitVec.ofNat 8 tmp)

theorem kstrtoint_range {base : ℕ} {s : Bytes} {v : ℤ} (h : kstrtoint base s = .ok v) :
    -2 ^ 31 ≤ v ∧ v < 2 ^ 31 := by
  unfold kstrtoint at h
  cases hll : kstrtoll base s with
  | error e => simp [hll, bind, Except.bind] at h
  | ok tmp =>
    simp only [hll, bind, Except.bind] at h
    split at h
    · cases h
    · cases h
      omega

/-! ## The allocator -/

/-- The allocator: whether the `i`-th request, for `n` bytes, is granted. -/
structure Kmalloc where
  grants : ℕ → ℕ → Bool
  bounded : ∀ i n, grants i n = true → n < 2 ^ 31

/-- The allocator that grants every request it can. -/
def Kmalloc.generous : Kmalloc where
  grants := fun _ n => decide (n < 2 ^ 31)
  bounded := fun _ _ h => of_decide_eq_true h

/-- A routine that only fails forward: the sizes it requests, and what it returns
if they are all granted. The first refused request ends it with `-ENOMEM`. -/
structure Routine (α : Type) where
  requests : List ℕ
  result : Except Errno α

namespace Routine

variable {α β : Type}

def fail (e : Errno) : Routine α := ⟨[], .error e⟩

instance : Monad Routine where
  pure a := ⟨[], .ok a⟩
  bind x f :=
    match x.result with
    | .ok a => ⟨x.requests ++ (f a).requests, (f a).result⟩
    | .error e => ⟨x.requests, .error e⟩

/-- Request `n` bytes. -/
def kmalloc (n : ℕ) : Routine Unit := ⟨[n], .ok ()⟩

/-- A pure result as a routine. -/
def ofExcept (x : Except Errno α) : Routine α := ⟨[], x⟩

/-- Ask for the sizes in turn, from request number `i`: were all granted, and the
number of the next request. -/
def grantAll (mem : Kmalloc) : ℕ → List ℕ → Bool × ℕ
  | i, [] => (true, i)
  | i, n :: ns => if mem.grants i n then grantAll mem (i + 1) ns else (false, i + 1)

/-- Run a routine on an allocator that has answered `i` requests so far. -/
def run (x : Routine α) (mem : Kmalloc) (i : ℕ) : Except Errno α × ℕ :=
  match grantAll mem i x.requests with
  | (true, j) => (x.result, j)
  | (false, j) => (.error .ENOMEM, j)

/-- All requests of the routine satisfy `P`. -/
def Requests (x : Routine α) (P : ℕ → Prop) : Prop := ∀ n ∈ x.requests, P n

/-- All requests are within what `kmalloc` can ever grant. -/
def Grantable (x : Routine α) : Prop := x.Requests (· < 2 ^ 31)

/-- If the requests can be granted, every value returned satisfies `P`. -/
def Ensures (x : Routine α) (P : α → Prop) : Prop := x.Grantable → ∀ a, x.result = .ok a → P a

/-! ### Running -/

variable {mem : Kmalloc} {i j : ℕ}

theorem grantAll_bounded {ns : List ℕ} (h : grantAll mem i ns = (true, j)) :
    ∀ n ∈ ns, n < 2 ^ 31 := by
  induction ns generalizing i with
  | nil => simp
  | cons m ns ih =>
    rw [grantAll] at h
    split at h
    · next hm =>
      intro n hn
      rcases List.mem_cons.mp hn with rfl | hn
      · exact mem.bounded _ _ hm
      · exact ih h n hn
    · cases h

theorem grantAll_generous {ns : List ℕ} (h : ∀ n ∈ ns, n < 2 ^ 31) (i : ℕ) :
    grantAll .generous i ns = (true, i + ns.length) := by
  induction ns generalizing i with
  | nil => rfl
  | cons m ns ih =>
    have hm : Kmalloc.generous.grants i m = true :=
      decide_eq_true (h m (List.mem_cons_self ..))
    rw [grantAll, if_pos hm, ih (fun n hn => h n (List.mem_cons_of_mem m hn)), List.length_cons]
    congr 1
    omega

variable {x : Routine α} {a : α}

/-- A run that returns a value returns the routine's, and was granted everything. -/
theorem run_ok (h : x.run mem i = (.ok a, j)) : x.Grantable ∧ x.result = .ok a := by
  unfold run at h
  split at h
  · next hgrant =>
    cases hx : x.result <;> rw [hx] at h <;> cases h
    exact ⟨grantAll_bounded hgrant, rfl⟩
  · cases h

theorem run_generous (h : x.Grantable) (i : ℕ) :
    x.run .generous i = (x.result, i + x.requests.length) := by
  rw [run, grantAll_generous h]

variable {P : α → Prop}

theorem Ensures.run (h : x.Ensures P) (hrun : x.run mem i = (.ok a, j)) : P a := by
  obtain ⟨hgrant, hres⟩ := run_ok hrun
  exact h hgrant a hres

/-! ### Rules -/

variable {f : α → Routine β}

theorem bind_error {e : Errno} (h : x.result = .error e) : x >>= f = ⟨x.requests, .error e⟩ := by
  dsimp only [bind]
  rw [h]

theorem bind_of_ok (h : x.result = .ok a) :
    x >>= f = ⟨x.requests ++ (f a).requests, (f a).result⟩ := by
  dsimp only [bind]
  rw [h]

/-- In sequence, the second routine may use what the first ensures. -/
theorem Ensures.bind {Q : β → Prop} (hx : x.Ensures P) (hf : ∀ a, P a → (f a).Ensures Q) :
    (x >>= f).Ensures Q := by
  intro hgrant b hb
  cases hres : x.result with
  | error e =>
    rw [bind_error hres] at hb
    cases hb
  | ok a =>
    rw [Grantable, Requests, bind_of_ok hres] at hgrant
    rw [bind_of_ok hres] at hb
    have ha : P a := hx (fun n hn => hgrant n (List.mem_append_left _ hn)) a hres
    exact hf a ha (fun n hn => hgrant n (List.mem_append_right _ hn)) b hb

theorem Ensures.fail {e : Errno} : (Routine.fail e : Routine α).Ensures P := by
  intro _ a h
  cases h

theorem Ensures.pure (h : P a) : (Pure.pure a : Routine α).Ensures P := by
  intro _ b hb
  cases hb
  exact h

theorem Ensures.kmalloc (n : ℕ) : (Routine.kmalloc n).Ensures fun _ => n < 2 ^ 31 :=
  fun hgrant _ _ => hgrant n (List.mem_singleton.mpr rfl)

theorem Ensures.ofExcept {x : Except Errno α} : (Routine.ofExcept x).Ensures fun a => x = .ok a :=
  fun _ _ h => h

theorem Ensures.ite {c : Prop} [Decidable c] {y : Routine α} (hx : c → x.Ensures P)
    (hy : ¬ c → y.Ensures P) : (if c then x else y).Ensures P := by
  by_cases hc : c
  · rw [if_pos hc]
    exact hx hc
  · rw [if_neg hc]
    exact hy hc

variable {P : ℕ → Prop}

theorem Requests.bind (hx : x.Requests P) (hf : ∀ a, (f a).Requests P) : (x >>= f).Requests P := by
  intro n hn
  cases hres : x.result with
  | error e =>
    rw [bind_error hres] at hn
    exact hx n hn
  | ok a =>
    rw [bind_of_ok hres] at hn
    rcases List.mem_append.mp hn with hn | hn
    · exact hx n hn
    · exact hf a n hn

theorem Requests.nil {e : Except Errno α} : (⟨[], e⟩ : Routine α).Requests P := by
  intro n hn
  cases hn

theorem Requests.kmalloc {n : ℕ} (h : P n) : (Routine.kmalloc n).Requests P := by
  intro m hm
  rw [List.mem_singleton.mp hm]
  exact h

theorem Requests.ite {c : Prop} [Decidable c] {y : Routine α} (hx : c → x.Requests P)
    (hy : ¬ c → y.Requests P) : (if c then x else y).Requests P := by
  by_cases hc : c
  · rw [if_pos hc]
    exact hx hc
  · rw [if_neg hc]
    exact hy hc

end Routine

end Linux
