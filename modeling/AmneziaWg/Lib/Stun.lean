import AmneziaWg.Lib.Wire

/-!
# STUN messages

A header of twenty bytes states the length of what follows. That is a sequence of
attributes, each a type, a length and a value, filled up to a multiple of four bytes.

* **Readers**: `readAttribute`, `message`.
* **Writers**: `putAttribute`, `putHeader`; `message_put`, a message is read back with what
  follows it.
-/

namespace Stun

open Linux Wire

structure Attribute where
  type : ℕ
  value : Bytes
deriving DecidableEq, Repr

structure Message where
  type : ℕ
  length : ℕ
  cookie : ℕ
  transaction : Bytes
  attributes : List Attribute
deriving DecidableEq, Repr

/-- The bytes behind a value that is not a multiple of four long. -/
def fill (n : ℕ) : ℕ := (4 - n % 4) % 4

def readAttribute (bs : Bytes) : Option (Attribute × Bytes) := do
  let ((type, value), bs) ← pair (number 2) (vec 2) bs
  let (_, rest) ← takeBytes (fill value.length) bs
  return (⟨type, value⟩, rest)

/-- The two highest bits of the type are zero and the length is a multiple of four. -/
def message (bs : Bytes) : Option (Message × Bytes) := do
  let (type, bs) ← number 2 bs
  let (length, bs) ← number 2 bs
  let (cookie, bs) ← number 4 bs
  let (transaction, bs) ← takeBytes 12 bs
  let (area, rest) ← takeBytes length bs
  let attributes ← items readAttribute area
  if type < 0x4000 ∧ length % 4 = 0 then return (⟨type, length, cookie, transaction, attributes⟩, rest)
  else none

def putAttribute (a : Attribute) : Bytes :=
  be 2 a.type ++ putVec 2 a.value ++ List.replicate (fill a.value.length) 0

def putHeader (type length cookie : ℕ) (transaction : Bytes) : Bytes :=
  be 2 type ++ be 2 length ++ be 4 cookie ++ transaction

theorem length_putHeader (type length cookie : ℕ) {transaction : Bytes}
    (h : transaction.length = 12) : (putHeader type length cookie transaction).length = 20 := by
  rw [putHeader, List.length_append, List.length_append, List.length_append, length_be, length_be,
    length_be, h]

theorem readAttribute_put {a : Attribute} (htype : a.type < 256 ^ 2) (hvalue : a.value.length < 256 ^ 2)
    (rest : Bytes) : readAttribute (putAttribute a ++ rest) = some (a, rest) := by
  have hpair := pair_append (number_be htype) (vec_putVec hvalue)
    (List.replicate (fill a.value.length) 0 ++ rest)
  have hfill := takeBytes_append (List.replicate (fill a.value.length) (0 : U8)) rest
  rw [List.length_replicate] at hfill
  rw [readAttribute, putAttribute, List.append_assoc _ _ rest, hpair]
  simp only [Option.bind_eq_bind, Option.bind_some, hfill]
  rfl

theorem putAttribute_ne_nil (a : Attribute) : putAttribute a ≠ [] := by
  simp [putAttribute, be]

/-- A value that is a multiple of four long needs no filling. -/
theorem length_putAttribute {a : Attribute} (h : a.value.length % 4 = 0) :
    (putAttribute a).length = 4 + a.value.length := by
  have hfill : fill a.value.length = 0 := by rw [fill, h]
  rw [putAttribute, hfill, List.replicate_zero, List.append_nil, List.length_append, length_be,
    length_putVec]
  omega

theorem message_put {type length cookie : ℕ} {transaction : Bytes} {attributes : List Attribute}
    (htype : type < 0x4000) (hcookie : cookie < 256 ^ 4) (htransaction : transaction.length = 12)
    (hattributes : ∀ a ∈ attributes, a.type < 256 ^ 2 ∧ a.value.length < 256 ^ 2)
    (hlength : (attributes.flatMap putAttribute).length = length) (hmax : length < 256 ^ 2)
    (haligned : length % 4 = 0) (rest : Bytes) :
    message (putHeader type length cookie transaction ++ attributes.flatMap putAttribute ++ rest) =
      some (⟨type, length, cookie, transaction, attributes⟩, rest) := by
  have htype' : type < 256 ^ 2 := by omega
  have harea := takeBytes_append (attributes.flatMap putAttribute) rest
  have htxn := takeBytes_append transaction (attributes.flatMap putAttribute ++ rest)
  have hitems : items readAttribute (attributes.flatMap putAttribute) = some attributes := by
    refine items_flatMap (fun a _ => putAttribute_ne_nil a) ?_
    intro a ha rest'
    exact readAttribute_put (hattributes a ha).1 (hattributes a ha).2 rest'
  rw [hlength] at harea
  rw [htransaction] at htxn
  rw [message, putHeader]
  simp only [List.append_assoc, number_be htype', number_be hmax, number_be hcookie, htxn, harea,
    hitems, Option.bind_eq_bind, Option.bind_some, if_pos (And.intro htype haligned)]
  rfl

end Stun
