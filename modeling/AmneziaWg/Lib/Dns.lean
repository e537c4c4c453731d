import AmneziaWg.Lib.Wire

/-!
# DNS messages

A header with four counts, then as many questions and records as they say. A name is a
sequence of labels up to the root label or up to a pointer to an earlier name.

* **Readers**: `readName`, `readQuestion`, `readRecord`, `message`; `readOption`, for the
  options in the data of an OPT record.
* **Writers**: one for each, and that it is read back.
-/

namespace Dns

open Linux Wire

structure Name where
  labels : List Bytes
  pointer : Option ℕ
deriving DecidableEq, Repr

structure Question where
  name : Name
  type : ℕ
  klass : ℕ
deriving DecidableEq, Repr

structure Record where
  name : Name
  type : ℕ
  klass : ℕ
  ttl : ℕ
  rdlength : ℕ
  rdata : Bytes
deriving DecidableEq, Repr

/-- The four counts of the header are the lengths of the four sections. -/
structure Message where
  id : ℕ
  flags : ℕ
  questions : List Question
  answers : List Record
  authority : List Record
  additional : List Record
deriving DecidableEq, Repr

/-- An option of EDNS. -/
structure EdnsOption where
  code : ℕ
  length : ℕ
  data : Bytes
deriving DecidableEq, Repr

/-! ## Readers -/

/-- Labels while there is fuel. -/
def readLabels : ℕ → Bytes → Option (Name × Bytes)
  | 0, _ => none
  | n + 1, bs => do
    let (b, bs) ← number 1 bs
    if b = 0 then return (⟨[], none⟩, bs)
    else if b < 64 then
      let (label, bs) ← takeBytes b bs
      let (name, rest) ← readLabels n bs
      return (⟨label :: name.labels, name.pointer⟩, rest)
    else if b < 192 then none
    else
      let (low, rest) ← number 1 bs
      return (⟨[], some ((b - 192) * 256 + low)⟩, rest)

/-- A name has at most 255 bytes, hence at most 127 labels and the root. -/
def readName (bs : Bytes) : Option (Name × Bytes) := readLabels 128 bs

def readQuestion (bs : Bytes) : Option (Question × Bytes) := do
  let (name, bs) ← readName bs
  let (type, bs) ← number 2 bs
  let (klass, rest) ← number 2 bs
  return (⟨name, type, klass⟩, rest)

def readRecord (bs : Bytes) : Option (Record × Bytes) := do
  let (name, bs) ← readName bs
  let (type, bs) ← number 2 bs
  let (klass, bs) ← number 2 bs
  let (ttl, bs) ← number 4 bs
  let (rdlength, bs) ← number 2 bs
  let (rdata, rest) ← takeBytes rdlength bs
  return (⟨name, type, klass, ttl, rdlength, rdata⟩, rest)

def readOption (bs : Bytes) : Option (EdnsOption × Bytes) := do
  let (code, bs) ← number 2 bs
  let (length, bs) ← number 2 bs
  let (data, rest) ← takeBytes length bs
  return (⟨code, length, data⟩, rest)

/-- As many items as a count says. -/
def times {α : Type*} (item : Bytes → Option (α × Bytes)) : ℕ → Bytes → Option (List α × Bytes)
  | 0, bs => some ([], bs)
  | n + 1, bs => do
    let (a, bs) ← item bs
    let (as, rest) ← times item n bs
    return (a :: as, rest)

def message (bs : Bytes) : Option (Message × Bytes) := do
  let (id, bs) ← number 2 bs
  let (flags, bs) ← number 2 bs
  let (qdcount, bs) ← number 2 bs
  let (ancount, bs) ← number 2 bs
  let (nscount, bs) ← number 2 bs
  let (arcount, bs) ← number 2 bs
  let (questions, bs) ← times readQuestion qdcount bs
  let (answers, bs) ← times readRecord ancount bs
  let (authority, bs) ← times readRecord nscount bs
  let (additional, rest) ← times readRecord arcount bs
  return (⟨id, flags, questions, answers, authority, additional⟩, rest)

/-! ## Writers -/

def putLabels (labels : List Bytes) : Bytes := labels.flatMap (putVec 1) ++ be 1 0

def putQuestion (q : Question) : Bytes := putLabels q.name.labels ++ be 2 q.type ++ be 2 q.klass

def putRecord (r : Record) : Bytes :=
  putLabels r.name.labels ++ be 2 r.type ++ be 2 r.klass ++ be 4 r.ttl ++ be 2 r.rdlength ++ r.rdata

def putOption (o : EdnsOption) : Bytes := be 2 o.code ++ be 2 o.length ++ o.data

def putMessage (m : Message) : Bytes :=
  be 2 m.id ++ be 2 m.flags ++ be 2 m.questions.length ++ be 2 m.answers.length ++
    be 2 m.authority.length ++ be 2 m.additional.length ++ m.questions.flatMap putQuestion ++
    m.answers.flatMap putRecord ++ m.authority.flatMap putRecord ++
    m.additional.flatMap putRecord

/-- A name that is written out: no pointer, labels of one to 63 bytes. -/
structure Name.Plain (n : Name) : Prop where
  pointer : n.pointer = none
  few : n.labels.length < 128
  labels : ∀ l ∈ n.labels, l ≠ [] ∧ l.length < 64

structure Question.Fits (q : Question) : Prop where
  name : q.name.Plain
  type : q.type < 256 ^ 2
  klass : q.klass < 256 ^ 2

structure Record.Fits (r : Record) : Prop where
  name : r.name.Plain
  type : r.type < 256 ^ 2
  klass : r.klass < 256 ^ 2
  ttl : r.ttl < 256 ^ 4
  rdlength : r.rdlength < 256 ^ 2
  rdata : r.rdata.length = r.rdlength

structure Message.Fits (m : Message) : Prop where
  id : m.id < 256 ^ 2
  flags : m.flags < 256 ^ 2
  questions : m.questions.length < 256 ^ 2 ∧ ∀ q ∈ m.questions, q.Fits
  answers : m.answers.length < 256 ^ 2 ∧ ∀ r ∈ m.answers, r.Fits
  authority : m.authority.length < 256 ^ 2 ∧ ∀ r ∈ m.authority, r.Fits
  additional : m.additional.length < 256 ^ 2 ∧ ∀ r ∈ m.additional, r.Fits

/-! ## What is written is read back -/

theorem readLabels_put {labels : List Bytes} {n : ℕ} (hn : labels.length < n)
    (h : ∀ l ∈ labels, l ≠ [] ∧ l.length < 64) (rest : Bytes) :
    readLabels n (putLabels labels ++ rest) = some (⟨labels, none⟩, rest) := by
  induction labels generalizing n with
  | nil =>
    obtain ⟨n, rfl⟩ : ∃ m, n = m + 1 := ⟨n - 1, by omega⟩
    have hroot : number 1 (be 1 0 ++ rest) = some (0, rest) := number_be (by omega) rest
    rw [readLabels, putLabels, List.flatMap_nil, List.nil_append, hroot]
    rfl
  | cons l labels ih =>
    rw [List.length_cons] at hn
    obtain ⟨n, rfl⟩ : ∃ m, n = m + 1 := ⟨n - 1, by omega⟩
    rcases h l (List.mem_cons_self ..) with ⟨hne, hshort⟩
    have hpos : l.length ≠ 0 := fun hzero => hne (List.length_eq_zero_iff.mp hzero)
    have hlater := ih (n := n) (by omega) fun l hl => h l (List.mem_cons_of_mem _ hl)
    have hcut : putLabels (l :: labels) ++ rest =
        be 1 l.length ++ (l ++ (putLabels labels ++ rest)) := by
      simp only [putLabels, List.flatMap_cons, putVec, List.append_assoc]
    rw [readLabels, hcut, number_be (by omega)]
    simp only [Option.bind_eq_bind, Option.bind_some, if_neg hpos, if_pos hshort,
      takeBytes_append, hlater]
    rfl

theorem readName_put {name : Name} (h : name.Plain) (rest : Bytes) :
    readName (putLabels name.labels ++ rest) = some (name, rest) := by
  rcases name with ⟨labels, pointer⟩
  have hpointer : pointer = none := h.pointer
  rw [hpointer]
  exact readLabels_put h.few h.labels rest

theorem readQuestion_put {q : Question} (h : q.Fits) (rest : Bytes) :
    readQuestion (putQuestion q ++ rest) = some (q, rest) := by
  simp only [readQuestion, putQuestion, List.append_assoc, readName_put h.name, number_be h.type,
    number_be h.klass, Option.bind_eq_bind, Option.bind_some]
  rfl

theorem readRecord_put {r : Record} (h : r.Fits) (rest : Bytes) :
    readRecord (putRecord r ++ rest) = some (r, rest) := by
  have hdata := takeBytes_append r.rdata rest
  rw [h.rdata] at hdata
  simp only [readRecord, putRecord, List.append_assoc, readName_put h.name, number_be h.type,
    number_be h.klass, number_be h.ttl, number_be h.rdlength, hdata, Option.bind_eq_bind,
    Option.bind_some]
  rfl

theorem readOption_put {o : EdnsOption} (hcode : o.code < 256 ^ 2) (hlength : o.length < 256 ^ 2)
    (hdata : o.data.length = o.length) (rest : Bytes) :
    readOption (putOption o ++ rest) = some (o, rest) := by
  have htake := takeBytes_append o.data rest
  rw [hdata] at htake
  simp only [readOption, putOption, List.append_assoc, number_be hcode, number_be hlength, htake,
    Option.bind_eq_bind, Option.bind_some]
  rfl

theorem times_flatMap {α : Type*} {item : Bytes → Option (α × Bytes)} {put : α → Bytes}
    {as : List α} (h : ∀ a ∈ as, ∀ rest, item (put a ++ rest) = some (a, rest)) (rest : Bytes) :
    times item as.length (as.flatMap put ++ rest) = some (as, rest) := by
  induction as with
  | nil => rfl
  | cons a as ih =>
    have hlater := ih fun b hb => h b (List.mem_cons_of_mem _ hb)
    have hfirst := h a (List.mem_cons_self ..) (as.flatMap put ++ rest)
    rw [List.length_cons, times, List.flatMap_cons, List.append_assoc, hfirst]
    simp only [Option.bind_eq_bind, Option.bind_some, hlater]
    rfl

theorem message_put {m : Message} (h : m.Fits) (rest : Bytes) :
    message (putMessage m ++ rest) = some (m, rest) := by
  have hquestions := times_flatMap fun q hq => readQuestion_put (h.questions.2 q hq)
  have hrecords : ∀ rs : List Record, (∀ r ∈ rs, r.Fits) → ∀ rest,
      times readRecord rs.length (rs.flatMap putRecord ++ rest) = some (rs, rest) :=
    fun rs hrs => times_flatMap fun r hr => readRecord_put (hrs r hr)
  simp only [putMessage, List.append_assoc]
  rw [message]
  -- the header, one number after the other
  refine (bind_of_eq (number_be h.id _) _).trans ?_
  refine (bind_of_eq (number_be h.flags _) _).trans ?_
  refine (bind_of_eq (number_be h.questions.1 _) _).trans ?_
  refine (bind_of_eq (number_be h.answers.1 _) _).trans ?_
  refine (bind_of_eq (number_be h.authority.1 _) _).trans ?_
  refine (bind_of_eq (number_be h.additional.1 _) _).trans ?_
  -- the four sections
  refine (bind_of_eq (hquestions _) _).trans ?_
  refine (bind_of_eq (hrecords _ h.answers.2 _) _).trans ?_
  refine (bind_of_eq (hrecords _ h.authority.2 _) _).trans ?_
  refine (bind_of_eq (hrecords _ h.additional.2 _) _).trans ?_
  rfl

end Dns
