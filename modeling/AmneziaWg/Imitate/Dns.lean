import AmneziaWg.Imitate.Writers
import AmneziaWg.Lib.Dns

/-!
# The DNS filler is a DNS message

Two writers meet at a padding of 32 bytes: below, the payload is the data of a NULL answer;
from there on, of the only option of an OPT record. Both state lengths that count the whole
datagram, of which they write only the front.

* **Layout**: `writeDnsMsg_null` and `writeDnsMsg_opt`, the datagram is the message of
  `dnsNullMessage` or `dnsOptMessage`.
* **Reading**: a reader of DNS gets to the end of the datagram and finds `DnsParsed`.
-/

namespace AmneziaWg

open Linux Writes Wire

def rootName : Dns.Name := ⟨[], none⟩

/-- Type A, class IN. -/
def rootQuestion : Dns.Question := ⟨rootName, 1, 1⟩

/-- The message whose only record, of type NULL, has `rdata`. -/
def dnsNullMessage (txid : U8 × U8) (rdata : Bytes) : Dns.Message :=
  ⟨beValue [txid.1, txid.2], 0x8180, [rootQuestion], [⟨rootName, 10, 1, 60, rdata.length, rdata⟩],
    [], []⟩

/-- The message whose only record, of type OPT, has one option with `data`. -/
def dnsOptMessage (txid : U8 × U8) (data : Bytes) : Dns.Message :=
  ⟨beValue [txid.1, txid.2], 0x8180, [rootQuestion], [], [],
    [⟨rootName, 41, 1232, 0, data.length + 4, Dns.putOption ⟨0xFDE9, data.length, data⟩⟩]⟩

/-! ## Layout -/

theorem be_txid (txid : U8 × U8) : be 2 (beValue [txid.1, txid.2]) = [txid.1, txid.2] :=
  be_beValue [txid.1, txid.2]

variable {total : ℕ}

/-- Within 16 bits nothing is clamped. -/
theorem be16_clampU16 {n : ℕ} (k : ℕ) (hk : k ≤ total) (hn : total - k = n) (hmax : n ≤ 0xFFFF) :
    be16 (clampU16 ((total : ℤ) - k)) = be 2 n := by
  have hclamp : clampU16 ((total : ℤ) - k) = BitVec.ofNat 16 n := by
    rw [clampU16, if_neg (by omega), if_neg (by omega), show (total : ℤ) - k = (n : ℕ) by omega]
    exact BitVec.ofInt_natCast 16 n
  rw [hclamp, be16_eq, BitVec.toNat_ofNat, Nat.mod_eq_of_lt (by omega)]

/-- A record for the root: what is fixed about it, the length of its data and the data. -/
theorem putRecord_root {type klass ttl : ℕ} {fixed : Bytes}
    (h : be 1 0 ++ be 2 type ++ be 2 klass ++ be 4 ttl = fixed) (rdlength : ℕ) (rdata : Bytes) :
    Dns.putRecord ⟨rootName, type, klass, ttl, rdlength, rdata⟩ =
      fixed ++ be 2 rdlength ++ rdata := by
  simp only [Dns.putRecord, Dns.putLabels, rootName, List.flatMap_nil, List.nil_append, h]

theorem putMessage_root (txid : U8 × U8) (answers additional : List Dns.Record) :
    Dns.putMessage ⟨beValue [txid.1, txid.2], 0x8180, [rootQuestion], answers, [], additional⟩ =
      [txid.1, txid.2, 0x81, 0x80, 0x00, 0x01] ++ be 2 answers.length ++ [0x00, 0x00] ++
        be 2 additional.length ++ [0x00, 0x00, 0x01, 0x00, 0x01] ++
        answers.flatMap Dns.putRecord ++ additional.flatMap Dns.putRecord := by
  have hquestion : Dns.putQuestion rootQuestion = [0x00, 0x00, 0x01, 0x00, 0x01] := by decide
  have hflags : be 2 0x8180 = [0x81, 0x80] := by decide
  have hzero : be 2 0 = [0x00, 0x00] := by decide
  have hone : be 2 1 = [0x00, 0x01] := by decide
  simp only [Dns.putMessage, be_txid, hquestion, hflags, hzero, hone, List.flatMap_cons,
    List.flatMap_nil, List.length_cons, List.length_nil, Nat.zero_add, List.append_nil,
    List.append_assoc, List.cons_append, List.nil_append]

variable {txid : U8 × U8} {rdata : Bytes} {padding : ℕ}

theorem putMessage_null (hpad : 28 ≤ padding) (htotal : total - 28 = rdata.length)
    (hmin : 28 ≤ total) (hmax : total ≤ 65535) :
    Dns.putMessage (dnsNullMessage txid rdata) = dnsNullFixed total padding txid ++ rdata := by
  have hlength : be16 (clampU16 ((total : ℤ) - 28)) = be 2 rdata.length :=
    be16_clampU16 28 hmin htotal (by omega)
  have hquestions : (if padding ≥ 17 then 1 else 0 : U8) = 1 := if_pos (by omega)
  have hanswers : (if padding ≥ 28 then 1 else 0 : U8) = 1 := if_pos hpad
  have hone : be 2 1 = [0x00, 0x01] := by decide
  have hzero : be 2 0 = [0x00, 0x00] := by decide
  have hrecord : be 1 0 ++ be 2 10 ++ be 2 1 ++ be 4 60 =
      [0x00, 0x00, 0x0a, 0x00, 0x01, 0x00, 0x00, 0x00, 0x3c] := by decide
  simp only [dnsNullMessage, putMessage_root, putRecord_root hrecord, dnsNullFixed, hquestions,
    hanswers, hlength, hone, hzero, List.flatMap_cons, List.flatMap_nil, List.length_cons,
    List.length_nil, Nat.zero_add, List.append_nil, List.cons_append, List.nil_append]

theorem putMessage_opt {data : Bytes} (hdata : total - 32 = data.length) (hmin : 32 ≤ total)
    (hmax : total ≤ 65535) :
    Dns.putMessage (dnsOptMessage txid data) =
      [txid.1, txid.2, 0x81, 0x80, 0x00, 0x01, 0x00, 0x00, 0x00, 0x00, 0x00, 0x01,
        0x00, 0x00, 0x01, 0x00, 0x01,
        0x00, 0x00, 0x29, 0x04, 0xd0, 0x00, 0x00, 0x00, 0x00] ++
        be16 (clampU16 ((total : ℤ) - 28)) ++ [0xfd, 0xe9] ++
        be16 (clampU16 ((total : ℤ) - 32)) ++ data := by
  have hrdlength : be16 (clampU16 ((total : ℤ) - 28)) = be 2 (data.length + 4) :=
    be16_clampU16 28 (by omega) (by omega) (by omega)
  have hlength : be16 (clampU16 ((total : ℤ) - 32)) = be 2 data.length :=
    be16_clampU16 32 hmin hdata (by omega)
  have hone : be 2 1 = [0x00, 0x01] := by decide
  have hzero : be 2 0 = [0x00, 0x00] := by decide
  have hcode : be 2 0xFDE9 = [0xfd, 0xe9] := by decide
  have hrecord : be 1 0 ++ be 2 41 ++ be 2 1232 ++ be 4 0 =
      [0x00, 0x00, 0x29, 0x04, 0xd0, 0x00, 0x00, 0x00, 0x00] := by decide
  simp only [dnsOptMessage, putMessage_root, putRecord_root hrecord, Dns.putOption, hrdlength,
    hlength, hone, hzero, hcode, List.flatMap_cons, List.flatMap_nil, List.length_cons,
    List.length_nil, Nat.zero_add, List.append_nil, List.append_assoc, List.cons_append,
    List.nil_append]

/-- Below 32 bytes of padding, everything behind the first 28 bytes is the data. -/
theorem writeDnsMsg_null (txid : U8 × U8) {buf : Bytes} (hbuf : buf.length = total)
    (hmin : 28 ≤ padding) (hshort : padding < 32) (hpad : padding ≤ total) (hmax : total ≤ 65535) :
    ∃ rdata : Bytes, rdata.length = total - 28 ∧
      stores (writeDnsMsg total padding txid) buf = Dns.putMessage (dnsNullMessage txid rdata) := by
  have hfixed : (dnsNullFixed total padding txid).length = 28 := rfl
  have hlays : Lays 0 (dnsNullFixed total padding txid ++ List.replicate (padding - 28) 0)
      (writeDnsMsg total padding txid) := by
    rw [writeDnsMsg, if_pos hshort, writeDnsNull, if_pos (show padding ≥ 28 from hmin)]
    rw [if_neg (show ¬padding < 28 by omega), ← hfixed, List.take_length]
    refine (lays_put 0 _).append ?_
    rw [hfixed]
    exact lays_put 28 _
  have hfront : (dnsNullFixed total padding txid ++
      List.replicate (padding - 28) (0 : U8)).length = padding := by
    rw [List.length_append, hfixed, List.length_replicate]
    omega
  have hlen : (List.replicate (padding - 28) (0 : U8) ++ buf.drop padding).length = total - 28 := by
    rw [List.length_append, List.length_replicate, List.length_drop]
    omega
  refine ⟨_, hlen, ?_⟩
  rw [putMessage_null hmin hlen.symm (by omega) hmax, hlays.stores_eq (by omega), hfront,
    List.append_assoc]

/-- From 32 bytes of padding on, there are four more bytes in front of the option's data. -/
theorem writeDnsMsg_opt (txid : U8 × U8) {buf : Bytes} (hbuf : buf.length = total)
    (hmin : 32 ≤ padding) (hpad : padding ≤ total) (hmax : total ≤ 65535) :
    ∃ data : Bytes, data.length = total - 32 ∧
      stores (writeDnsMsg total padding txid) buf = Dns.putMessage (dnsOptMessage txid data) := by
  have hlen : (List.replicate (padding - 32) (0 : U8) ++ buf.drop padding).length = total - 32 := by
    rw [List.length_append, List.length_replicate, List.length_drop]
    omega
  refine ⟨_, hlen, ?_⟩
  rw [putMessage_opt hlen.symm (by omega) hmax, ← List.append_assoc, writeDnsMsg,
    if_neg (by omega), writeDnsOptResponse]
  generalize hfixed : _ ++ be16 (clampU16 ((total : ℤ) - 32)) = fixed
  have hfixed' : fixed.length = 32 := by
    rw [← hfixed]
    rfl
  have hlays : Lays 0 (fixed ++ List.replicate (padding - 32) 0)
      (put 0 fixed ++ put 32 (List.replicate (padding - 32) 0)) := by
    refine (lays_put 0 fixed).append ?_
    rw [hfixed']
    exact lays_put 32 _
  have hfront : (fixed ++ List.replicate (padding - 32) (0 : U8)).length = padding := by
    rw [List.length_append, hfixed', List.length_replicate]
    omega
  rw [hlays.stores_eq (by omega), hfront]

/-! ## Reading -/

/-- What a reader finds in a datagram of `total` bytes: it gets to the end, the counts of the
header are those of the sections, and the only record has everything behind its fixed part. -/
structure DnsParsed (total padding : ℕ) (datagram : Bytes) (m : Dns.Message) : Prop where
  read : exactly Dns.message datagram = some m
  counts : (datagram.drop 4).take 8 = be 2 m.questions.length ++ be 2 m.answers.length ++
    be 2 m.authority.length ++ be 2 m.additional.length
  question : m.questions.length = 1
  authority : m.authority = []
  null : padding < 32 → m.additional = [] ∧ ∃ r, m.answers = [r] ∧ r.type = 10 ∧
    r.rdlength = total - 28 ∧ r.rdata = datagram.drop 28
  opt : 32 ≤ padding → m.answers = [] ∧ ∃ r o, m.additional = [r] ∧ r.type = 41 ∧
    r.rdlength = total - 28 ∧ r.rdata = datagram.drop 28 ∧
    items Dns.readOption r.rdata = some [o] ∧ o.length = r.rdlength - 4

theorem rootName_plain : rootName.Plain := by
  refine ⟨rfl, by decide, ?_⟩
  intro l hl
  cases hl

theorem exactly_putMessage {m : Dns.Message} (h : m.Fits) :
    exactly Dns.message (Dns.putMessage m) = some m := by
  have hread := Dns.message_put h []
  rw [List.append_nil] at hread
  rw [exactly, hread]

theorem drop_putMessage (m : Dns.Message) :
    ((Dns.putMessage m).drop 4).take 8 = be 2 m.questions.length ++ be 2 m.answers.length ++
      be 2 m.authority.length ++ be 2 m.additional.length := by
  have hfront : (be 2 m.id ++ be 2 m.flags).length = 4 := rfl
  have hcounts : (be 2 m.questions.length ++ (be 2 m.answers.length ++
      (be 2 m.authority.length ++ be 2 m.additional.length))).length = 8 := rfl
  have hcut : Dns.putMessage m = (be 2 m.id ++ be 2 m.flags) ++
      ((be 2 m.questions.length ++ (be 2 m.answers.length ++
        (be 2 m.authority.length ++ be 2 m.additional.length))) ++
      (m.questions.flatMap Dns.putQuestion ++ (m.answers.flatMap Dns.putRecord ++
        (m.authority.flatMap Dns.putRecord ++ m.additional.flatMap Dns.putRecord)))) := by
    simp only [Dns.putMessage, List.append_assoc]
  rw [hcut, List.drop_left' hfront, List.take_left' hcounts]
  simp only [List.append_assoc]

theorem forall_mem_singleton {α : Type*} {p : α → Prop} {a : α} (h : p a) : ∀ b ∈ [a], p b := by
  intro b hb
  rw [List.mem_singleton.mp hb]
  exact h

/-- A message about the root with at most one record in each section. -/
theorem rootMessage_fits (txid : U8 × U8) {answers additional : List Dns.Record}
    (hanswers : answers.length ≤ 1 ∧ ∀ r ∈ answers, r.Fits)
    (hadditional : additional.length ≤ 1 ∧ ∀ r ∈ additional, r.Fits) :
    Dns.Message.Fits
      ⟨beValue [txid.1, txid.2], 0x8180, [rootQuestion], answers, [], additional⟩ := by
  have hquestion : rootQuestion.Fits := ⟨rootName_plain, by decide, by decide⟩
  have hone : 1 < 256 ^ 2 := by omega
  refine ⟨beValue_lt [txid.1, txid.2], show 0x8180 < 256 ^ 2 by omega,
    ⟨hone, forall_mem_singleton hquestion⟩,
    ⟨Nat.lt_of_le_of_lt hanswers.1 hone, hanswers.2⟩, ⟨Nat.lt_trans Nat.zero_lt_one hone, ?_⟩,
    ⟨Nat.lt_of_le_of_lt hadditional.1 hone, hadditional.2⟩⟩
  intro r hr
  cases hr

theorem no_records : ([] : List Dns.Record).length ≤ 1 ∧ ∀ r ∈ ([] : List Dns.Record), r.Fits := by
  refine ⟨Nat.zero_le 1, ?_⟩
  intro r hr
  cases hr

theorem dnsNullMessage_fits (txid : U8 × U8) (h : rdata.length < 256 ^ 2) :
    (dnsNullMessage txid rdata).Fits := by
  refine rootMessage_fits txid ⟨Nat.le_refl 1, forall_mem_singleton ?_⟩ no_records
  exact ⟨rootName_plain, show 10 < 256 ^ 2 by omega, show 1 < 256 ^ 2 by omega,
    show 60 < 256 ^ 4 by omega, h, rfl⟩

theorem length_putOption (code length : ℕ) (data : Bytes) :
    (Dns.putOption ⟨code, length, data⟩).length = data.length + 4 := by
  rw [Dns.putOption, List.length_append, List.length_append, length_be, length_be]
  exact Nat.add_comm 4 data.length

theorem dnsOptMessage_fits (txid : U8 × U8) {data : Bytes} (h : data.length + 4 < 256 ^ 2) :
    (dnsOptMessage txid data).Fits := by
  refine rootMessage_fits txid no_records ⟨Nat.le_refl 1, forall_mem_singleton ?_⟩
  exact ⟨rootName_plain, show 41 < 256 ^ 2 by omega, show 1232 < 256 ^ 2 by omega,
    show 0 < 256 ^ 4 by omega, h, length_putOption _ _ _⟩

/-- The data of a message with one record, at its place behind 28 bytes. -/
theorem drop_root {r : Dns.Record} {type klass ttl rdlength : ℕ}
    {answers additional : List Dns.Record} (hr : r = ⟨rootName, type, klass, ttl, rdlength, rdata⟩)
    (h : answers ++ additional = [r]) :
    (Dns.putMessage
      ⟨beValue [txid.1, txid.2], 0x8180, [rootQuestion], answers, [], additional⟩).drop 28 =
        rdata := by
  rw [putMessage_root, List.append_assoc _ (answers.flatMap _), ← List.flatMap_append, h,
    List.flatMap_singleton, hr, putRecord_root rfl, ← List.append_assoc, ← List.append_assoc]
  exact List.drop_left' rfl

/-- For every transaction id, padding and total of the writer's range, and every payload: the
datagram is one DNS message, to its last byte. -/
theorem writeDnsMsg_parses (txid : U8 × U8) (total padding : ℕ) (buf : Bytes)
    (hbuf : buf.length = total) (hmin : 28 ≤ padding) (hpad : padding ≤ total)
    (hmax : total ≤ 65535) :
    ∃ m, DnsParsed total padding (stores (writeDnsMsg total padding txid) buf) m := by
  rcases Nat.lt_or_ge padding 32 with hshort | hlong
  · rcases writeDnsMsg_null txid hbuf hmin hshort hpad hmax with ⟨rdata, hlen, hstores⟩
    have hdata : (Dns.putMessage (dnsNullMessage txid rdata)).drop 28 = rdata := drop_root rfl rfl
    rw [hstores]
    refine ⟨dnsNullMessage txid rdata, exactly_putMessage (dnsNullMessage_fits txid (by omega)),
      drop_putMessage _, rfl, rfl, ?_, ?_⟩
    · intro _
      exact ⟨rfl, _, rfl, rfl, hlen, hdata.symm⟩
    · intro hopt
      omega
  · rcases writeDnsMsg_opt txid hbuf hlong hpad hmax with ⟨data, hlen, hstores⟩
    have hdata : (Dns.putMessage (dnsOptMessage txid data)).drop 28 =
        Dns.putOption ⟨0xFDE9, data.length, data⟩ := drop_root rfl rfl
    -- the option fills the data of the record
    have hoption : items Dns.readOption (Dns.putOption ⟨0xFDE9, data.length, data⟩) =
        some [⟨0xFDE9, data.length, data⟩] := by
      refine items_single ?_ fun rest =>
        Dns.readOption_put (show 0xFDE9 < 256 ^ 2 by omega) (show data.length < 256 ^ 2 by omega)
          rfl rest
      intro hnil
      have hlen' := length_putOption 0xFDE9 data.length data
      rw [hnil, List.length_nil] at hlen'
      omega
    rw [hstores]
    refine ⟨dnsOptMessage txid data, exactly_putMessage (dnsOptMessage_fits txid (by omega)),
      drop_putMessage _, rfl, rfl, ?_, ?_⟩
    · intro hnull
      omega
    · intro _
      exact ⟨rfl, _, _, rfl, rfl, show data.length + 4 = total - 28 by omega, hdata.symm, hoption,
        rfl⟩

/-- One byte on either side of the threshold, in front of two bytes of payload. -/
theorem writeDnsMsg_parses_threshold :
    (∃ m, DnsParsed 33 31 (stores (writeDnsMsg 33 31 (7, 9)) (List.replicate 33 0xff)) m) ∧
      ∃ m, DnsParsed 34 32 (stores (writeDnsMsg 34 32 (7, 9)) (List.replicate 34 0xff)) m :=
  ⟨writeDnsMsg_parses (7, 9) 33 31 (List.replicate 33 0xff) (by decide) (by decide) (by decide)
      (by decide),
    writeDnsMsg_parses (7, 9) 34 32 (List.replicate 34 0xff) (by decide) (by decide) (by decide)
      (by decide)⟩

end AmneziaWg
