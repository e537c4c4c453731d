import AmneziaWg.Messages

/-!
# The index table

`struct index_hashtable` of `peerlookup.c`: the handshakes and keypairs of a device
under the random 32-bit index that the other side addresses them by. The table is the
list of linked entries.

* **Model**: `wgIndexHashtableInsert`, `wgIndexHashtableReplace`, `wgIndexHashtableRemove`,
  `wgIndexHashtableLookup`.
* **Laws**: which entries are linked after each of them.
-/

namespace AmneziaWg

open Linux

/-! ## Model layer -/

/-- What an entry is part of; the constructor is `enum index_hashtable_type`. -/
inductive IndexEntry where
  | handshake (peer : ℕ)
  | keypair (id : ℕ)
deriving DecidableEq, Repr

/-- The linked entries, with their index. -/
abbrev IndexHashtable := List (U32 × IndexEntry)

namespace IndexHashtable

/-- Some linked entry has the index. -/
def InUse (table : IndexHashtable) (index : U32) : Prop := ∃ e ∈ table, e.1 = index

instance (table : IndexHashtable) (index : U32) : Decidable (InUse table index) :=
  inferInstanceAs (Decidable (∃ e ∈ table, e.1 = index))

/-- The index under which an entry is linked; `none` for `hlist_unhashed`. -/
def indexOf (table : IndexHashtable) (entry : IndexEntry) : Option U32 :=
  (table.find? (·.2 = entry)).map Prod.fst

end IndexHashtable

open IndexHashtable

/-- `wg_index_hashtable_remove`. -/
def wgIndexHashtableRemove (table : IndexHashtable) (entry : IndexEntry) : IndexHashtable :=
  table.filter (·.2 ≠ entry)

/-- `wg_index_hashtable_insert`: the entry is unlinked, and linked again under the first
random word that is not in use. `none` if the draws given do not get that far. -/
def wgIndexHashtableInsert (table : IndexHashtable) (entry : IndexEntry) (draws : List U32) :
    Option (U32 × IndexHashtable) :=
  let table := wgIndexHashtableRemove table entry
  (draws.find? fun index => ¬ table.InUse index).map fun index => (index, (index, entry) :: table)

/-- `wg_index_hashtable_replace`: `none` if the old entry is not linked. -/
def wgIndexHashtableReplace (table : IndexHashtable) (old new : IndexEntry) :
    Option (U32 × IndexHashtable) :=
  (table.indexOf old).map fun index =>
    (index, table.map fun e => if e.2 = old then (e.1, new) else e)

/-- `wg_index_hashtable_lookup` for a handshake: the first entry of the index decides. -/
def lookupHandshake (table : IndexHashtable) (index : U32) : Option ℕ :=
  match table.find? (·.1 = index) with
  | some (_, .handshake peer) => some peer
  | _ => none

/-! ## Laws -/

variable {table : IndexHashtable} {entry : IndexEntry}

theorem mem_remove {e : U32 × IndexEntry} :
    e ∈ wgIndexHashtableRemove table entry ↔ e ∈ table ∧ e.2 ≠ entry := by
  rw [wgIndexHashtableRemove, List.mem_filter, decide_eq_true_iff]

variable {index : U32}

/-- An insertion links the entry under the new index only. -/
theorem insert_some {table' : IndexHashtable} {draws : List U32}
    (h : wgIndexHashtableInsert table entry draws = some (index, table')) :
    index ∈ draws ∧ table' = (index, entry) :: wgIndexHashtableRemove table entry ∧
      ¬ (wgIndexHashtableRemove table entry).InUse index := by
  rcases Option.map_eq_some_iff.mp h with ⟨i, hfind, heq⟩
  cases heq
  refine ⟨List.mem_of_find?_eq_some hfind, rfl, ?_⟩
  simpa using List.find?_some hfind

/-- The draws reach an index that the entry can have. -/
def Reaches (table : IndexHashtable) (entry : IndexEntry) (draws : List U32) : Prop :=
  ∃ index ∈ draws, ¬ (wgIndexHashtableRemove table entry).InUse index

instance (table : IndexHashtable) (entry : IndexEntry) (draws : List U32) :
    Decidable (Reaches table entry draws) :=
  List.decidableBEx (fun index => ¬ (wgIndexHashtableRemove table entry).InUse index) draws

theorem insert_of_reaches {draws : List U32} (h : Reaches table entry draws) :
    ∃ index, wgIndexHashtableInsert table entry draws =
      some (index, (index, entry) :: wgIndexHashtableRemove table entry) := by
  rcases h with ⟨i, hi, hfree⟩
  have hsome : (draws.find? fun index =>
      ¬ (wgIndexHashtableRemove table entry).InUse index).isSome := by
    rw [List.find?_isSome]
    exact ⟨i, hi, decide_eq_true hfree⟩
  rcases Option.isSome_iff_exists.mp hsome with ⟨index, hindex⟩
  exact ⟨index, by rw [wgIndexHashtableInsert, hindex]; rfl⟩

/-- After an insertion the entry has its new index only. -/
theorem mem_insert_self {i : U32} :
    (i, entry) ∈ (index, entry) :: wgIndexHashtableRemove table entry ↔ i = index := by
  rw [List.mem_cons, mem_remove]
  constructor
  · rintro (heq | ⟨-, hne⟩)
    · cases heq
      rfl
    · exact absurd rfl hne
  · rintro rfl
    exact .inl rfl

theorem indexOf_some (h : table.indexOf entry = some index) : (index, entry) ∈ table := by
  rcases Option.map_eq_some_iff.mp h with ⟨e, hfind, rfl⟩
  have hentry : e.2 = entry := by simpa using List.find?_some hfind
  rw [← hentry]
  exact List.mem_of_find?_eq_some hfind

theorem indexOf_of_mem (h : (index, entry) ∈ table) : ∃ i, table.indexOf entry = some i := by
  have hsome : (table.find? (·.2 = entry)).isSome := by
    rw [List.find?_isSome]
    exact ⟨(index, entry), h, decide_eq_true rfl⟩
  rcases Option.isSome_iff_exists.mp hsome with ⟨e, he⟩
  exact ⟨e.1, by rw [indexOf, he]; rfl⟩

/-- A replacement puts the new entry under the index of the old one. -/
theorem replace_some {table' : IndexHashtable} {old new : IndexEntry} (hne : old ≠ new)
    (h : wgIndexHashtableReplace table old new = some (index, table')) :
    (index, old) ∈ table ∧ (index, new) ∈ table' ∧ ∀ i, (i, old) ∉ table' := by
  rcases Option.map_eq_some_iff.mp h with ⟨i, hindex, heq⟩
  cases heq
  have hmem := indexOf_some hindex
  refine ⟨hmem, List.mem_map.mpr ⟨_, hmem, if_pos rfl⟩, ?_⟩
  intro j hj
  rcases List.mem_map.mp hj with ⟨e, -, he⟩
  split at he
  · cases he
    exact hne rfl
  · next hold =>
    subst he
    exact hold rfl

theorem lookupHandshake_some {peer : ℕ} (h : lookupHandshake table index = some peer) :
    (index, .handshake peer) ∈ table := by
  unfold lookupHandshake at h
  split at h
  · next i p hfind =>
    cases h
    have hindex : i = index := by simpa using List.find?_some hfind
    rw [← hindex]
    exact List.mem_of_find?_eq_some hfind
  · cases h

end AmneziaWg
