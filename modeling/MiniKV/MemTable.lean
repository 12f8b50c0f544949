import MiniKV.Basic
import Mathlib.Algebra.Order.BigOperators.Group.List
import Mathlib.Algebra.Order.Ring.Nat

/-!
# The in-memory table

`std::map<std::string, Entry>` is a list of records in strictly ascending key
order. A `MemTable` carries that order and the exactness of its size counter,
so neither is a side condition of the results about tables built from one.
-/

namespace MiniKV

/-- `entries_.find(key)` -/
def findKey (rs : List Record) (key : Bytes) : Option Record := rs.find? (fun r => r.key = key)

/-- Insert a record, or replace the record of its key. -/
def upsert (r : Record) : List Record → List Record
  | [] => [r]
  | x :: xs =>
    if r.key < x.key then r :: x :: xs
    else if x.key = r.key then r :: xs
    else x :: upsert r xs

/-- Strictly ascending keys: the order of `std::map` and of every table file. -/
abbrev Ascending (rs : List Record) : Prop := rs.Pairwise (fun a b => a.key < b.key)

def totalSize (rs : List Record) : Nat := (rs.map Record.payloadSize).sum

/-! ## Searching -/

@[simp] theorem findKey_nil (k : Bytes) : findKey [] k = none := rfl

theorem findKey_cons (r : Record) (rs : List Record) (k : Bytes) :
    findKey (r :: rs) k = if r.key = k then some r else findKey rs k := by
  unfold findKey
  rw [List.find?_cons]
  by_cases h : r.key = k <;> simp [h]

theorem findKey_append (rs ss : List Record) (k : Bytes) :
    findKey (rs ++ ss) k = (findKey rs k).or (findKey ss k) := by
  unfold findKey
  rw [List.find?_append]

theorem findKey_mem {rs : List Record} {k : Bytes} {r : Record} (h : findKey rs k = some r) :
    r ∈ rs := List.mem_of_find?_eq_some h

theorem findKey_key {rs : List Record} {k : Bytes} {r : Record} (h : findKey rs k = some r) :
    r.key = k := by
  have h' := List.find?_some h
  simpa using h'

theorem findKey_eq_none {rs : List Record} {k : Bytes} :
    findKey rs k = none ↔ ∀ r ∈ rs, r.key ≠ k := by
  simp [findKey, List.find?_eq_none]

/-- In ascending order a record is found under its own key. -/
theorem findKey_of_mem {rs : List Record} (hs : Ascending rs) {r : Record} (h : r ∈ rs) :
    findKey rs r.key = some r := by
  induction rs with
  | nil => cases h
  | cons x xs ih =>
    rw [findKey_cons]
    rcases List.mem_cons.mp h with rfl | hm
    · simp
    · have hlt : x.key < r.key := List.rel_of_pairwise_cons hs hm
      rw [if_neg hlt.ne, ih hs.of_cons hm]

theorem findKey_eq_some {rs : List Record} (hs : Ascending rs) {k : Bytes} {r : Record} :
    findKey rs k = some r ↔ r ∈ rs ∧ r.key = k := by
  constructor
  · intro h; exact ⟨findKey_mem h, findKey_key h⟩
  · rintro ⟨hm, rfl⟩; exact findKey_of_mem hs hm

/-! ## Inserting -/

theorem mem_upsert {r x : Record} {rs : List Record} (h : x ∈ upsert r rs) : x = r ∨ x ∈ rs := by
  induction rs with
  | nil => exact Or.inl (List.mem_singleton.mp h)
  | cons y ys ih =>
    unfold upsert at h
    split at h
    · exact List.mem_cons.mp h
    · split at h
      · rcases List.mem_cons.mp h with hx | hx
        · exact Or.inl hx
        · exact Or.inr (List.mem_cons_of_mem _ hx)
      · rcases List.mem_cons.mp h with hx | hx
        · exact Or.inr (hx ▸ List.mem_cons_self)
        · rcases ih hx with hy | hy
          · exact Or.inl hy
          · exact Or.inr (List.mem_cons_of_mem _ hy)

theorem ascending_upsert {r : Record} {rs : List Record} (hs : Ascending rs) :
    Ascending (upsert r rs) := by
  induction rs with
  | nil => exact List.pairwise_singleton _ _
  | cons x xs ih =>
    have hx := List.pairwise_cons.mp hs
    unfold upsert
    split
    · rename_i hlt
      refine List.pairwise_cons.mpr ⟨?_, hs⟩
      intro y hy
      rcases List.mem_cons.mp hy with rfl | hm
      · exact hlt
      · exact hlt.trans (hx.1 y hm)
    · split
      · rename_i heq
        refine List.pairwise_cons.mpr ⟨?_, hx.2⟩
        intro y hy
        exact heq ▸ hx.1 y hy
      · rename_i hnlt hne
        refine List.pairwise_cons.mpr ⟨?_, ih hx.2⟩
        intro y hy
        rcases mem_upsert hy with rfl | hm
        · exact lt_of_le_of_ne (not_lt.mp hnlt) hne
        · exact hx.1 y hm

theorem findKey_upsert (r : Record) {rs : List Record} (hs : Ascending rs) (k : Bytes) :
    findKey (upsert r rs) k = if r.key = k then some r else findKey rs k := by
  induction rs with
  | nil => rw [upsert, findKey_cons]
  | cons x xs ih =>
    have hx := List.pairwise_cons.mp hs
    unfold upsert
    split
    · rw [findKey_cons]
    · split
      · rename_i heq
        rw [findKey_cons, findKey_cons, heq]
        split <;> rfl
      · rename_i hne
        rw [findKey_cons, ih hx.2, findKey_cons]
        by_cases hk : x.key = k
        · have hr : r.key ≠ k := fun hr => hne (hk.trans hr.symm)
          rw [if_pos hk, if_neg hr, if_pos hk]
        · rw [if_neg hk, if_neg hk]

/-- A record behind every other one goes to the end. -/
theorem upsert_of_lt {r : Record} {rs : List Record} (h : ∀ x ∈ rs, x.key < r.key) :
    upsert r rs = rs ++ [r] := by
  induction rs with
  | nil => rfl
  | cons x xs ih =>
    have hx := h x List.mem_cons_self
    rw [upsert, if_neg hx.not_gt, if_neg hx.ne, ih (fun y hy => h y (List.mem_cons_of_mem _ hy))]
    rfl

/-- Replacing an entry exchanges its size for the new one. -/
theorem totalSize_upsert (r : Record) {rs : List Record} (hs : Ascending rs) :
    totalSize (upsert r rs) =
      match findKey rs r.key with
      | none => totalSize rs + r.payloadSize
      | some old => totalSize rs - old.payloadSize + r.payloadSize := by
  induction rs with
  | nil => simp [upsert, totalSize]
  | cons x xs ih =>
    have hx := List.pairwise_cons.mp hs
    have ih := ih hx.2
    rw [findKey_cons]
    unfold upsert
    split
    · rename_i hlt
      have hn : findKey xs r.key = none := by
        rw [findKey_eq_none]
        intro y hy
        exact (hlt.trans (hx.1 y hy)).ne'
      rw [if_neg hlt.ne', hn]
      simp [totalSize]; omega
    · split
      · rename_i heq
        simp [totalSize]; omega
      · rename_i hne
        cases hf : findKey xs r.key with
        | none =>
          rw [hf] at ih
          simp only [totalSize, List.map_cons, List.sum_cons] at ih ⊢
          omega
        | some old =>
          rw [hf] at ih
          have hm : old.payloadSize ≤ totalSize xs :=
            List.single_le_sum (by simp) _ (List.mem_map_of_mem (findKey_mem hf))
          simp only [totalSize, List.map_cons, List.sum_cons] at ih hm ⊢
          omega

/-! ## The table -/

structure MemTable where
  entries : List Record
  approximateDataSize : Nat
  ascending : Ascending entries
  size_eq : approximateDataSize = totalSize entries

namespace MemTable

/-- `MemTable(options)`: an empty table. -/
def empty : MemTable := ⟨[], 0, List.Pairwise.nil, rfl⟩

def isEmpty (m : MemTable) : Bool := m.entries.isEmpty

/-- `MemTable::Validate` -/
def validate (o : FormatOptions) (key value : Bytes) : Status :=
  if key.isEmpty then .invalidArgument "key must not be empty"
  else if o.maxKeySize < key.length then .invalidArgument "key exceeds configured maximum size"
  else if o.maxValueSize < value.length then
    .invalidArgument "value exceeds configured maximum size"
  else .ok

/-- `MemTable::Lookup`, which shows tombstones. -/
def lookup (o : FormatOptions) (m : MemTable) (key : Bytes) : LookupResult :=
  let validation := validate o key []
  if !validation.isOk then { status := validation }
  else match findKey m.entries key with
    | none => { status := .notFound "key does not exist" }
    | some r => { status := .ok, sequence := r.sequence, type := r.type, value := r.value }

/-- `MemTable::Records` -/
def records (m : MemTable) : List Record := m.entries

/-- The table once a record has passed every check of `Add`. -/
def insert (m : MemTable) (r : Record) : MemTable where
  entries := upsert r m.entries
  approximateDataSize :=
    match findKey m.entries r.key with
    | none => m.approximateDataSize + r.payloadSize
    | some old => m.approximateDataSize - old.payloadSize + r.payloadSize
  ascending := ascending_upsert m.ascending
  size_eq := by rw [totalSize_upsert r m.ascending, m.size_eq]

/-- The checks of `MemTable::Add` after the limits on key and value. -/
def admits (m : MemTable) (r : Record) : Status :=
  match findKey m.entries r.key with
  | some current =>
    if r.sequence ≤ current.sequence then
      .invalidArgument "sequence number must be greater than the existing record"
    else if maxUInt64 - m.approximateDataSize < r.payloadSize then
      .invalidArgument "MemTable size accounting overflow"
    else .ok
  | none =>
    if maxUInt64 - m.approximateDataSize < r.payloadSize then
      .invalidArgument "MemTable size accounting overflow"
    else .ok

/-- `MemTable::Add` -/
def add (o : FormatOptions) (m : MemTable) (r : Record) : Except Status MemTable :=
  if r.sequence = 0 then .error (.invalidArgument "sequence number must be greater than zero")
  else
    let validation := validate o r.key r.value
    if !validation.isOk then .error validation
    else if !(m.admits r).isOk then .error (m.admits r)
    else .ok (m.insert r)

/-- `MemTable::Put` for a value and `MemTable::Delete`, which takes no value, for a
tombstone: how recovery, writes and compaction apply a record. -/
def applyRecord (o : FormatOptions) (m : MemTable) (r : Record) : Except Status MemTable :=
  match r.type with
  | .value => m.add o r
  | .deletion => m.add o { r with value := [] }

@[simp] theorem entries_empty : empty.entries = [] := rfl
@[simp] theorem records_eq (m : MemTable) : m.records = m.entries := rfl
@[simp] theorem isEmpty_empty : empty.isEmpty = true := rfl

theorem isEmpty_iff {m : MemTable} : m.isEmpty = true ↔ m.entries = [] := by
  simp [isEmpty]

/-- Two tables with the same entries are the same table. -/
theorem ext {m n : MemTable} (h : m.entries = n.entries) : m = n := by
  obtain ⟨es, sz, hs, he⟩ := m
  obtain ⟨fs, tz, ht, hf⟩ := n
  simp only at h
  subst h
  simp [he, hf]

theorem validate_isOk {o : FormatOptions} {key value : Bytes} :
    (validate o key value).isOk = true ↔
      key ≠ [] ∧ key.length ≤ o.maxKeySize ∧ value.length ≤ o.maxValueSize := by
  unfold validate
  split
  · rename_i h; simp [List.isEmpty_iff.mp h]
  split
  · rename_i h; simp; omega
  split
  · rename_i h; simp; omega
  · rename_i h1 h2 h3
    simp only [Status.isOk_ok, true_iff]
    exact ⟨fun h => h1 (List.isEmpty_iff.mpr h), by omega, by omega⟩

/-- A newer record of admissible size is admitted when the counter has room. -/
theorem admits_isOk {m : MemTable} {r : Record}
    (hseq : ∀ x ∈ m.entries, x.key = r.key → x.sequence < r.sequence)
    (hroom : m.approximateDataSize + r.payloadSize ≤ maxUInt64) :
    (m.admits r).isOk = true := by
  unfold admits
  split
  · rename_i current hc
    have h := hseq current (findKey_mem hc) (findKey_key hc)
    rw [if_neg (by omega), if_neg (by omega)]
    rfl
  · rw [if_neg (by omega)]
    rfl

/-- The specification of `Add` on a record that passes validation and is newer
than everything its key has. -/
theorem add_eq_ok {o : FormatOptions} {m : MemTable} {r : Record} (hv : r.Valid o)
    (hseq : ∀ x ∈ m.entries, x.key = r.key → x.sequence < r.sequence)
    (hroom : m.approximateDataSize + r.payloadSize ≤ maxUInt64) :
    m.add o r = .ok (m.insert r) := by
  have hval : (validate o r.key r.value).isOk = true :=
    validate_isOk.mpr ⟨List.ne_nil_of_length_pos hv.key_pos, hv.key_le, hv.value_le⟩
  have hpos := hv.sequence_pos
  simp [add, hval, admits_isOk hseq hroom, Nat.pos_iff_ne_zero.mp hpos]

theorem add_ok {o : FormatOptions} {m n : MemTable} {r : Record} (h : m.add o r = .ok n) :
    n = m.insert r := by
  unfold add at h
  obtain ⟨-, h⟩ := ite_error_eq_ok.mp h
  · dsimp only at h
    obtain ⟨-, h⟩ := ite_error_eq_ok.mp h
    · obtain ⟨-, h⟩ := ite_error_eq_ok.mp h
      · exact (Except.ok.inj h).symm

/-- The counter has room for what `Add` accepts. -/
theorem add_room {o : FormatOptions} {m n : MemTable} {r : Record} (h : m.add o r = .ok n) :
    m.approximateDataSize + r.payloadSize ≤ maxUInt64 := by
  unfold add at h
  obtain ⟨-, h⟩ := ite_error_eq_ok.mp h
  dsimp only at h
  obtain ⟨-, h⟩ := ite_error_eq_ok.mp h
  obtain ⟨hadmits, -⟩ := ite_error_eq_ok.mp h
  have hsize : r.payloadSize = 9 + r.key.length + r.value.length := rfl
  have hroom : ¬ maxUInt64 - m.approximateDataSize < r.payloadSize := by
    intro hfull
    apply hadmits
    unfold admits
    cases findKey m.entries r.key with
    | none => simp [hfull]
    | some old =>
      dsimp only
      rw [if_pos hfull]
      split <;> rfl
  omega

/-- On records the log accepts, `Put` and `Delete` add the record as it is. -/
theorem applyRecord_of_valid {o : FormatOptions} {m : MemTable} {r : Record} (h : r.Valid o) :
    m.applyRecord o r = m.add o r := by
  unfold applyRecord
  cases ht : r.type with
  | value => rfl
  | deletion =>
    have hv := h.deletion ht
    cases r
    simp_all

theorem findKey_insert (m : MemTable) (r : Record) (k : Bytes) :
    findKey (m.insert r).entries k = if r.key = k then some r else findKey m.entries k :=
  findKey_upsert r m.ascending k

theorem mem_insert {m : MemTable} {r x : Record} (h : x ∈ (m.insert r).entries) :
    x = r ∨ x ∈ m.entries := mem_upsert h

theorem insert_ne_nil (m : MemTable) (r : Record) : (m.insert r).entries ≠ [] := by
  have h := findKey_insert m r r.key
  rw [if_pos rfl] at h
  exact List.ne_nil_of_mem (findKey_mem h)

theorem size_insert_le (m : MemTable) (r : Record) :
    (m.insert r).approximateDataSize ≤ m.approximateDataSize + r.payloadSize := by
  simp only [insert]
  split <;> omega

end MemTable

end MiniKV
