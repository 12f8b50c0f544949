import MiniKV.MemTable
import Mathlib.Data.List.Induction

/-!
# A MemTable is a map of last writes

`RawMemTable` is the class as the source has it, without an invariant: a map and a
counter in 64-bit arithmetic. Over every history of calls it stays a `MemTable`,
shows for each key the last entry that was accepted, and counts exactly.
-/

namespace MiniKV

/-- `entries_` and `approximate_data_size_` -/
structure RawMemTable where
  entries : List Record := []
  approximateDataSize : Nat := 0
  deriving DecidableEq

/-- `a + b` and `a - b` of `std::size_t` -/
def wordAdd (a b : Nat) : Nat := (a + b) % 2 ^ 64

@[inherit_doc wordAdd]
def wordSub (a b : Nat) : Nat := (a + 2 ^ 64 - b) % 2 ^ 64

/-- A call of `MemTable::Put` or `MemTable::Delete`. -/
inductive MemTableCall where
  | put (sequence : Nat) (key value : Bytes)
  | delete (sequence : Nat) (key : Bytes)

/-- The entry that a call is to leave. -/
def MemTableCall.record : MemTableCall → Record
  | .put sequence key value => ⟨key, sequence, .value, value⟩
  | .delete sequence key => ⟨key, sequence, .deletion, []⟩

namespace RawMemTable

/-- `MemTable::Add` -/
def add (o : FormatOptions) (m : RawMemTable) (r : Record) : Status × RawMemTable :=
  if r.sequence = 0 then (.invalidArgument "sequence number must be greater than zero", m)
  else
    let validation := MemTable.validate o r.key r.value
    if !validation.isOk then (validation, m)
    else
      let current := findKey m.entries r.key
      if current.any (fun c => r.sequence ≤ c.sequence) then
        (.invalidArgument "sequence number must be greater than the existing record", m)
      else
        let newSize := r.payloadSize
        if maxUInt64 - m.approximateDataSize < newSize then
          (.invalidArgument "MemTable size accounting overflow", m)
        else match current with
          | none => (.ok, {
              entries := upsert r m.entries
              approximateDataSize := wordAdd m.approximateDataSize newSize })
          | some c => (.ok, {
              entries := upsert r m.entries
              approximateDataSize :=
                wordAdd (wordSub m.approximateDataSize c.payloadSize) newSize })

/-- `MemTable::Put` and `MemTable::Delete` -/
def call (o : FormatOptions) (m : RawMemTable) (c : MemTableCall) : Status × RawMemTable :=
  m.add o c.record

/-- `MemTable::Lookup` -/
def lookup (o : FormatOptions) (m : RawMemTable) (key : Bytes) : LookupResult :=
  let validation := MemTable.validate o key []
  if !validation.isOk then { status := validation }
  else match findKey m.entries key with
    | none => { status := .notFound "key does not exist" }
    | some r => { status := .ok, sequence := r.sequence, type := r.type, value := r.value }

/-- `MemTable::Records` -/
def records (m : RawMemTable) : List Record := m.entries

/-- The table after a history of calls. -/
def run (o : FormatOptions) (m : RawMemTable) (calls : List MemTableCall) : RawMemTable :=
  calls.foldl (fun m c => (m.call o c).2) m

/-- The entries of the calls in a history that were accepted. -/
def accepted (o : FormatOptions) (m : RawMemTable) : List MemTableCall → List Record
  | [] => []
  | c :: cs =>
    (if (m.call o c).1.isOk then [c.record] else []) ++ accepted o (m.call o c).2 cs

end RawMemTable

/-- The last of some entries for a key. -/
def lastWrite (rs : List Record) (key : Bytes) : Option Record := findKey rs.reverse key

/-- When a call is accepted, given the entries of the keys and the size counter. -/
structure MemTableCall.Acceptable (o : FormatOptions) (entry : Bytes → Option Record) (size : Nat)
    (c : MemTableCall) : Prop where
  sequence_ne : c.record.sequence ≠ 0
  key_ne : c.record.key ≠ []
  key_le : c.record.key.length ≤ o.maxKeySize
  value_le : c.record.value.length ≤ o.maxValueSize
  newer : ∀ r ∈ entry c.record.key, r.sequence < c.record.sequence
  room : size + (9 + c.record.key.length + c.record.value.length) ≤ maxUInt64

/-- A table that shows the last of the accepted entries for each key. -/
structure RawMemTable.Shows (o : FormatOptions) (m : RawMemTable) (rs : List Record) : Prop where
  accepts : ∀ c, (m.call o c).1.isOk = true ↔
    c.Acceptable o (lastWrite rs) m.approximateDataSize
  rejects : ∀ c, (m.call o c).1.isOk = false → (m.call o c).2 = m
  lookup : ∀ key, key ≠ [] → key.length ≤ o.maxKeySize → m.lookup o key =
    match lastWrite rs key with
    | none => { status := .notFound "key does not exist" }
    | some r => { status := .ok, sequence := r.sequence, type := r.type, value := r.value }
  ascending : m.records.Pairwise (fun a b => a.key < b.key)
  records : ∀ r, r ∈ m.records ↔ lastWrite rs r.key = some r
  size : m.approximateDataSize =
    (m.records.map (fun r => 9 + r.key.length + r.value.length)).sum
  -- neither step of the accounting wraps
  replaces : ∀ (c : MemTableCall) (old : Record), c.Acceptable o (lastWrite rs) m.approximateDataSize →
    lastWrite rs c.record.key = some old →
      9 + old.key.length + old.value.length ≤ m.approximateDataSize ∧
      m.approximateDataSize - (9 + old.key.length + old.value.length) +
        (9 + c.record.key.length + c.record.value.length) ≤ maxUInt64

/-! ## The invariant -/

/-- A table that carries its invariant, as the class has it. -/
def MemTable.raw (m : MemTable) : RawMemTable := ⟨m.entries, m.approximateDataSize⟩

@[simp] theorem MemTable.raw_entries (m : MemTable) : m.raw.entries = m.entries := rfl

@[simp] theorem MemTable.raw_size (m : MemTable) :
    m.raw.approximateDataSize = m.approximateDataSize := rfl

theorem wordAdd_eq {a b : Nat} (h : a + b ≤ maxUInt64) : wordAdd a b = a + b :=
  Nat.mod_eq_of_lt (by simp only [maxUInt64] at h; omega)

theorem wordSub_eq {a b : Nat} (hb : b ≤ a) (ha : a ≤ maxUInt64) : wordSub a b = a - b := by
  have hsplit : a + 2 ^ 64 - b = a - b + 2 ^ 64 := by omega
  rw [wordSub, hsplit, Nat.add_mod_right]
  exact Nat.mod_eq_of_lt (by simp only [maxUInt64] at ha; omega)

/-- An entry is counted. -/
theorem MemTable.payloadSize_le (m : MemTable) {k : Bytes} {r : Record}
    (h : findKey m.entries k = some r) : r.payloadSize ≤ m.approximateDataSize := by
  rw [m.size_eq]
  exact List.single_le_sum (by simp) _ (List.mem_map_of_mem (findKey_mem h))

/-- `Add` keeps the invariant, and no step of its accounting wraps. -/
theorem MemTable.raw_add (o : FormatOptions) {m : MemTable}
    (hm : m.approximateDataSize ≤ maxUInt64) (r : Record) :
    m.raw.add o r = match m.add o r with
      | .ok n => (.ok, n.raw)
      | .error e => (e, m.raw) := by
  unfold RawMemTable.add MemTable.add
  by_cases hseq : r.sequence = 0
  · rw [if_pos hseq, if_pos hseq]
  rw [if_neg hseq, if_neg hseq]
  simp only [raw_entries, raw_size]
  by_cases hval : (!(validate o r.key r.value).isOk) = true
  · rw [if_pos hval, if_pos hval]
  rw [if_neg hval, if_neg hval]
  unfold admits
  by_cases hroom : maxUInt64 - m.approximateDataSize < r.payloadSize
  · rcases Option.eq_none_or_eq_some (findKey m.entries r.key) with hc | ⟨c, hc⟩
    · simp [hc, hroom]
    · by_cases hold : r.sequence ≤ c.sequence
      · simp [hc, hold]
      · simp [hc, hold, hroom]
  rcases Option.eq_none_or_eq_some (findKey m.entries r.key) with hc | ⟨c, hc⟩
  · have hadd : wordAdd m.approximateDataSize r.payloadSize =
        m.approximateDataSize + r.payloadSize := wordAdd_eq (by omega)
    simp [hc, hroom, hadd, raw, insert]
  · by_cases hold : r.sequence ≤ c.sequence
    · simp [hc, hold]
    · have hle := m.payloadSize_le hc
      have hadd : wordAdd (wordSub m.approximateDataSize c.payloadSize) r.payloadSize =
          m.approximateDataSize - c.payloadSize + r.payloadSize := by
        rw [wordSub_eq hle hm]
        exact wordAdd_eq (by omega)
      simp [hc, hold, hroom, hadd, raw, insert]

theorem MemTable.add_error {o : FormatOptions} {m : MemTable} {r : Record} {e : Status}
    (h : m.add o r = .error e) : e.isOk = false := by
  unfold MemTable.add at h
  refine of_ite_error h rfl (fun _ h => ?_)
  dsimp only at h
  split at h
  · rename_i hval
    rw [← Except.error.inj h]
    simpa using hval
  split at h
  · rename_i hadmits
    rw [← Except.error.inj h]
    simpa using hadmits
  · cases h

theorem MemTable.add_isOk_iff {o : FormatOptions} {m : MemTable}
    (hm : m.approximateDataSize ≤ maxUInt64) (c : MemTableCall) :
    (∃ n, m.add o c.record = .ok n) ↔ c.Acceptable o (findKey m.entries) m.approximateDataSize := by
  constructor
  · rintro ⟨n, h⟩
    unfold MemTable.add at h
    obtain ⟨hseq, h⟩ := ite_error_eq_ok.mp h
    dsimp only at h
    obtain ⟨hval, h⟩ := ite_error_eq_ok.mp h
    obtain ⟨hadmits, h⟩ := ite_error_eq_ok.mp h
    obtain ⟨h1, h2, h3⟩ := validate_isOk.mp (by simpa using hval)
    simp only [Bool.not_eq_true', Bool.not_eq_false] at hadmits
    unfold admits at hadmits
    have hsize : c.record.payloadSize = 9 + c.record.key.length + c.record.value.length := rfl
    cases hc : findKey m.entries c.record.key with
    | none =>
      rw [hc] at hadmits
      dsimp only at hadmits
      split at hadmits
      · cases hadmits
      · exact ⟨hseq, h1, h2, h3, by rw [hc]; nofun, by omega⟩
    | some old =>
      rw [hc] at hadmits
      dsimp only at hadmits
      split at hadmits
      · cases hadmits
      split at hadmits
      · cases hadmits
      · refine ⟨hseq, h1, h2, h3, fun r hr => ?_, by omega⟩
        rw [hc] at hr
        obtain rfl := Option.some.inj hr
        omega
  · intro h
    have hval : (validate o c.record.key c.record.value).isOk = true :=
      validate_isOk.mpr ⟨h.key_ne, h.key_le, h.value_le⟩
    have hadmits : (m.admits c.record).isOk = true := by
      refine admits_isOk (fun x hx hk => h.newer x ?_) h.room
      rw [← hk]
      exact findKey_of_mem m.ascending hx
    refine ⟨m.insert c.record, ?_⟩
    unfold MemTable.add
    rw [if_neg h.sequence_ne]
    dsimp only
    rw [if_neg (by rw [hval]; simp), if_neg (by rw [hadmits]; simp)]

/-- An accepted entry leaves room for the counter. -/
theorem MemTable.insert_size_le {o : FormatOptions} {m : MemTable} {c : MemTableCall}
    (h : c.Acceptable o (findKey m.entries) m.approximateDataSize) :
    (m.insert c.record).approximateDataSize ≤ maxUInt64 := (m.size_insert_le _).trans h.room

/-- Either a call is accepted and its entry is in the table, or nothing happens. -/
theorem MemTable.raw_call (o : FormatOptions) {m : MemTable}
    (hm : m.approximateDataSize ≤ maxUInt64) (c : MemTableCall) :
    (c.Acceptable o (findKey m.entries) m.approximateDataSize ∧
      m.raw.call o c = (.ok, (m.insert c.record).raw)) ∨
    (¬ c.Acceptable o (findKey m.entries) m.approximateDataSize ∧
      ∃ e : Status, e.isOk = false ∧ m.raw.call o c = (e, m.raw)) := by
  have hraw := m.raw_add o hm c.record
  rw [RawMemTable.call, hraw, ← add_isOk_iff hm]
  cases hadd : m.add o c.record with
  | ok n =>
    refine Or.inl ⟨⟨n, rfl⟩, ?_⟩
    dsimp only
    rw [add_ok hadd]
  | error e =>
    refine Or.inr ⟨nofun, e, ?_, rfl⟩
    exact add_error hadd

/-! ## Histories -/

namespace RawMemTable

theorem run_snoc (o : FormatOptions) (m : RawMemTable) (cs : List MemTableCall) (c : MemTableCall) :
    m.run o (cs ++ [c]) = ((m.run o cs).call o c).2 := by
  rw [run, List.foldl_append]
  rfl

theorem accepted_snoc (o : FormatOptions) (m : RawMemTable) (cs : List MemTableCall)
    (c : MemTableCall) : m.accepted o (cs ++ [c]) =
      m.accepted o cs ++ if ((m.run o cs).call o c).1.isOk then [c.record] else [] := by
  induction cs generalizing m with
  | nil =>
    show _ ++ [] = [] ++ _
    rw [List.append_nil]
    rfl
  | cons d ds ih =>
    rw [List.cons_append, accepted, ih, accepted, List.append_assoc]
    rfl

end RawMemTable

theorem lastWrite_snoc (rs : List Record) (r : Record) (key : Bytes) :
    lastWrite (rs ++ [r]) key = if r.key = key then some r else lastWrite rs key := by
  rw [lastWrite, List.reverse_append, List.reverse_singleton, List.singleton_append, findKey_cons,
    lastWrite]

/-- After every history there is a table with its invariant, whose entries are the last that
were accepted. -/
theorem RawMemTable.run_memTable (o : FormatOptions) (calls : List MemTableCall) :
    ∃ t : MemTable, t.approximateDataSize ≤ maxUInt64 ∧ RawMemTable.run o {} calls = t.raw ∧
      ∀ key, findKey t.entries key = lastWrite (RawMemTable.accepted o {} calls) key := by
  induction calls using List.reverseRecOn with
  | nil => exact ⟨.empty, Nat.zero_le _, rfl, fun _ => rfl⟩
  | append_singleton cs c ih =>
    obtain ⟨t, ht, hrun, hfind⟩ := ih
    rw [run_snoc, accepted_snoc, hrun]
    rcases t.raw_call o ht c with ⟨hacc, hcall⟩ | ⟨-, e, he, hcall⟩
    · refine ⟨t.insert c.record, MemTable.insert_size_le hacc, by rw [hcall], fun key => ?_⟩
      rw [hcall, MemTable.findKey_insert, hfind]
      exact (lastWrite_snoc _ _ _).symm
    · refine ⟨t, ht, by rw [hcall], fun key => ?_⟩
      rw [hcall, he, hfind]
      simp

/-- A MemTable refines the map of last writes, with an exact count of its size, whatever
calls it is given. -/
theorem memTable_shows_lastWrite (o : FormatOptions) (calls : List MemTableCall) :
    RawMemTable.Shows o (RawMemTable.run o {} calls) (RawMemTable.accepted o {} calls) := by
  obtain ⟨t, ht, hrun, hfind⟩ := RawMemTable.run_memTable o calls
  rw [hrun]
  generalize RawMemTable.accepted o {} calls = rs at hfind
  have hentry : lastWrite rs = findKey t.entries := (funext hfind).symm
  constructor
  · intro c
    rw [hentry]
    rcases t.raw_call o ht c with ⟨hacc, hcall⟩ | ⟨hno, e, he, hcall⟩
    · exact iff_of_true (by rw [hcall]; rfl) hacc
    · exact iff_of_false (by rw [hcall, he]; exact Bool.false_ne_true) hno
  · intro c hc
    rcases t.raw_call o ht c with ⟨-, hcall⟩ | ⟨-, e, -, hcall⟩
    · rw [hcall] at hc
      cases hc
    · rw [hcall]
  · intro key hne hle
    have hval : (MemTable.validate o key []).isOk = true :=
      MemTable.validate_isOk.mpr ⟨hne, hle, Nat.zero_le _⟩
    rw [hentry, RawMemTable.lookup]
    rw [if_neg (by rw [hval]; simp)]
    rfl
  · exact t.ascending
  · intro r
    rw [hentry, findKey_eq_some t.ascending]
    exact (and_iff_left rfl).symm
  · exact t.size_eq
  · intro c old hacc hold
    rw [hentry] at hacc hold
    have hle := t.payloadSize_le hold
    have hroom := hacc.room
    have hsize : old.payloadSize = 9 + old.key.length + old.value.length := rfl
    rw [MemTable.raw_size] at hroom ⊢
    omega

/-- Calls of every kind: an entry is replaced, an older one and one without a sequence are
refused, and a tombstone counts as an entry. -/
example : RawMemTable.run { maxKeySize := 8, maxValueSize := 8 } {}
    [.put 3 [1] [7, 7], .put 3 [1] [8], .put 0 [2] [], .delete 4 [1], .put 1 [2] [5]] =
      { entries := [⟨[1], 4, .deletion, []⟩, ⟨[2], 1, .value, [5]⟩], approximateDataSize := 21 } := by
  decide +kernel

end MiniKV
