import MiniKV.Format
import MiniKV.Lib.Newest

/-!
# The contents of open tables

What opening a table file establishes about a reader, and what a set of readers
shows of a key: the newest record that any of them has.
-/

namespace MiniKV

open Lib

/-- The newest record of a key. -/
abbrev newestRecord (k : Bytes) (rs : List Record) : Option Record :=
  newest Record.key Record.sequence k rs

/-- No two records claim one sequence number of one key. -/
abbrev DistinctRecords (rs : List Record) : Prop := Distinct Record.key Record.sequence rs

/-- The value that a user sees of a key. -/
def shown (rs : List Record) (k : Bytes) : Option Bytes := (newestRecord k rs).bind Record.visible

/-- The records of a list of readers, one reader after the other. -/
def tableRecords (ts : List SSTableReader) : List Record := ts.flatMap SSTableReader.records

@[simp] theorem tableRecords_nil : tableRecords [] = [] := rfl

@[simp] theorem tableRecords_cons (t : SSTableReader) (ts : List SSTableReader) :
    tableRecords (t :: ts) = t.records ++ tableRecords ts := rfl

theorem tableRecords_append (ts us : List SSTableReader) :
    tableRecords (ts ++ us) = tableRecords ts ++ tableRecords us := List.flatMap_append

theorem mem_tableRecords {ts : List SSTableReader} {r : Record} :
    r ∈ tableRecords ts ↔ ∃ t ∈ ts, r ∈ t.records := List.mem_flatMap

theorem tableRecords_perm {ts us : List SSTableReader} (h : ts.Perm us) :
    (tableRecords ts).Perm (tableRecords us) := h.flatMap_right _

theorem newestRecord_of_ascending {rs : List Record} (h : Ascending rs) (k : Bytes) :
    newestRecord k rs = findKey rs k := by
  refine Option.ext (fun r => ?_)
  rw [newest_eq_some (distinct_of_sorted h), findKey_eq_some h]
  constructor
  · intro hn
    exact ⟨hn.mem, hn.key_eq⟩
  · rintro ⟨hm, hk⟩
    refine ⟨hm, hk, fun x hx hxk => ?_⟩
    have hx' := findKey_of_mem h hx
    rw [hxk, ← hk, findKey_of_mem h hm] at hx'
    rw [Option.some.inj hx']

/-! ## Summaries -/

theorem firstKey_le {rs : List Record} (h : Ascending rs) {r : Record} (hr : r ∈ rs) :
    firstKey rs ≤ r.key := by
  cases rs with
  | nil => cases hr
  | cons x xs =>
    rcases List.mem_cons.mp hr with rfl | hr
    · exact le_refl _
    · exact (List.rel_of_pairwise_cons h hr).le

theorem le_lastKey {rs : List Record} (h : Ascending rs) {r : Record} (hr : r ∈ rs) :
    r.key ≤ lastKey rs := by
  induction rs generalizing r with
  | nil => cases hr
  | cons x xs ih =>
    cases xs with
    | nil => rw [List.mem_singleton.mp hr]; exact le_refl _
    | cons y ys =>
      have hlast : lastKey (x :: y :: ys) = lastKey (y :: ys) := by simp [lastKey]
      rw [hlast]
      rcases List.mem_cons.mp hr with rfl | hr
      · have hxy : r.key < y.key := List.rel_of_pairwise_cons h List.mem_cons_self
        exact hxy.le.trans (ih h.of_cons List.mem_cons_self)
      · exact ih h.of_cons hr

theorem firstKey_mem {rs : List Record} (h : rs ≠ []) : ∃ r ∈ rs, r.key = firstKey rs := by
  cases rs with
  | nil => exact absurd rfl h
  | cons x xs => exact ⟨x, List.mem_cons_self, rfl⟩

theorem lastKey_mem {rs : List Record} (h : rs ≠ []) : ∃ r ∈ rs, r.key = lastKey rs := by
  refine ⟨rs.getLast h, List.getLast_mem h, ?_⟩
  rw [lastKey, List.getLast?_eq_some_getLast h]
  rfl

private theorem foldl_max_bounds (rs : List Record) (m : Nat) :
    m ≤ rs.foldl (fun m r => max m r.sequence) m ∧
      ∀ r ∈ rs, r.sequence ≤ rs.foldl (fun m r => max m r.sequence) m := by
  induction rs generalizing m with
  | nil => simp
  | cons x xs ih =>
    obtain ⟨hm, hr⟩ := ih (max m x.sequence)
    rw [List.foldl_cons]
    refine ⟨by omega, fun r h => ?_⟩
    rcases List.mem_cons.mp h with rfl | h
    · omega
    · exact hr r h

theorem le_maximumSequence {rs : List Record} {r : Record} (h : r ∈ rs) :
    r.sequence ≤ maximumSequence rs := (foldl_max_bounds rs 0).2 r h

private theorem foldl_max_mem (rs : List Record) (m : Nat) :
    rs.foldl (fun m r => max m r.sequence) m = m ∨
      ∃ r ∈ rs, r.sequence = rs.foldl (fun m r => max m r.sequence) m := by
  induction rs generalizing m with
  | nil => exact Or.inl rfl
  | cons x xs ih =>
    rw [List.foldl_cons]
    rcases ih (max m x.sequence) with h | ⟨r, hr, h⟩
    · rcases le_total x.sequence m with hle | hle
      · left; omega
      · exact Or.inr ⟨x, List.mem_cons_self, by omega⟩
    · exact Or.inr ⟨r, List.mem_cons_of_mem _ hr, h⟩

theorem maximumSequence_le {rs : List Record} {n : Nat} (h : ∀ r ∈ rs, r.sequence ≤ n) :
    maximumSequence rs ≤ n := by
  rcases foldl_max_mem rs 0 with h0 | ⟨r, hr, h0⟩
  · unfold maximumSequence; omega
  · have := h r hr
    unfold maximumSequence; omega

theorem maximumSequence_mem {rs : List Record} (hne : rs ≠ [])
    (hpos : ∀ r ∈ rs, 0 < r.sequence) : ∃ r ∈ rs, r.sequence = maximumSequence rs := by
  rcases foldl_max_mem rs 0 with h0 | h
  · obtain ⟨r, hr⟩ := List.exists_mem_of_ne_nil rs hne
    have h1 := le_maximumSequence hr
    have h2 := hpos r hr
    unfold maximumSequence at h1
    omega
  · exact h

private theorem foldl_min_bounds (rs : List Record) (m : Nat) :
    rs.foldl (fun m r => min m r.sequence) m ≤ m ∧
      ∀ r ∈ rs, rs.foldl (fun m r => min m r.sequence) m ≤ r.sequence := by
  induction rs generalizing m with
  | nil => simp
  | cons x xs ih =>
    obtain ⟨hm, hr⟩ := ih (min m x.sequence)
    rw [List.foldl_cons]
    refine ⟨by omega, fun r h => ?_⟩
    rcases List.mem_cons.mp h with rfl | h
    · omega
    · exact hr r h

theorem minimumSequence_le {rs : List Record} {r : Record} (h : r ∈ rs) :
    minimumSequence rs ≤ r.sequence := (foldl_min_bounds rs maxUInt64).2 r h

theorem lt_minimumSequence {rs : List Record} {n : Nat} (hn : n < maxUInt64)
    (h : ∀ r ∈ rs, n < r.sequence) : n < minimumSequence rs := by
  have hfold : ∀ (rs : List Record) (m : Nat), n < m → (∀ r ∈ rs, n < r.sequence) →
      n < rs.foldl (fun m r => min m r.sequence) m := by
    intro rs
    induction rs with
    | nil => intro m hm _; exact hm
    | cons x xs ih =>
      intro m hm hx
      have := hx x List.mem_cons_self
      exact ih _ (Nat.lt_min.mpr ⟨hm, this⟩) (fun r hr => hx r (List.mem_cons_of_mem _ hr))
  exact hfold rs maxUInt64 hn h

theorem minimumSequence_pos {rs : List Record} (h : ∀ r ∈ rs, 0 < r.sequence) :
    0 < minimumSequence rs := lt_minimumSequence (by simp [maxUInt64]) h

/-! ## Readers -/

/-- What opening a table file establishes. -/
structure SSTableReader.Coherent (o : FormatOptions) (t : SSTableReader) : Prop where
  path_eq : t.path = .sst t.generation
  ascending : Ascending t.records
  ne_nil : t.records ≠ []
  valid : ∀ r ∈ t.records, r.Valid o
  summary : t.metadata = tableSummary t.generation t.metadata.fileSize t.records
  size : t.records.length ≤ t.metadata.fileSize
  fits : t.metadata.fileSize ≤ maxUInt64

namespace SSTableReader.Coherent

variable {o : FormatOptions} {t : SSTableReader}

theorem recordCount (h : t.Coherent o) : t.metadata.recordCount = t.records.length := by
  rw [h.summary]; rfl

theorem minimumKey_le (h : t.Coherent o) {r : Record} (hr : r ∈ t.records) :
    t.metadata.minimumKey ≤ r.key := by
  rw [h.summary]; exact firstKey_le h.ascending hr

theorem le_maximumKey (h : t.Coherent o) {r : Record} (hr : r ∈ t.records) :
    r.key ≤ t.metadata.maximumKey := by
  rw [h.summary]; exact le_lastKey h.ascending hr

theorem le_maximumSequence (h : t.Coherent o) {r : Record} (hr : r ∈ t.records) :
    r.sequence ≤ t.metadata.maximumSequence := by
  rw [h.summary]; exact MiniKV.le_maximumSequence hr

theorem minimumSequence_le (h : t.Coherent o) {r : Record} (hr : r ∈ t.records) :
    t.metadata.minimumSequence ≤ r.sequence := by
  rw [h.summary]; exact MiniKV.minimumSequence_le hr

theorem newestRecord_eq (h : t.Coherent o) (k : Bytes) :
    newestRecord k t.records = findKey t.records k := newestRecord_of_ascending h.ascending k

end SSTableReader.Coherent

end MiniKV
