import MiniKV.Scan.Token
import MiniKV.Tables
import MiniKV.Lib.Search

/-!
# Scans are exact

The entries of a range are its keys in order whose newest record is a value. A
scan merges its sources to exactly these and stops one entry past its limit.
-/

namespace MiniKV

open Lib

/-- The entries of the keys with a property: the keys, in order, whose newest record is a
value, with that value. -/
structure Visible (rs : List Record) (p : Bytes → Bool) (es : List ScanEntry) : Prop where
  ascending : es.Pairwise (fun a b => a.key < b.key)
  mem : ∀ e, e ∈ es ↔ p e.key = true ∧ ∃ r, IsNewest Record.key Record.sequence rs e.key r ∧
    r.type = .value ∧ r.value = e.value

/-! ## Merging -/

section

variable {heap heap' : List (Cursor Record)} {w : Record} {n : Nat} {losers : List Record}
  {es : List ScanEntry}

theorem visible_nil : Visible [] (fun _ => true) [] where
  ascending := List.Pairwise.nil
  mem := by
    intro e
    constructor
    · intro h
      cases h
    · rintro ⟨-, r, hr, -⟩
      cases hr.mem

/-- The records a round has not taken show what they showed before it. -/
theorem Round.newest_value_iff (h : Round Record.key Record.sequence heap w n heap' losers)
    (e : ScanEntry) :
    (∃ r, IsNewest Record.key Record.sequence (pending heap) e.key r ∧ r.type = .value ∧
        r.value = e.value) ↔
      (w.type = .value ∧ e = ⟨w.key, w.value⟩) ∨
        ∃ r, IsNewest Record.key Record.sequence (pending heap') e.key r ∧ r.type = .value ∧
          r.value = e.value := by
  constructor
  · rintro ⟨r, hr, ht, hv⟩
    have hkey := hr.key_eq
    rw [← hkey] at hr
    rcases h.isNewest_iff.mp hr with rfl | hr
    · refine Or.inl ⟨ht, ?_⟩
      cases e
      simp_all
    · exact Or.inr ⟨r, by rwa [hkey] at hr, ht, hv⟩
  · rintro (⟨ht, rfl⟩ | ⟨r, hr, ht, hv⟩)
    · exact ⟨w, h.isNewest_iff.mpr (Or.inl rfl), ht, rfl⟩
    · have hkey := hr.key_eq
      rw [← hkey] at hr
      have hr' := h.isNewest_iff.mpr (Or.inr hr)
      exact ⟨r, by rwa [hkey] at hr', ht, hv⟩

/-- A round that ends with a tombstone shows nothing. -/
theorem Visible.skip (h : Round Record.key Record.sequence heap w n heap' losers)
    (hw : w.type = .deletion) (hes : Visible (pending heap') (fun _ => true) es) :
    Visible (pending heap) (fun _ => true) es where
  ascending := hes.ascending
  mem := by
    intro e
    rw [hes.mem e, Round.newest_value_iff h e, hw]
    simp

/-- A round that ends with a value shows it in front of everything else. -/
theorem Visible.cons (h : Round Record.key Record.sequence heap w n heap' losers)
    (hw : w.type = .value) (hes : Visible (pending heap') (fun _ => true) es) :
    Visible (pending heap) (fun _ => true) (⟨w.key, w.value⟩ :: es) where
  ascending := by
    refine List.pairwise_cons.mpr ⟨fun e he => ?_, hes.ascending⟩
    obtain ⟨-, r, hr, -⟩ := (hes.mem e).mp he
    rw [← hr.key_eq]
    exact h.rest r hr.mem
  mem := by
    intro e
    rw [List.mem_cons, hes.mem e, Round.newest_value_iff h e, hw]
    simp

end

theorem scanLoop_nil (limit n : Nat) (entries : List ScanEntry) (stats : ScanStatistics) :
    scanLoop limit n [] entries stats = .ok (entries, stats) := by
  cases n with
  | zero => rfl
  | succ n =>
    rw [scanLoop, mergeRound_eq_none.mpr rfl]
    split <;> rfl

/-- The loop appends the entries of the records that are left, one past the limit at most. -/
theorem scanLoop_eq (limit : Nat) {n : Nat} {heap : List (Cursor Record)} (hs : Sorted Record.key heap)
    (hd : DistinctRecords (pending heap)) (hn : (pending heap).length ≤ n) :
    ∃ es, Visible (pending heap) (fun _ => true) es ∧
      ∀ (entries : List ScanEntry) (stats : ScanStatistics), ∃ stats',
        scanLoop limit n heap entries stats =
          .ok (entries ++ es.take (limit + 1 - entries.length), stats') := by
  induction n generalizing heap with
  | zero =>
    have hnil : heap = [] := by
      cases heap with
      | nil => rfl
      | cons c cs => simp [pending, Cursor.remaining] at hn
    refine ⟨[], by rw [hnil]; exact visible_nil, fun entries stats => ⟨stats, ?_⟩⟩
    rw [hnil, scanLoop_nil, List.take_nil, List.append_nil]
  | succ n ih =>
    by_cases hnil : heap = []
    · refine ⟨[], by rw [hnil]; exact visible_nil, fun entries stats => ⟨stats, ?_⟩⟩
      rw [hnil, scanLoop_nil, List.take_nil, List.append_nil]
    rcases mergeRound_cases hs hnil with ⟨-, htie⟩ | ⟨w, runs, heap', losers, hround, h⟩
    · exact absurd hd htie
    have hd' : DistinctRecords (pending heap') := (List.pairwise_append.mp (hd.perm h.perm)).2.1
    have hn' : (pending heap').length ≤ n := by
      have := h.length_lt
      omega
    obtain ⟨es, hes, hloop⟩ := ih h.sorted hd' hn'
    have hfull : ∀ (entries : List ScanEntry) (stats : ScanStatistics) (xs : List ScanEntry),
        limit < entries.length → scanLoop limit (n + 1) heap entries stats =
          .ok (entries ++ xs.take (limit + 1 - entries.length), stats) := by
      intro entries stats xs hlt
      rw [scanLoop, if_pos hlt, Nat.sub_eq_zero_of_le hlt, List.take_zero, List.append_nil]
    cases ht : w.type with
    | deletion =>
      refine ⟨es, Visible.skip h ht hes, fun entries stats => ?_⟩
      by_cases hlt : limit < entries.length
      · exact ⟨stats, hfull entries stats es hlt⟩
      rw [scanLoop, if_neg hlt, hround]
      dsimp only
      rw [if_pos ht]
      exact hloop entries _
    | value =>
      refine ⟨_, Visible.cons h ht hes, fun entries stats => ?_⟩
      by_cases hlt : limit < entries.length
      · exact ⟨stats, hfull entries stats _ hlt⟩
      rw [scanLoop, if_neg hlt, hround]
      dsimp only
      rw [if_neg (by rw [ht]; simp)]
      obtain ⟨stats', heq⟩ := hloop (entries ++ [⟨w.key, w.value⟩])
        { stats with
          recordsExamined := stats.recordsExamined + runs
          obsoleteVersionsSkipped := stats.obsoleteVersionsSkipped + (runs - 1) }
      refine ⟨stats', ?_⟩
      have hroom : limit + 1 - entries.length = (limit + 1 - (entries.length + 1)) + 1 := by omega
      rw [heq, List.length_append, List.length_singleton, hroom, List.take_succ_cons,
        List.append_assoc]
      rfl

/-! ## Sources -/

/-- Whether a key lies in the range. -/
def ScanBounds.contains (bounds : ScanBounds) (key : Bytes) : Bool :=
  decide (bounds.first ≤ key) && bounds.beforeEnd key

/-- The keys that a scan has still to look at. -/
def wanted (bounds : ScanBounds) (resumeAfter : Bytes) (key : Bytes) : Bool :=
  (if resumeAfter.isEmpty then decide (bounds.first ≤ key) else decide (resumeAfter < key)) &&
    bounds.beforeEnd key

theorem ScanBounds.beforeEnd_of_le {bounds : ScanBounds} {a b : Bytes} (hab : a ≤ b)
    (h : bounds.beforeEnd b = true) : bounds.beforeEnd a = true := by
  cases hl : bounds.last with
  | none => simp [beforeEnd, hl]
  | some e =>
    simp only [beforeEnd, hl, decide_eq_true_eq] at h ⊢
    exact lt_of_le_of_lt hab h

/-- Every key from the lower bound on, up to the end of the range. -/
def reached (bounds : ScanBounds) (resumeAfter : Bytes) (key : Bytes) : Bool :=
  decide (scanLower bounds resumeAfter ≤ key) && bounds.beforeEnd key

theorem wanted_eq (bounds : ScanBounds) (resumeAfter key : Bytes) :
    wanted bounds resumeAfter key =
      (reached bounds resumeAfter key && (resumeAfter.isEmpty || decide (key ≠ resumeAfter))) := by
  cases hempty : resumeAfter.isEmpty with
  | true => simp [wanted, reached, scanLower, hempty]
  | false =>
    have hlt : decide (resumeAfter < key) =
        (decide (resumeAfter ≤ key) && decide (key ≠ resumeAfter)) := by
      rw [← Bool.decide_and, decide_eq_decide, lt_iff_le_and_ne, ne_comm]
    simp only [wanted, reached, scanLower, hempty, Bool.false_eq_true, if_false, hlt,
      Bool.false_or]
    rw [Bool.and_right_comm]

/-- The search in sorted records starts the run at the lower bound. -/
theorem run_eq (bounds : ScanBounds) (resumeAfter : Bytes) {rs : List Record} (h : Ascending rs) :
    (rs.dropWhile (fun r => decide (r.key < scanLower bounds resumeAfter))).takeWhile
        (fun r => bounds.beforeEnd r.key) =
      rs.filter (fun r => reached bounds resumeAfter r.key) := by
  have hlower : rs.Pairwise (fun a b =>
      decide (b.key < scanLower bounds resumeAfter) = true →
        decide (a.key < scanLower bounds resumeAfter) = true) :=
    h.imp (fun hab hb => decide_eq_true (hab.trans (of_decide_eq_true hb)))
  have hasc := h.filter (fun r => !decide (r.key < scanLower bounds resumeAfter))
  have hend : (rs.filter (fun r => !decide (r.key < scanLower bounds resumeAfter))).Pairwise
      (fun a b => bounds.beforeEnd b.key = true → bounds.beforeEnd a.key = true) :=
    hasc.imp (fun hab hb => ScanBounds.beforeEnd_of_le hab.le hb)
  rw [dropWhile_eq_filter hlower, takeWhile_eq_filter hend, List.filter_filter]
  refine List.filter_congr (fun r _ => ?_)
  have hle : (!decide (r.key < scanLower bounds resumeAfter)) =
      decide (scanLower bounds resumeAfter ≤ r.key) := by
    rw [← decide_not, decide_eq_decide, not_lt]
  rw [hle, reached, Bool.and_comm]

/-- A source yields the records of the keys that are wanted. -/
theorem scanRun_eq {bounds : ScanBounds} {resumeAfter : Bytes} {rs : List Record}
    (h : Ascending rs) :
    scanRun bounds resumeAfter rs = rs.filter (fun r => wanted bounds resumeAfter r.key) := by
  have hfilter : rs.filter (fun r => wanted bounds resumeAfter r.key) =
      (rs.filter (fun r => reached bounds resumeAfter r.key)).filter
        (fun r => resumeAfter.isEmpty || decide (r.key ≠ resumeAfter)) := by
    rw [List.filter_filter]
    exact List.filter_congr (fun r _ => by rw [wanted_eq, Bool.and_comm])
  have hasc := h.filter (fun r => reached bounds resumeAfter r.key)
  have hge : ∀ x ∈ rs.filter (fun r => reached bounds resumeAfter r.key),
      scanLower bounds resumeAfter ≤ x.key := by
    intro x hx
    have hr := (List.mem_filter.mp hx).2
    rw [reached, Bool.and_eq_true] at hr
    exact of_decide_eq_true hr.1
  unfold scanRun
  rw [run_eq bounds resumeAfter h, hfilter]
  generalize rs.filter (fun r => reached bounds resumeAfter r.key) = run at hasc hge ⊢
  cases run with
  | nil => rfl
  | cons r rest =>
    cases hempty : resumeAfter.isEmpty with
    | true => simp
    | false =>
      -- only the first record of the run can have the key to resume after
      have hlower : scanLower bounds resumeAfter = resumeAfter := by
        rw [scanLower, hempty]
        rfl
      have hrest : rest.filter (fun x => decide (x.key ≠ resumeAfter)) = rest := by
        refine List.filter_eq_self.mpr (fun x hx => decide_eq_true ?_)
        have hle := hge r List.mem_cons_self
        rw [hlower] at hle
        exact (lt_of_le_of_lt hle (List.rel_of_pairwise_cons hasc hx)).ne'
      simp only [Bool.false_or, Bool.not_false, true_and, List.filter_cons, hrest, decide_eq_true_eq]
      by_cases hk : r.key = resumeAfter
      · rw [if_pos hk, if_neg (not_not.mpr hk)]
      · rw [if_neg hk, if_pos hk]

/-- The records that a scan merges, source by source. -/
def Database.scanRecords (db : Database) : List Record :=
  db.mutableTable.entries ++ ((db.immutable.map (fun imm => imm.memtable.entries)).getD [] ++
    tableRecords db.tables)

/-- A running database whose sources are sorted and agree about no sequence number of a
key. -/
structure ScanSnapshot (db : Database) : Prop where
  accepted : db.options.accepted = true
  running : db.isRunning = true
  ascending : ∀ t ∈ db.tables, Ascending t.records
  between : ∀ t ∈ db.tables, ∀ r ∈ t.records,
    t.metadata.minimumKey ≤ r.key ∧ r.key ≤ t.metadata.maximumKey
  keys : ∀ r ∈ db.scanRecords, r.key ≠ [] ∧ r.key.length ≤ db.options.maxKeySize
  distinct : DistinctRecords db.scanRecords
  version_word : db.version.id ≤ maxUInt64
  sequence_word : db.lastSequence ≤ maxUInt64

/-- A range that a scan accepts. -/
structure ScanBounds.Valid (bounds : ScanBounds) (o : Options) : Prop where
  first_le : bounds.first.length ≤ o.maxKeySize
  last_le : (bounds.last.getD []).length ≤ o.maxKeySize
  forward : ∀ e ∈ bounds.last, bounds.first ≤ e

/-- Where a scan may begin: at the start of the range, or behind a key of it. -/
def ScanBounds.StartsAt (bounds : ScanBounds) (o : Options) (resumeAfter : Bytes) : Prop :=
  resumeAfter = [] ∨ bounds.Resumable o resumeAfter

section

variable {bounds : ScanBounds} {resumeAfter : Bytes} {o : Options}

theorem memorySource_flatten (m : MemTable) : (memorySource bounds resumeAfter m).flatten =
    m.entries.filter (fun r => wanted bounds resumeAfter r.key) := by
  unfold memorySource
  split
  · rename_i hempty
    rw [List.isEmpty_iff.mp hempty]
    rfl
  · rw [List.flatten_singleton, MemTable.records_eq, scanRun_eq m.ascending]

theorem memorySource_ascending {m : MemTable} {run : List Record}
    (h : run ∈ memorySource bounds resumeAfter m) : Ascending run := by
  unfold memorySource at h
  split at h
  · cases h
  · rw [List.mem_singleton.mp h, MemTable.records_eq, scanRun_eq m.ascending]
    exact m.ascending.filter _

theorem ScanBounds.StartsAt.lower_le (hb : bounds.Valid o) (hr : bounds.StartsAt o resumeAfter) :
    (scanLower bounds resumeAfter).length ≤ o.maxKeySize := by
  rcases hr with rfl | hr
  · exact hb.first_le
  · rw [scanLower, if_neg (by simpa using hr.ne_nil)]
    exact hr.length_le

theorem ScanBounds.StartsAt.forward (hb : bounds.Valid o) (hr : bounds.StartsAt o resumeAfter)
    {e : Bytes} (he : bounds.last = some e) : scanLower bounds resumeAfter ≤ e := by
  rcases hr with rfl | hr
  · exact hb.forward e he
  · rw [scanLower, if_neg (by simpa using hr.ne_nil)]
    have hlt := hr.before_end
    rw [beforeEnd, he, decide_eq_true_eq] at hlt
    exact hlt.le

/-- Every table that meets the range gets an iterator. -/
theorem tableSources_eq (hb : bounds.Valid o) (hr : bounds.StartsAt o resumeAfter)
    (tables : List SSTableReader) : tableSources o bounds resumeAfter tables =
      .ok ((tables.filter (meetsRange bounds resumeAfter)).map
        (fun t => scanRun bounds resumeAfter t.records)) := by
  have hiterator : ∀ t, newIterator o bounds resumeAfter t =
      .ok (scanRun bounds resumeAfter t.records) := by
    intro t
    have hlower := hr.lower_le hb
    have hlast := hb.last_le
    have hback : bounds.last.any (fun e => decide (e < scanLower bounds resumeAfter)) = false := by
      cases he : bounds.last with
      | none => rfl
      | some e => simpa using hr.forward hb he
    unfold newIterator
    rw [if_neg (by omega), if_neg (by rw [hback]; exact Bool.false_ne_true)]
  unfold tableSources
  induction tables.filter (meetsRange bounds resumeAfter) with
  | nil => rfl
  | cons t ts ih => rw [List.mapM_cons, hiterator, ih]; rfl

/-- A table that does not meet the range has no record of it. -/
theorem filter_wanted_eq_nil {t : SSTableReader}
    (hbetween : ∀ r ∈ t.records, t.metadata.minimumKey ≤ r.key ∧ r.key ≤ t.metadata.maximumKey)
    (h : meetsRange bounds resumeAfter t = false) :
    t.records.filter (fun r => wanted bounds resumeAfter r.key) = [] := by
  refine List.filter_eq_nil_iff.mpr (fun r hr hw => ?_)
  rw [wanted_eq, Bool.and_eq_true, reached, Bool.and_eq_true, decide_eq_true_eq] at hw
  obtain ⟨⟨hlower, hend⟩, -⟩ := hw
  obtain ⟨hmin, hmax⟩ := hbetween r hr
  have hmeets : meetsRange bounds resumeAfter t = true := by
    rw [meetsRange, Bool.and_eq_true, Bool.not_eq_true', decide_eq_false_iff_not, not_lt]
    exact ⟨hlower.trans hmax, ScanBounds.beforeEnd_of_le hmin hend⟩
  rw [hmeets] at h
  cases h

theorem tableSources_flatten {tables : List SSTableReader}
    (hasc : ∀ t ∈ tables, Ascending t.records) (hbetween : ∀ t ∈ tables, ∀ r ∈ t.records,
      t.metadata.minimumKey ≤ r.key ∧ r.key ≤ t.metadata.maximumKey) :
    ((tables.filter (meetsRange bounds resumeAfter)).map
      (fun t => scanRun bounds resumeAfter t.records)).flatten =
        (tableRecords tables).filter (fun r => wanted bounds resumeAfter r.key) := by
  induction tables with
  | nil => rfl
  | cons t ts ih =>
    have hts := ih (fun u hu => hasc u (List.mem_cons_of_mem _ hu))
      (fun u hu => hbetween u (List.mem_cons_of_mem _ hu))
    rw [tableRecords_cons, List.filter_append, ← hts, List.filter_cons]
    cases hm : meetsRange bounds resumeAfter t with
    | true =>
      rw [if_pos rfl, List.map_cons, List.flatten_cons, scanRun_eq (hasc t List.mem_cons_self)]
    | false =>
      rw [filter_wanted_eq_nil (hbetween t List.mem_cons_self) hm]
      simp

end

/-! ## One page -/

theorem Visible.of_filter {rs : List Record} {p : Bytes → Bool} {es : List ScanEntry}
    (h : Visible (rs.filter (fun r => p r.key)) (fun _ => true) es) : Visible rs p es where
  ascending := h.ascending
  mem := by
    intro e
    rw [h.mem e]
    simp only [isNewest_filter, true_and, and_assoc, exists_and_left]

/-- The entries of a range are determined by its records. -/
theorem Visible.unique {rs : List Record} {p : Bytes → Bool} {es es' : List ScanEntry}
    (h : Visible rs p es) (h' : Visible rs p es') : es = es' := by
  have hnodup : ∀ {xs : List ScanEntry}, Visible rs p xs → xs.Nodup := fun hx =>
    hx.ascending.imp (fun hab he => hab.ne (congrArg ScanEntry.key he))
  have hperm : es.Perm es' := (List.perm_ext_iff_of_nodup (hnodup h) (hnodup h')).mpr
    (fun e => by rw [h.mem e, h'.mem e])
  exact hperm.eq_of_pairwise (fun a b _ _ hab hba => absurd hba hab.asymm) h.ascending h'.ascending

/-- A range without keys. -/
theorem visible_empty_range {rs : List Record} {bounds : ScanBounds} {resumeAfter : Bytes}
    {o : Options} (hr : bounds.StartsAt o resumeAfter) (h : bounds.last = some bounds.first) :
    Visible rs (wanted bounds resumeAfter) [] where
  ascending := List.Pairwise.nil
  mem := by
    intro e
    constructor
    · intro he
      cases he
    · rintro ⟨hw, -⟩
      rw [wanted_eq, Bool.and_eq_true, reached, Bool.and_eq_true, decide_eq_true_eq] at hw
      obtain ⟨⟨hlower, hend⟩, -⟩ := hw
      have hlt : e.key < bounds.first := by
        rwa [ScanBounds.beforeEnd, h, decide_eq_true_eq] at hend
      have hfirst : bounds.first ≤ scanLower bounds resumeAfter := by
        rcases hr with rfl | hr
        · exact le_refl _
        · rw [scanLower, if_neg (by simpa using hr.ne_nil)]
          exact hr.first_le
      exact absurd (hfirst.trans hlower) (not_le.mpr hlt)

/-- A scan finds the entries that are left of its range, up to one past its limit. -/
theorem scanFrom_eq {db : Database} (h : ScanSnapshot db) {bounds : ScanBounds}
    (hb : bounds.Valid db.options) {resumeAfter : Bytes}
    (hr : bounds.StartsAt db.options resumeAfter) (limit : Nat) :
    ∃ es stats, Visible db.scanRecords (wanted bounds resumeAfter) es ∧
      scanFrom db bounds limit resumeAfter =
        scanFinish db bounds limit (es.take (limit + 1)) stats := by
  by_cases hempty : bounds.last = some bounds.first
  · refine ⟨[], {}, visible_empty_range hr hempty, ?_⟩
    rw [scanFrom, if_pos hempty]
    rfl
  rw [scanFrom, if_neg hempty]
  dsimp only
  rw [tableSources_eq hb hr]
  dsimp only
  generalize hmemory : memorySource bounds resumeAfter db.mutableTable ++
    (db.immutable.map (fun imm => memorySource bounds resumeAfter imm.memtable)).getD [] = memory
  generalize htables : (db.tables.filter (meetsRange bounds resumeAfter)).map
    (fun t => scanRun bounds resumeAfter t.records) = tables
  have hflatten : (memory ++ tables).flatten =
      db.scanRecords.filter (fun r => wanted bounds resumeAfter r.key) := by
    rw [List.flatten_append, ← htables, tableSources_flatten h.ascending h.between, ← hmemory,
      List.flatten_append, memorySource_flatten, Database.scanRecords, List.filter_append,
      List.filter_append, List.append_assoc]
    cases db.immutable with
    | none => rfl
    | some imm =>
      rw [Option.map_some, Option.map_some, Option.getD_some, Option.getD_some,
        memorySource_flatten]
  have hsorted : ∀ run ∈ memory ++ tables, Ascending run := by
    intro run hrun
    rcases List.mem_append.mp hrun with hrun | hrun
    · rw [← hmemory] at hrun
      rcases List.mem_append.mp hrun with hrun | hrun
      · exact memorySource_ascending hrun
      · cases himm : db.immutable with
        | none =>
          rw [himm] at hrun
          cases hrun
        | some imm =>
          rw [himm] at hrun
          exact memorySource_ascending hrun
    · rw [← htables] at hrun
      obtain ⟨t, ht, rfl⟩ := List.mem_map.mp hrun
      have hasc := h.ascending t (List.mem_of_mem_filter ht)
      rw [scanRun_eq hasc]
      exact hasc.filter _
  have hpending := pending_startCursors (memory ++ tables)
  have hdistinct : DistinctRecords (pending (startCursors (memory ++ tables))) := by
    rw [hpending, hflatten]
    exact h.distinct.filter _
  obtain ⟨es, hes, hloop⟩ := scanLoop_eq limit (sorted_startCursors hsorted) hdistinct
    (by rw [hpending])
  rw [hpending, hflatten] at hes
  obtain ⟨stats, hrun⟩ := hloop []
    { sourcesConsidered := (memory ++ tables).length, tablesConsidered := tables.length }
  refine ⟨es, stats, hes.of_filter, ?_⟩
  rw [hrun]
  rfl

end MiniKV
