import MiniKV.Compaction.Plan

/-!
# What a compaction leaves

When the outputs take the place of the inputs, every key shows what it showed
before, although tombstones are gone: no older record of their keys is left
behind. The edit is accepted, and afterwards level zero is empty and the ranges
of level one are again disjoint.
-/

namespace MiniKV

open Lib

/-! ## Values -/

/-- Replacing records by the survivors of their merge changes no value, as long as the
other records of their keys are newer. -/
theorem shown_replace {rest inputs outputs : List Record} (hin : DistinctRecords inputs)
    (hout : Ascending outputs) (hmem : ∀ r, r ∈ outputs ↔ Survives true inputs r)
    (hnewer : ∀ r ∈ rest, ∀ s ∈ inputs, s.key = r.key → s.sequence ≤ r.sequence) (k : Bytes) :
    shown (rest ++ outputs) k = shown (rest ++ inputs) k := by
  have hsub : ∀ r ∈ outputs, r ∈ inputs := fun r hr => ((hmem r).mp hr).1.mem
  have hrest : newestRecord k (rest ++ outputs) =
      (newestRecord k rest).or (newestRecord k outputs) :=
    newest_append_of_le (fun r hr hk s hs hsk =>
      hnewer r hr s (hsub s hs) (hsk.trans hk.symm))
  have hrest' : newestRecord k (rest ++ inputs) =
      (newestRecord k rest).or (newestRecord k inputs) :=
    newest_append_of_le (fun r hr hk s hs hsk => hnewer r hr s hs (hsk.trans hk.symm))
  unfold shown
  rw [hrest, hrest']
  cases newestRecord k rest with
  | some r => rfl
  | none =>
    simp only [Option.none_or]
    have hdist : DistinctRecords outputs := distinct_of_sorted hout
    cases hw : newestRecord k inputs with
    | none =>
      have hnone : newestRecord k outputs = none :=
        newest_eq_none.mpr (fun r hr => newest_eq_none.mp hw r (hsub r hr))
      rw [hnone]
    | some w =>
      have hn := newest_isNewest hw
      have hkey := hn.key_eq
      by_cases hd : w.type = .deletion
      · -- the tombstone is dropped, and nothing else of its key survives
        have hnone : newestRecord k outputs = none := by
          refine newest_eq_none.mpr (fun r hr hk => ?_)
          obtain ⟨hr', hdrop⟩ := (hmem r).mp hr
          have hrn : newestRecord k inputs = some r := by
            rw [newest_eq_some hin, ← hk]
            exact hr'
          rw [hw] at hrn
          exact hdrop ⟨Option.some.inj hrn ▸ hd, rfl⟩
        rw [hnone]
        simp [Record.visible, hd]
      · have hw' : w ∈ outputs :=
          (hmem w).mpr ⟨hkey.symm ▸ hn, fun hc => hd hc.1⟩
        have hsome : newestRecord k outputs = some w := by
          rw [newest_eq_some hdist]
          exact ⟨hw', hkey, fun x hx hxk => hn.le x (hsub x hx) hxk⟩
        rw [hsome]

/-! ## Output readers -/

/-- Readers of freshly written tables: one for each MemTable, numbered in a row. -/
inductive OutputReaders (o : FormatOptions) : Nat → List MemTable → List SSTableReader → Prop
  | nil (n : Nat) : OutputReaders o n [] []
  | cons {n : Nat} {m : MemTable} {t : SSTableReader} {ms : List MemTable}
      {ts : List SSTableReader} (coherent : t.Coherent o) (number : t.generation = n)
      (records : t.records = m.entries) (rest : OutputReaders o (n + 1) ms ts) :
      OutputReaders o n (m :: ms) (t :: ts)

namespace OutputReaders

variable {o : FormatOptions} {n : Nat} {ms : List MemTable} {ts : List SSTableReader}

theorem length_eq (h : OutputReaders o n ms ts) : ts.length = ms.length := by
  induction h with
  | nil => rfl
  | cons _ _ _ _ ih => rw [List.length_cons, List.length_cons, ih]

theorem coherent (h : OutputReaders o n ms ts) : ∀ t ∈ ts, t.Coherent o := by
  induction h with
  | nil => intro t ht; cases ht
  | cons hc _ _ _ ih =>
    intro t ht
    rcases List.mem_cons.mp ht with rfl | ht
    · exact hc
    · exact ih t ht

theorem tableRecords_eq (h : OutputReaders o n ms ts) : tableRecords ts = outputRecords ms := by
  induction h with
  | nil => rfl
  | cons _ _ hr _ ih => rw [tableRecords_cons, ih, hr]; rfl

theorem numbers (h : OutputReaders o n ms ts) :
    ts.Pairwise (fun a b => a.generation < b.generation) ∧
      ∀ t ∈ ts, n ≤ t.generation ∧ t.generation < n + ts.length := by
  induction h with
  | nil => exact ⟨List.Pairwise.nil, fun t ht => by cases ht⟩
  | @cons n m t ms ts _ hn _ _ ih =>
    obtain ⟨hp, hb⟩ := ih
    refine ⟨List.pairwise_cons.mpr ⟨fun u hu => ?_, hp⟩, fun u hu => ?_⟩
    · have := hb u hu
      omega
    · rw [List.length_cons]
      rcases List.mem_cons.mp hu with rfl | hu
      · omega
      · have := hb u hu
        omega

/-- The ranges of outputs in key order follow one another. -/
theorem ranges (h : OutputReaders o n ms ts) (ha : Ascending (outputRecords ms)) :
    ts.Pairwise (fun a b => a.metadata.maximumKey < b.metadata.minimumKey) := by
  induction h with
  | nil => exact List.Pairwise.nil
  | @cons n m t ms ts hc _ hr hrest ih =>
    obtain ⟨-, htail, hcross⟩ := List.pairwise_append.mp
      (show Ascending (m.entries ++ outputRecords ms) from ha)
    refine List.pairwise_cons.mpr ⟨fun u hu => ?_, ih htail⟩
    obtain ⟨x, hx, hxk⟩ := lastKey_mem hc.ne_nil
    have huc := hrest.coherent u hu
    obtain ⟨y, hy, hyk⟩ := firstKey_mem huc.ne_nil
    have hym : y ∈ outputRecords ms := by
      rw [← hrest.tableRecords_eq]
      exact mem_tableRecords.mpr ⟨u, hu, hy⟩
    rw [hc.summary, huc.summary]
    simp only [tableSummary]
    rw [← hxk, ← hyk]
    exact hcross x (hr ▸ hx) y hym

end OutputReaders

/-- A reader's metadata has the shape that a Version asks for. -/
theorem SSTableReader.Coherent.wellFormed {o : FormatOptions} {t : SSTableReader}
    (h : t.Coherent o) {level next : Nat} (hl : level ≤ 1) (h0 : t.generation ≠ 0)
    (hn : t.generation < next) :
    (VersionTable.mk level t.metadata).wellFormed o next = true := by
  have hpos := List.length_pos_of_ne_nil h.ne_nil
  have hseq : ∀ r ∈ t.records, 0 < r.sequence := fun r hr => (h.valid r hr).sequence_pos
  obtain ⟨a, ha, hak⟩ := firstKey_mem h.ne_nil
  obtain ⟨b, hb, hbk⟩ := lastKey_mem h.ne_nil
  have hmin : t.metadata.minimumKey = a.key := by rw [h.summary]; exact hak.symm
  have hmax : t.metadata.maximumKey = b.key := by rw [h.summary]; exact hbk.symm
  have hminSeq : t.metadata.minimumSequence = minimumSequence t.records := by rw [h.summary]; rfl
  have hmaxSeq : t.metadata.maximumSequence = maximumSequence t.records := by rw [h.summary]; rfl
  have hsize := h.size
  have hcount := h.recordCount
  have hms := minimumSequence_pos hseq
  have hle := (MiniKV.minimumSequence_le ha).trans (MiniKV.le_maximumSequence ha)
  rw [VersionTable.wellFormed_iff]
  refine ⟨hl, h0, hn, by dsimp only; omega, by dsimp only; omega, by dsimp only; omega,
    by dsimp only; omega, ?_, ?_, ?_⟩
  · rw [hmin]; exact (h.valid a ha).key_le
  · rw [hmax]; exact (h.valid b hb).key_le
  · rw [hmin]; exact h.le_maximumKey ha

/-! ## The Version afterwards -/

section

variable {o : FormatOptions} {v : Version} {ts : List SSTableReader} {c : CompactionState}

theorem mem_inputsOf {t : SSTableReader} :
    t ∈ inputsOf c ts ↔ t ∈ ts ∧ t.generation ∈ c.inputFileNumbers := by
  simp [inputsOf]

theorem mem_restOf {t : SSTableReader} :
    t ∈ restOf c ts ↔ t ∈ ts ∧ t.generation ∉ c.inputFileNumbers := by
  simp [restOf]

/-- The tables with the numbers of the inputs are the ones that were chosen. -/
theorem mem_inputs_iff (hv : v.Valid o) {range : Bytes × Bytes}
    (hn : c.inputFileNumbers =
      (v.tables.filter (isCompactionInput range)).map VersionTable.generation)
    {t : VersionTable} (ht : t ∈ v.tables) :
    t.generation ∈ c.inputFileNumbers ↔ isCompactionInput range t = true := by
  rw [hn]
  constructor
  · intro h
    obtain ⟨u, hu, he⟩ := List.mem_map.mp h
    obtain ⟨hu, hin⟩ := List.mem_filter.mp hu
    have : u = t := List.inj_on_of_nodup_map hv.distinct hu ht he
    exact this ▸ hin
  · intro h
    exact List.mem_map_of_mem (List.mem_filter.mpr ⟨ht, h⟩)

/-- Every kept table is a level-one table on one side of all input records. -/
theorem PlanOf.kept_side (hinv : TablesInv o v ts) (hp : PlanOf v ts c) {t : VersionTable}
    (ht : t ∈ v.tables) (hout : t.generation ∉ c.inputFileNumbers) :
    t.level = 1 ∧
      ((∀ s ∈ tableRecords (inputsOf c ts), t.metadata.maximumKey < s.key) ∨
        (∀ s ∈ tableRecords (inputsOf c ts), s.key < t.metadata.minimumKey)) := by
  obtain ⟨range, hr, hn⟩ := hp.numbers
  have hmem := fun {u : VersionTable} (hu : u ∈ v.tables) => mem_inputs_iff hinv.valid hn hu
  have hfalse : isCompactionInput range t = false := by
    rw [hmem ht] at hout
    simpa using hout
  -- an input record lies within the range of its table
  have hbounds : ∀ s ∈ tableRecords (inputsOf c ts), ∃ u ∈ v.tables,
      isCompactionInput range u = true ∧ u.metadata.minimumKey ≤ s.key ∧
        s.key ≤ u.metadata.maximumKey := by
    intro s hs
    obtain ⟨x, hx, hsx⟩ := mem_tableRecords.mp hs
    obtain ⟨hxt, hxn⟩ := mem_inputsOf.mp hx
    obtain ⟨u, hu, he⟩ := hinv.aligned.exists_table hxt
    have hgen : u.generation = x.generation := by rw [VersionTable.generation, he]
    refine ⟨u, hu, (hmem hu).mp (hgen ▸ hxn), ?_, ?_⟩
    · rw [he]; exact (hinv.coherent x hxt).minimumKey_le hsx
    · rw [he]; exact (hinv.coherent x hxt).le_maximumKey hsx
  obtain ⟨hlevel, hside⟩ := separated hinv.valid hr ht hfalse
  refine ⟨hlevel, ?_⟩
  rcases hside with h | h
  · refine Or.inl (fun s hs => ?_)
    obtain ⟨u, hu, hin, hlo, -⟩ := hbounds s hs
    exact (h u hu hin).trans_le hlo
  · refine Or.inr (fun s hs => ?_)
    obtain ⟨u, hu, hin, -, hhi⟩ := hbounds s hs
    exact hhi.trans_lt (h u hu hin)

theorem PlanOf.keys_ne (hinv : TablesInv o v ts) (hp : PlanOf v ts c) {r s : Record}
    (hr : r ∈ tableRecords (restOf c ts)) (hs : s ∈ tableRecords (inputsOf c ts)) :
    s.key ≠ r.key := by
  obtain ⟨x, hx, hrx⟩ := mem_tableRecords.mp hr
  obtain ⟨hxt, hxn⟩ := mem_restOf.mp hx
  obtain ⟨t, ht, he⟩ := hinv.aligned.exists_table hxt
  have hgen : t.generation = x.generation := by rw [VersionTable.generation, he]
  have hlo : t.metadata.minimumKey ≤ r.key := by
    rw [he]; exact (hinv.coherent x hxt).minimumKey_le hrx
  have hhi : r.key ≤ t.metadata.maximumKey := by
    rw [he]; exact (hinv.coherent x hxt).le_maximumKey hrx
  rcases (hp.kept_side hinv ht (hgen ▸ hxn)).2 with h | h
  · exact (hhi.trans_lt (h s hs)).ne'
  · exact ((h s hs).trans_le hlo).ne

theorem distinct_split (h : DistinctRecords (tableRecords ts)) :
    DistinctRecords (tableRecords (restOf c ts) ++ tableRecords (inputsOf c ts)) := by
  rw [← tableRecords_append]
  exact h.perm (tableRecords_perm (((inputsOf_restOf_perm c ts).symm.trans
    List.perm_append_comm)))

/-- The outputs show what the inputs showed. -/
theorem PlanOf.shown_eq (hinv : TablesInv o v ts) (hp : PlanOf v ts c)
    (hout : tableRecords c.publishedOutputs = outputRecords c.outputMemtables) (k : Bytes) :
    shown (tableRecords (restOf c ts ++ c.publishedOutputs)) k = shown (tableRecords ts) k := by
  have hd := distinct_split (c := c) hinv.distinct
  have hin : DistinctRecords (tableRecords (inputsOf c ts)) := (List.pairwise_append.mp hd).2.1
  have hperm : (tableRecords (restOf c ts) ++ tableRecords (inputsOf c ts)).Perm
      (tableRecords ts) := by
    rw [← tableRecords_append]
    exact tableRecords_perm (List.perm_append_comm.trans (inputsOf_restOf_perm c ts))
  have hsame : shown (tableRecords (restOf c ts) ++ tableRecords (inputsOf c ts)) k =
      shown (tableRecords ts) k := by
    unfold shown
    rw [newestRecord, newest_perm hd hperm]
  rw [tableRecords_append, hout, ← hsame]
  exact shown_replace hin hp.build.ascending hp.build.mem
    (fun r hr s hs hk => absurd hk (hp.keys_ne hinv hr hs)) k

/-! ## The edit -/

/-- The tables of the Version that the edit of a compaction leaves in place. -/
private theorem kept_forall₂ {vts : List VersionTable}
    (h : List.Forall₂ (fun (vt : VersionTable) (t : SSTableReader) => vt.metadata = t.metadata)
      vts ts) (numbers : List Nat) :
    List.Forall₂ (fun (vt : VersionTable) (t : SSTableReader) => vt.metadata = t.metadata)
      (vts.filter (fun t => !numbers.contains t.generation))
      (ts.filter (fun t => !numbers.contains t.generation)) := by
  induction h with
  | nil => exact List.Forall₂.nil
  | @cons vt t _ _ hm _ ih =>
    have hg : vt.generation = t.generation := by rw [VersionTable.generation, hm]
    by_cases hin : t.generation ∈ numbers
    · rw [List.filter_cons_of_neg (by simp [hg, hin]), List.filter_cons_of_neg (by simp [hin])]
      exact ih
    · rw [List.filter_cons_of_pos (by simp [hg, hin]), List.filter_cons_of_pos (by simp [hin])]
      exact List.Forall₂.cons hm ih

private theorem added_forall₂ (ts : List SSTableReader) :
    List.Forall₂ (fun (vt : VersionTable) (t : SSTableReader) => vt.metadata = t.metadata)
      (ts.map (fun t => { level := 1, metadata := t.metadata })) ts := by
  induction ts with
  | nil => exact List.Forall₂.nil
  | cons t ts ih => exact List.Forall₂.cons rfl ih

/-- The tables of the Version after the compaction, in the order they have there. -/
def compactedTables (v : Version) (c : CompactionState) : List VersionTable :=
  v.kept (compactionEdit c) ++ (compactionEdit c).addedTables

theorem compactedTables_forall₂ (h : Aligned v ts) :
    List.Forall₂ (fun (vt : VersionTable) (t : SSTableReader) => vt.metadata = t.metadata)
      (compactedTables v c) (restOf c ts ++ c.publishedOutputs) :=
  List.rel_append (kept_forall₂ h _) (added_forall₂ _)

theorem mem_compactedTables {t : VersionTable} :
    t ∈ compactedTables v c ↔ (t ∈ v.tables ∧ t.generation ∉ c.inputFileNumbers) ∨
      ∃ r ∈ c.publishedOutputs, t = { level := 1, metadata := r.metadata } := by
  rw [compactedTables, List.mem_append, Version.kept, List.mem_filter]
  simp only [compactionEdit, List.mem_map, eq_comm (b := t)]
  simp

/-- What a compaction knows once its outputs have been written. -/
structure Written (o : FormatOptions) (v : Version) (ts : List SSTableReader)
    (c : CompactionState) : Prop extends PlanOf v ts c where
  outputs : OutputReaders o v.nextFileNumber c.outputMemtables c.publishedOutputs

theorem Written.generations (hinv : TablesInv o v ts) (hw : Written o v ts c) :
    (compactedTables v c).Pairwise (fun a b => a.generation < b.generation) := by
  obtain ⟨hsorted, hbounds⟩ := hw.outputs.numbers
  have hstrict : v.tables.Pairwise (fun a b => a.generation < b.generation) := by
    have hne : v.tables.Pairwise (fun a b => a.generation ≠ b.generation) :=
      List.pairwise_map.mp hinv.valid.distinct
    exact (hinv.sorted.and hne).imp (fun h => lt_of_le_of_ne h.1 h.2)
  refine List.pairwise_append.mpr ⟨hstrict.sublist List.filter_sublist,
    List.pairwise_map.mpr hsorted, fun a ha b hb => ?_⟩
  have hav := (List.mem_filter.mp ha).1
  have hlt := (VersionTable.wellFormed_iff.mp (hinv.valid.tables a hav)).2.2.1
  obtain ⟨r, hr, rfl⟩ := List.mem_map.mp hb
  exact hlt.trans_le (hbounds r hr).1

theorem Written.next_eq (hw : Written o v ts c) :
    (compactionEdit c).nextFileNumber.getD v.nextFileNumber =
      v.nextFileNumber + c.outputMemtables.length := by
  have hlen := hw.outputs.length_eq
  unfold compactionEdit
  by_cases he : c.publishedOutputs = []
  · have hzero : c.outputMemtables.length = 0 := by rw [← hlen, he]; rfl
    rw [he, hzero]
    rfl
  · have : c.publishedOutputs.isEmpty = false := by simpa using he
    simp only [this, Bool.false_eq_true, if_false, Option.getD_some, hw.first, hlen]

theorem Written.candidate_eq (hinv : TablesInv o v ts) (hw : Written o v ts c) :
    v.candidate (compactionEdit c) (compactedTables v c) =
      { id := v.id + 1
        nextFileNumber := v.nextFileNumber + c.outputMemtables.length
        lastSequence := v.lastSequence
        tables := compactedTables v c } := by
  rw [Version.candidate, hw.next_eq,
    sortTables_of_sorted ((hw.generations hinv).imp (fun h => le_of_lt h))]
  rfl

/-- An output record is an input record. -/
theorem Written.output_mem (hw : Written o v ts c) {t : SSTableReader}
    (ht : t ∈ c.publishedOutputs) {r : Record} (hr : r ∈ t.records) :
    r ∈ tableRecords (inputsOf c ts) := by
  have hmem : r ∈ outputRecords c.outputMemtables := by
    rw [← hw.outputs.tableRecords_eq]
    exact mem_tableRecords.mpr ⟨t, ht, hr⟩
  exact ((hw.build.mem r).mp hmem).1.mem

theorem Written.levelOne_apart (hinv : TablesInv o v ts) (hw : Written o v ts c) :
    ((compactedTables v c).filter (·.level = 1)).Pairwise
      (fun a b => a.metadata.Apart b.metadata) := by
  rw [compactedTables, List.filter_append]
  refine List.pairwise_append.mpr ⟨?_, ?_, fun a ha b hb => ?_⟩
  · -- what is kept was disjoint before
    have hsub : ((v.kept (compactionEdit c)).filter (·.level = 1)).Sublist v.levelOne :=
      List.filter_sublist.filter _
    exact hinv.valid.levelOne.sublist hsub
  · have hr := hw.outputs.ranges hw.build.ascending
    refine List.Pairwise.sublist List.filter_sublist (List.pairwise_map.mpr ?_)
    exact hr.imp (fun h => Or.inl h)
  · obtain ⟨hav, hain⟩ := List.mem_filter.mp (List.mem_filter.mp ha).1
    have hout : a.generation ∉ c.inputFileNumbers := by simpa [compactionEdit] using hain
    obtain ⟨t, ht, rfl⟩ := List.mem_map.mp (List.mem_filter.mp hb).1
    have hc := hw.outputs.coherent t ht
    obtain ⟨x, hx, hxk⟩ := firstKey_mem hc.ne_nil
    obtain ⟨y, hy, hyk⟩ := lastKey_mem hc.ne_nil
    have hmin : t.metadata.minimumKey = x.key := by rw [hc.summary]; exact hxk.symm
    have hmax : t.metadata.maximumKey = y.key := by rw [hc.summary]; exact hyk.symm
    rcases (hw.toPlanOf.kept_side hinv hav hout).2 with h | h
    · refine Or.inl ?_
      rw [hmin]
      exact h x (hw.output_mem ht hx)
    · refine Or.inr ?_
      rw [hmax]
      exact h y (hw.output_mem ht hy)

theorem Written.valid (hinv : TablesInv o v ts) (hw : Written o v ts c) :
    (v.candidate (compactionEdit c) (compactedTables v c)).Valid o := by
  rw [hw.candidate_eq hinv]
  have hlen := hw.outputs.length_eq
  constructor
  case id_ne => exact Nat.succ_ne_zero _
  case next_ne =>
    have := hinv.valid.next_ne
    dsimp only
    omega
  case maxKeySize_ne => exact hinv.valid.maxKeySize_ne
  case tables =>
    intro t ht
    rcases mem_compactedTables.mp ht with ⟨htv, -⟩ | ⟨r, hr, rfl⟩
    · exact VersionTable.wellFormed_mono (hinv.valid.tables t htv) (Nat.le_add_right _ _)
    · have hb := hw.outputs.numbers.2 r hr
      have h0 := hinv.valid.next_ne
      exact (hw.outputs.coherent r hr).wellFormed (le_refl 1) (by omega) (by dsimp only; omega)
  case distinct =>
    exact List.pairwise_map.mpr ((hw.generations hinv).imp (fun h => h.ne))
  case levelOne => exact hw.levelOne_apart hinv
  case lastSequence =>
    intro t ht
    rcases mem_compactedTables.mp ht with ⟨htv, -⟩ | ⟨r, hr, rfl⟩
    · exact hinv.valid.lastSequence t htv
    · have hc := hw.outputs.coherent r hr
      have hmax : r.metadata.maximumSequence = maximumSequence r.records := by
        rw [hc.summary]; rfl
      dsimp only
      rw [hmax]
      refine maximumSequence_le (fun x hx => ?_)
      obtain ⟨u, hu, hxu⟩ := mem_tableRecords.mp (hw.output_mem hr hx)
      obtain ⟨hut, -⟩ := mem_inputsOf.mp hu
      obtain ⟨vt, hvt, he⟩ := hinv.aligned.exists_table hut
      have hle := hinv.valid.lastSequence vt hvt
      rw [he] at hle
      exact ((hinv.coherent u hut).le_maximumSequence hxu).trans hle

/-- `Version::Apply` accepts the edit of a compaction. -/
theorem Written.apply_eq (hinv : TablesInv o v ts) (hw : Written o v ts c)
    (hid : v.id ≠ maxUInt64) :
    v.apply o (compactionEdit c) =
      .ok (v.candidate (compactionEdit c) (compactedTables v c)) := by
  rw [Version.apply_eq_ok]
  refine ⟨?_, rfl⟩
  obtain ⟨range, -, hn⟩ := hw.numbers
  have hlive : ∀ n ∈ c.inputFileNumbers, ∃ t ∈ v.tables, t.generation = n := by
    intro n hm
    rw [hn] at hm
    obtain ⟨t, ht, he⟩ := List.mem_map.mp hm
    exact ⟨t, (List.mem_filter.mp ht).1, he⟩
  constructor
  case valid => exact hinv.valid
  case id_ne => exact hid
  case deletions_ne =>
    intro h0
    obtain ⟨t, ht, he⟩ := hlive 0 h0
    exact (VersionTable.wellFormed_iff.mp (hinv.valid.tables t ht)).2.1 he
  case deletions_nodup =>
    show c.inputFileNumbers.Nodup
    rw [hn]
    exact (List.filter_sublist.map _).nodup hinv.valid.distinct
  case deletions_live => exact hlive
  case added_ge =>
    intro t ht
    obtain ⟨r, hr, rfl⟩ := List.mem_map.mp ht
    exact (hw.outputs.numbers.2 r hr).1
  case added_nodup =>
    have h := (List.pairwise_append.mp (hw.generations hinv)).2.1
    exact List.pairwise_map.mpr (h.imp (fun h => h.ne))
  case result => exact hw.valid hinv
  case next_le =>
    rw [hw.next_eq]
    exact Nat.le_add_right _ _
  case last_le => exact le_refl _

theorem Written.liveTables_eq (hinv : TablesInv o v ts) (hw : Written o v ts c) :
    liveTables c ts = restOf c ts ++ c.publishedOutputs := by
  have hal := compactedTables_forall₂ (c := c) hinv.aligned
  have hgen : (compactedTables v c).map VersionTable.generation =
      (restOf c ts ++ c.publishedOutputs).map SSTableReader.generation :=
    Aligned.generations (v := { v with tables := compactedTables v c }) hal
  have hsorted := List.pairwise_map.mpr (hw.generations hinv)
  rw [hgen] at hsorted
  exact List.Pairwise.insertionSort_eq ((List.pairwise_map.mp hsorted).imp (fun h => le_of_lt h))

/-- The tables after the compaction are again in order. -/
theorem Written.tablesInv (hinv : TablesInv o v ts) (hw : Written o v ts c) :
    TablesInv o (v.candidate (compactionEdit c) (compactedTables v c)) (liveTables c ts) := by
  have hlive := hw.liveTables_eq hinv
  constructor
  case valid => exact hw.valid hinv
  case aligned =>
    rw [hw.candidate_eq hinv, hlive]
    exact compactedTables_forall₂ hinv.aligned
  case sorted =>
    rw [hw.candidate_eq hinv]
    exact (hw.generations hinv).imp (fun h => le_of_lt h)
  case coherent =>
    rw [hlive]
    intro t ht
    rcases List.mem_append.mp ht with ht | ht
    · exact hinv.coherent t (mem_restOf.mp ht).1
    · exact hw.outputs.coherent t ht
  case distinct =>
    have hd := distinct_split (c := c) hinv.distinct
    rw [hlive, tableRecords_append, hw.outputs.tableRecords_eq]
    refine List.pairwise_append.mpr ⟨(List.pairwise_append.mp hd).1,
      distinct_of_sorted hw.build.ascending, fun r hr s hs he => ?_⟩
    exact hw.toPlanOf.keys_ne hinv hr (((hw.build.mem s).mp hs).1.mem) he.1.symm

theorem Written.levelZero_eq (hinv : TablesInv o v ts) (hw : Written o v ts c) :
    (v.candidate (compactionEdit c) (compactedTables v c)).levelZero = [] := by
  rw [hw.candidate_eq hinv, Version.levelZero, List.filter_eq_nil_iff]
  intro t ht
  rcases mem_compactedTables.mp ht with ⟨htv, hout⟩ | ⟨r, -, rfl⟩
  · simp [(hw.toPlanOf.kept_side hinv htv hout).1]
  · simp

theorem Written.shown_live (hinv : TablesInv o v ts) (hw : Written o v ts c) (k : Bytes) :
    shown (tableRecords (liveTables c ts)) k = shown (tableRecords ts) k := by
  rw [hw.liveTables_eq hinv]
  exact hw.toPlanOf.shown_eq hinv hw.outputs.tableRecords_eq k

end

end MiniKV
