import MiniKV.Database
import MiniKV.Compaction.Build
import Mathlib.Data.List.Forall2
import Mathlib.Data.List.Nodup

/-!
# What a compaction takes in

`PrepareCompaction` picks every level-zero table and the level-one tables that
meet their common key range. The tables it leaves alone lie, each as a whole,
on one side of everything it picks: so no key is split between them, and the
outputs fit between them.
-/

namespace MiniKV

open Lib

/-- The readers are those of the tables of a Version, in the same order. -/
def Aligned (v : Version) (ts : List SSTableReader) : Prop :=
  List.Forall₂ (fun (vt : VersionTable) (t : SSTableReader) => vt.metadata = t.metadata)
    v.tables ts

/-- A Version with open readers for its tables. -/
structure TablesInv (o : FormatOptions) (v : Version) (ts : List SSTableReader) : Prop where
  valid : v.Valid o
  aligned : Aligned v ts
  sorted : v.tables.Pairwise generationLe
  coherent : ∀ t ∈ ts, t.Coherent o
  distinct : DistinctRecords (tableRecords ts)

theorem Aligned.generations {v : Version} {ts : List SSTableReader} (h : Aligned v ts) :
    v.tables.map VersionTable.generation = ts.map SSTableReader.generation := by
  unfold Aligned at h
  generalize v.tables = vts at h ⊢
  induction h with
  | nil => rfl
  | cons hm _ ih => rw [List.map_cons, List.map_cons, ih, VersionTable.generation, hm]

theorem Aligned.exists_table {v : Version} {ts : List SSTableReader} (h : Aligned v ts)
    {t : SSTableReader} (ht : t ∈ ts) : ∃ vt ∈ v.tables, vt.metadata = t.metadata := by
  unfold Aligned at h
  generalize v.tables = vts at h ⊢
  induction h with
  | nil => cases ht
  | cons hm _ ih =>
    rcases List.mem_cons.mp ht with rfl | ht
    · exact ⟨_, List.mem_cons_self, hm⟩
    · obtain ⟨vt, hvt, he⟩ := ih ht
      exact ⟨vt, List.mem_cons_of_mem _ hvt, he⟩

theorem Aligned.exists_reader {v : Version} {ts : List SSTableReader} (h : Aligned v ts)
    {vt : VersionTable} (hvt : vt ∈ v.tables) : ∃ t ∈ ts, vt.metadata = t.metadata := by
  unfold Aligned at h
  generalize v.tables = vts at h hvt
  induction h with
  | nil => cases hvt
  | cons hm _ ih =>
    rcases List.mem_cons.mp hvt with rfl | hvt
    · exact ⟨_, List.mem_cons_self, hm⟩
    · obtain ⟨t, ht, he⟩ := ih hvt
      exact ⟨t, List.mem_cons_of_mem _ ht, he⟩

/-! ## The range of level zero -/

private theorem foldl_range (ts : List VersionTable) (range : Bytes × Bytes) :
    let r := ts.foldl (fun range t =>
      (min range.1 t.metadata.minimumKey, max range.2 t.metadata.maximumKey)) range
    r.1 ≤ range.1 ∧ range.2 ≤ r.2 ∧
      ∀ t ∈ ts, r.1 ≤ t.metadata.minimumKey ∧ t.metadata.maximumKey ≤ r.2 := by
  induction ts generalizing range with
  | nil => exact ⟨le_refl _, le_refl _, fun t ht => by cases ht⟩
  | cons x xs ih =>
    obtain ⟨h1, h2, h3⟩ := ih (min range.1 x.metadata.minimumKey,
      max range.2 x.metadata.maximumKey)
    dsimp only at h1 h2 h3 ⊢
    rw [List.foldl_cons]
    refine ⟨h1.trans (min_le_left _ _), (le_max_left _ _).trans h2, fun t ht => ?_⟩
    rcases List.mem_cons.mp ht with rfl | ht
    · exact ⟨h1.trans (min_le_right _ _), (le_max_right _ _).trans h2⟩
    · exact h3 t ht

theorem levelZeroRange_bounds {ts : List VersionTable} {range : Bytes × Bytes}
    (h : levelZeroRange ts = some range) {t : VersionTable} (ht : t ∈ ts) :
    range.1 ≤ t.metadata.minimumKey ∧ t.metadata.maximumKey ≤ range.2 := by
  cases ts with
  | nil => cases h
  | cons x xs =>
    obtain rfl := Option.some.inj h
    obtain ⟨h1, h2, h3⟩ := foldl_range xs (x.metadata.minimumKey, x.metadata.maximumKey)
    rcases List.mem_cons.mp ht with rfl | ht
    · exact ⟨h1, h2⟩
    · exact h3 t ht

theorem levelZeroRange_eq_none {ts : List VersionTable} : levelZeroRange ts = none ↔ ts = [] := by
  cases ts <;> simp [levelZeroRange]

/-! ## Separation -/

theorem mem_levelZero {v : Version} {t : VersionTable} :
    t ∈ v.levelZero ↔ t ∈ v.tables ∧ t.level = 0 := by
  simp [Version.levelZero]

theorem mem_levelOne {v : Version} {t : VersionTable} :
    t ∈ v.levelOne ↔ t ∈ v.tables ∧ t.level = 1 := by
  simp [Version.levelOne]

theorem Version.Valid.apart {o : FormatOptions} {v : Version} (hv : v.Valid o)
    {a b : VersionTable} (ha : a ∈ v.levelOne) (hb : b ∈ v.levelOne) (hne : a ≠ b) :
    a.metadata.Apart b.metadata := by
  have hsymm : Std.Symm (fun a b : VersionTable => a.metadata.Apart b.metadata) :=
    ⟨fun _ _ h => h.symm⟩
  exact List.Pairwise.forall hv.levelOne ha hb hne

/-- A table that a compaction leaves alone lies on one side of all that it takes in. -/
theorem separated {o : FormatOptions} {v : Version} (hv : v.Valid o) {range : Bytes × Bytes}
    (hr : levelZeroRange v.levelZero = some range) {t : VersionTable} (ht : t ∈ v.tables)
    (hout : isCompactionInput range t = false) :
    t.level = 1 ∧
      ((∀ u ∈ v.tables, isCompactionInput range u = true →
          t.metadata.maximumKey < u.metadata.minimumKey) ∨
        (∀ u ∈ v.tables, isCompactionInput range u = true →
          u.metadata.maximumKey < t.metadata.minimumKey)) := by
  have hwf := VersionTable.wellFormed_iff.mp (hv.tables t ht)
  have hmin := hwf.2.2.2.2.2.2.2.2.2
  simp only [isCompactionInput, decide_eq_false_iff_not, not_or, not_and] at hout
  have hlevel : t.level = 1 := by
    have := hwf.1
    have := hout.1
    omega
  refine ⟨hlevel, ?_⟩
  have hmiss : t.metadata.maximumKey < range.1 ∨ range.2 < t.metadata.minimumKey := by
    by_cases h : range.1 ≤ t.metadata.maximumKey
    · exact Or.inr (not_le.mp (hout.2 hlevel h))
    · exact Or.inl (not_le.mp h)
  -- an input is in the range, or it is a level-one table that reaches into it
  have hinput : ∀ u ∈ v.tables, isCompactionInput range u = true →
      (range.1 ≤ u.metadata.minimumKey ∧ u.metadata.maximumKey ≤ range.2) ∨
        (range.1 ≤ u.metadata.maximumKey ∧ u.metadata.minimumKey ≤ range.2 ∧
          t.metadata.Apart u.metadata) := by
    intro u hu hi
    simp only [isCompactionInput, decide_eq_true_eq] at hi
    rcases hi with h0 | ⟨h1, hlo, hhi⟩
    · exact Or.inl (levelZeroRange_bounds hr (mem_levelZero.mpr ⟨hu, h0⟩))
    · refine Or.inr ⟨hlo, hhi, hv.apart (mem_levelOne.mpr ⟨ht, hlevel⟩)
        (mem_levelOne.mpr ⟨hu, h1⟩) ?_⟩
      rintro rfl
      exact hout.2 hlevel hlo hhi
  rcases hmiss with hlt | hlt
  · refine Or.inl (fun u hu hi => ?_)
    rcases hinput u hu hi with ⟨hlo, -⟩ | ⟨hlo, -, hap | hap⟩
    · exact hlt.trans_le hlo
    · exact hap
    · exact absurd (hap.trans_le hmin) (not_lt.mpr (hlt.le.trans hlo))
  · refine Or.inr (fun u hu hi => ?_)
    rcases hinput u hu hi with ⟨-, hhi⟩ | ⟨-, hhi, hap | hap⟩
    · exact hhi.trans_lt hlt
    · exact absurd (hmin.trans_lt hap) (not_lt.mpr (hhi.trans hlt.le))
    · exact hap

/-! ## Selecting the inputs -/

/-- What the selection returns: the readers of the chosen tables, in order. -/
structure Selected (range : Bytes × Bytes) (vts : List VersionTable) (ts : List SSTableReader)
    (inputs : List CompactionInput) : Prop where
  sublist : (inputs.map CompactionInput.table).Sublist ts
  numbers : inputs.map (fun i => i.table.generation) =
    (vts.filter (isCompactionInput range)).map VersionTable.generation
  sizes : inputs.map (fun i => i.table.metadata.fileSize) =
    (vts.filter (isCompactionInput range)).map (fun t => t.metadata.fileSize)
  levels : inputs.map CompactionInput.level =
    (vts.filter (isCompactionInput range)).map VersionTable.level

theorem selectInputs_ok {range : Bytes × Bytes} {bytes total : Nat} {vts : List VersionTable}
    {ts : List SSTableReader} {inputs : List CompactionInput}
    (ha : List.Forall₂ (fun (vt : VersionTable) (t : SSTableReader) => vt.metadata = t.metadata)
      vts ts)
    (h : selectInputs range bytes vts ts = .ok (inputs, total)) : Selected range vts ts inputs := by
  induction ha generalizing bytes total inputs with
  | nil =>
    rw [selectInputs] at h
    · obtain ⟨rfl, -⟩ := Prod.mk.inj (Except.ok.inj h)
      exact ⟨List.Sublist.refl _, rfl, rfl, rfl⟩
    · intro _ _ _ _ hc; cases hc
  | @cons vt t vts ts hm _ ih =>
    rw [selectInputs] at h
    obtain ⟨-, h⟩ := ite_error_eq_ok.mp h
    split at h
    · rename_i hout
      have hout' : isCompactionInput range vt = false := by simpa using hout
      obtain ⟨hsub, hnum, hsz, hlv⟩ := ih h
      refine ⟨hsub.cons _, ?_, ?_, ?_⟩ <;> rw [List.filter_cons_of_neg (by simp [hout'])]
      · exact hnum
      · exact hsz
      · exact hlv
    obtain ⟨-, h⟩ := ite_error_eq_ok.mp h
    split at h
    · cases h
    · rename_i hin _ _ rest total' hrest
      have hin' : isCompactionInput range vt = true := by simpa using hin
      obtain ⟨rfl, -⟩ := Prod.mk.inj (Except.ok.inj h)
      obtain ⟨hsub, hnum, hsz, hlv⟩ := ih hrest
      refine ⟨hsub.cons_cons _, ?_, ?_, ?_⟩ <;>
        rw [List.filter_cons_of_pos hin', List.map_cons, List.map_cons]
      · rw [hnum, VersionTable.generation, hm]
      · rw [hsz, hm]
      · rw [hlv]

/-- Aligned readers are refused only when the sizes of the inputs cannot be added up. -/
theorem selectInputs_error {range : Bytes × Bytes} {bytes : Nat} {vts : List VersionTable}
    {ts : List SSTableReader} {e : Status}
    (ha : List.Forall₂ (fun (vt : VersionTable) (t : SSTableReader) => vt.metadata = t.metadata)
      vts ts)
    (h : selectInputs range bytes vts ts = .error e) :
    e = .invalidArgument "compaction byte count overflows" ∧ maxUInt64 < bytes +
      ((vts.filter (isCompactionInput range)).map (fun t => t.metadata.fileSize)).sum := by
  induction ha generalizing bytes with
  | nil =>
    rw [selectInputs] at h
    · cases h
    · intro _ _ _ _ hc; cases hc
  | @cons vt t vts ts hm _ ih =>
    rw [selectInputs, if_neg (by rw [SSTableReader.generation, VersionTable.generation, hm]; simp)]
      at h
    split at h
    · rename_i hout
      rw [List.filter_cons_of_neg (by simpa using hout)]
      exact ih h
    rename_i hin
    rw [List.filter_cons_of_pos (by simpa using hin), List.map_cons, List.sum_cons]
    split at h
    · exact ⟨(Except.error.inj h).symm, by omega⟩
    split at h
    · rename_i hrest
      obtain rfl := Except.error.inj h
      obtain ⟨he, hlt⟩ := ih hrest
      exact ⟨he, by omega⟩
    · cases h

theorem selectInputs_sum {range : Bytes × Bytes} {bytes total : Nat} {vts : List VersionTable}
    {ts : List SSTableReader} {inputs : List CompactionInput}
    (ha : List.Forall₂ (fun (vt : VersionTable) (t : SSTableReader) => vt.metadata = t.metadata)
      vts ts) (hfits : ∀ t ∈ ts, t.metadata.fileSize ≤ maxUInt64) (hb : bytes ≤ maxUInt64)
    (h : selectInputs range bytes vts ts = .ok (inputs, total)) :
    bytes + (inputs.map (fun i => i.table.metadata.fileSize)).sum ≤ maxUInt64 := by
  induction ha generalizing bytes total inputs with
  | nil =>
    rw [selectInputs] at h
    · obtain ⟨rfl, -⟩ := Prod.mk.inj (Except.ok.inj h)
      simpa using hb
    · intro _ _ _ _ hc; cases hc
  | @cons vt t vts ts hm _ ih =>
    rw [selectInputs] at h
    obtain ⟨-, h⟩ := ite_error_eq_ok.mp h
    split at h
    · exact ih (fun u hu => hfits u (List.mem_cons_of_mem _ hu)) hb h
    split at h
    · cases h
    rename_i hroom
    split at h
    · cases h
    · rename_i rest total' hrest
      obtain ⟨rfl, -⟩ := Prod.mk.inj (Except.ok.inj h)
      have hsize : t.metadata.fileSize = vt.metadata.fileSize := by rw [hm]
      have hfit := hfits t List.mem_cons_self
      have := ih (fun u hu => hfits u (List.mem_cons_of_mem _ hu)) (by omega) hrest
      rw [List.map_cons, List.sum_cons, hsize]
      omega

/-! ## The plan -/

/-- The readers a pending compaction replaces, and those it keeps. -/
def inputsOf (c : CompactionState) (ts : List SSTableReader) : List SSTableReader :=
  ts.filter (fun t => c.inputFileNumbers.contains t.generation)

def restOf (c : CompactionState) (ts : List SSTableReader) : List SSTableReader :=
  ts.filter (fun t => !c.inputFileNumbers.contains t.generation)

theorem inputsOf_restOf_perm (c : CompactionState) (ts : List SSTableReader) :
    (inputsOf c ts ++ restOf c ts).Perm ts := List.filter_append_perm _ ts

theorem liveTables_perm (c : CompactionState) (ts : List SSTableReader) :
    (liveTables c ts).Perm (restOf c ts ++ c.publishedOutputs) :=
  List.perm_insertionSort _ _

/-- The tables that a compaction of a Version takes in. -/
def Version.compactionInputs (v : Version) : List VersionTable :=
  match levelZeroRange v.levelZero with
  | none => []
  | some range => v.tables.filter (isCompactionInput range)

theorem Version.compactionInputs_eq {v : Version} {range : Bytes × Bytes}
    (h : levelZeroRange v.levelZero = some range) :
    v.compactionInputs = v.tables.filter (isCompactionInput range) := by
  rw [Version.compactionInputs, h]

/-- What a pending compaction is to do, as it was planned on a Version. -/
structure PlanOf (v : Version) (ts : List SSTableReader) (c : CompactionState) : Prop where
  numbers : ∃ range, levelZeroRange v.levelZero = some range ∧
    c.inputFileNumbers =
      (v.tables.filter (isCompactionInput range)).map VersionTable.generation
  first : c.firstOutputFileNumber = v.nextFileNumber
  room : c.outputMemtables.length ≤ maxUInt64 - v.nextFileNumber
  build : BuildResult true (tableRecords (inputsOf c ts)) c.outputMemtables

/-- A compaction that has been prepared and not yet started. -/
structure Planned (v : Version) (ts : List SSTableReader) (c : CompactionState) : Prop
    extends PlanOf v ts c where
  paths : c.cleanupPaths = c.inputFileNumbers.map FileName.sst
  published : c.publishedOutputs = []
  outputBytes : c.stats.outputBytes = 0
  candidateReady : c.candidateReady = false
  versionPublished : c.versionPublished = false
  cleanupIndex : c.cleanupIndex = 0
  cleanupSynced : c.cleanupSynced = false
  advanced : c.walGenerationAdvanced = false

theorem Survives.congr {drop : Bool} {rs ss : List Record} (h : ∀ r, r ∈ rs ↔ r ∈ ss)
    {r : Record} : Survives drop rs r ↔ Survives drop ss r := by
  have hn : IsNewest Record.key Record.sequence rs r.key r ↔
      IsNewest Record.key Record.sequence ss r.key r := by
    constructor
    · rintro ⟨hm, hk, hle⟩
      exact ⟨(h r).mp hm, hk, fun x hx => hle x ((h x).mpr hx)⟩
    · rintro ⟨hm, hk, hle⟩
      exact ⟨(h r).mpr hm, hk, fun x hx => hle x ((h x).mp hx)⟩
  unfold Survives
  rw [hn]

/-- The chosen readers are the ones with the chosen numbers. -/
private theorem mem_selected {ts : List SSTableReader} {inputs : List CompactionInput}
    (hsub : (inputs.map CompactionInput.table).Sublist ts)
    (hnd : (ts.map SSTableReader.generation).Nodup) (t : SSTableReader) :
    t ∈ inputs.map CompactionInput.table ↔
      t ∈ ts ∧ t.generation ∈ inputs.map (fun i => i.table.generation) := by
  constructor
  · intro ht
    obtain ⟨i, hi, rfl⟩ := List.mem_map.mp ht
    exact ⟨hsub.subset ht, List.mem_map.mpr ⟨i, hi, rfl⟩⟩
  · rintro ⟨ht, hg⟩
    obtain ⟨i, hi, he⟩ := List.mem_map.mp hg
    have hit : i.table ∈ ts := hsub.subset (List.mem_map_of_mem hi)
    have : i.table = t := List.inj_on_of_nodup_map hnd hit ht he
    exact this ▸ List.mem_map_of_mem hi

theorem prepareCompaction_ok {db db' : Database}
    (hinv : TablesInv db.format db.version db.tables)
    (h : prepareCompaction db = .ok db') :
    (db.version.levelZero = [] ∧ db' = { db with lastCompactionStatistics := {} }) ∨
      ∃ c, Planned db.version db.tables c ∧ db' = { db with compaction := some c } := by
  unfold prepareCompaction at h
  obtain ⟨-, h⟩ := ite_error_eq_ok.mp h
  split at h
  · rename_i hrange
    exact Or.inl ⟨levelZeroRange_eq_none.mp hrange, (Except.ok.inj h).symm⟩
  rename_i range hrange
  split at h
  · cases h
  rename_i inputs inputBytes hselect
  split at h
  · cases h
  rename_i outputs build hbuild
  split at h
  · cases h
  rename_i hroom
  have hsel := selectInputs_ok hinv.aligned hselect
  have hcoh : ∀ i ∈ inputs, i.table.Coherent db.options.toFormatOptions := fun i hi =>
    hinv.coherent _ (hsel.sublist.subset (List.mem_map_of_mem hi))
  have hgen : (db.tables.map SSTableReader.generation).Nodup :=
    hinv.aligned.generations ▸ hinv.valid.distinct
  have hres := buildCompactionOutputs_ok hcoh hbuild
  refine Or.inr ⟨_, ⟨?_, ?_, rfl, rfl, rfl, rfl, rfl, rfl, rfl⟩, (Except.ok.inj h).symm⟩
  rotate_left
  · simp only [CompactionState.new, List.map_map]
    exact List.map_congr_left (fun i hi => (hcoh i hi).path_eq)
  constructor
  case numbers => exact ⟨range, hrange, hsel.numbers⟩
  case first => rfl
  case room =>
    simp only [CompactionState.new]
    omega
  case build =>
    refine ⟨hres.ascending, hres.ne_nil, fun r => ?_⟩
    refine (hres.mem r).trans (Survives.congr (fun x => ?_))
    rw [inputRecords, mem_tableRecords, mem_tableRecords]
    refine exists_congr (fun t => and_congr_left (fun _ => ?_))
    rw [mem_selected hsel.sublist hgen, inputsOf, List.mem_filter]
    simp [CompactionState.new]

/-- What is selected from tables in order can be merged. -/
theorem selectInputs_args {db : Database} {range : Bytes × Bytes} {inputs : List CompactionInput}
    {inputBytes : Nat} (hinv : TablesInv db.format db.version db.tables)
    (ho : db.options.accepted = true)
    (hlimit : db.options.compactionOutputSizeLimit ≤ maxUInt64)
    (hrange : levelZeroRange db.version.levelZero = some range)
    (hselect : selectInputs range 0 db.version.tables db.tables = .ok (inputs, inputBytes)) :
    CompactionArgs db.options inputs ∧ DistinctRecords (inputRecords inputs) := by
  have hsel := selectInputs_ok hinv.aligned hselect
  have hmem : ∀ i ∈ inputs, i.table ∈ db.tables := fun i hi =>
    hsel.sublist.subset (List.mem_map_of_mem hi)
  have hne : inputs ≠ [] := by
    -- the first level-zero table is among the inputs
    rintro rfl
    obtain ⟨t, ht⟩ := List.exists_mem_of_ne_nil db.version.levelZero
      (fun hnil => by rw [levelZeroRange_eq_none.mpr hnil] at hrange; cases hrange)
    obtain ⟨htv, hlevel⟩ := mem_levelZero.mp ht
    have hin : t ∈ db.version.tables.filter (isCompactionInput range) :=
      List.mem_filter.mpr ⟨htv, by simp [isCompactionInput, hlevel]⟩
    have hnil := List.map_eq_nil_iff.mp hsel.numbers.symm
    rw [hnil] at hin
    cases hin
  have hlevels : ∀ i ∈ inputs, i.level ≤ 1 := by
    intro i hi
    have hl : i.level ∈ inputs.map CompactionInput.level := List.mem_map_of_mem hi
    rw [hsel.levels] at hl
    obtain ⟨vt, hvt, he⟩ := List.mem_map.mp hl
    rw [← he]
    exact (VersionTable.wellFormed_iff.mp
      (hinv.valid.tables vt (List.mem_filter.mp hvt).1)).1
  have hgen : (db.tables.map SSTableReader.generation).Nodup :=
    hinv.aligned.generations ▸ hinv.valid.distinct
  have hnd : (inputs.map (fun i => i.table.generation)).Nodup := by
    have := (hsel.sublist.map SSTableReader.generation).nodup hgen
    rwa [List.map_map] at this
  have hsum := selectInputs_sum hinv.aligned (fun t ht => (hinv.coherent t ht).fits)
    (Nat.zero_le _) hselect
  have hcoh : ∀ i ∈ inputs, i.table.Coherent db.options.toFormatOptions := fun i hi =>
    hinv.coherent _ (hmem i hi)
  have hcount := length_inputRecords_le hcoh
  have hpos : db.options.compactionOutputSizeLimit ≠ 0 := by
    simp only [Options.accepted, decide_eq_true_eq] at ho
    exact ho.2.1
  exact ⟨⟨hne, Nat.pos_of_ne_zero hpos, hlimit, fun i hi => (hcoh i hi).readable, hlevels, hnd,
    by omega⟩, List.Pairwise.sublist (hsel.sublist.flatMap _) hinv.distinct⟩

/-- Tables in order are refused only when a count is exhausted. -/
theorem prepareCompaction_error {db : Database} {e : Status}
    (hinv : TablesInv db.format db.version db.tables) (hnone : db.compaction = none)
    (ho : db.options.accepted = true)
    (hlimit : db.options.compactionOutputSizeLimit ≤ maxUInt64)
    (h : prepareCompaction db = .error e) :
    (e = .invalidArgument "compaction byte count overflows" ∧
        maxUInt64 < (db.version.compactionInputs.map (fun t => t.metadata.fileSize)).sum) ∨
      e = .invalidArgument "compaction file numbers overflow" := by
  have hlen : db.tables.length = db.version.tables.length := hinv.aligned.length_eq.symm
  unfold prepareCompaction at h
  rw [if_neg (by simp [hnone, hlen])] at h
  split at h
  · cases h
  rename_i range hrange
  split at h
  · rename_i hselect
    obtain rfl := Except.error.inj h
    have hover := selectInputs_error hinv.aligned hselect
    rw [Nat.zero_add] at hover
    rw [Version.compactionInputs_eq hrange]
    exact Or.inl hover
  rename_i inputs inputBytes hselect
  obtain ⟨hargs, hdistinct⟩ := selectInputs_args hinv ho hlimit hrange hselect
  obtain ⟨⟨outputs, build⟩, hbuild⟩ := hargs.isOk hdistinct true
  rw [hbuild] at h
  dsimp only at h
  split at h
  · exact Or.inr (Except.error.inj h).symm
  · cases h

end MiniKV
