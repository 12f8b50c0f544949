import MiniKV.Consistency
import MiniKV.Sections.Members
import MiniKV.Storage.FaultFree

/-!
# A compaction from its plan to its end

`PrepareCompaction` and a run of `ContinueCompaction` in which no call of the
environment fails, from any tables that are in order. The sections of a compaction are
specified under every regime; here only the plan is needed, so nothing has to be
known of the logs or of the history of the directory.
-/

namespace MiniKV

open Lib

/-- The invariants that a plan rests on, and no others. -/
def planRegime : Regime where
  crashes := False
  single := False
  formats := fun _ => True
  origin := fun _ _ => False
  writes := fun _ _ _ => False
  ordered := False
  planned := True
  durable := False
  traced := False
  durable_imp := False.elim
  traced_imp := False.elim
  single_imp := False.elim

/-- A database with its tables in order, an open log, and nothing else in memory. -/
structure Compactable (db : Database) (st : Store) : Prop where
  accepted : db.options.accepted = true
  limit : db.options.compactionOutputSizeLimit ≤ maxUInt64
  empty : db.mutableTable.entries = []
  thawed : db.immutable = none
  idle : db.compaction = none
  tables : TablesInv db.format db.version db.tables
  /-- The fields of a Version are of 64 bits. -/
  words : db.version.representable = true
  wf : st.disk.Wf
  log : ∃ w, db.wal = some w ∧ w.status = .ok ∧ WalFile w.file st.disk

/-- What a compaction makes of a database. -/
structure Compacted (db d : Database) : Prop where
  tables : TablesInv d.format d.version d.tables
  applied : db.version.levelZero ≠ [] →
    ∃ edit, db.version.apply db.format edit = .ok d.version
  levelZero : d.version.levelZero = []
  levelOne : d.version.levelOne.Pairwise (fun a b => a.metadata.Apart b.metadata)
  numbers : ∀ t ∈ d.version.tables,
    t ∈ db.version.tables ∨ db.version.nextFileNumber ≤ t.generation
  lastSequence : d.version.lastSequence = db.version.lastSequence
  /-- Every read gives what it gave before. -/
  reads : ∀ k x, ValidKey db.format k → (Answers x (d.get k) ↔ Answers x (db.get k))
  /-- No tombstone is written. -/
  purged : ∀ t ∈ d.tables, t ∈ db.tables ∨ ∀ r ∈ t.records, r.type ≠ .deletion
  /-- A table beside the keys of level zero stays as it is. -/
  untouched : ∀ range, levelZeroRange db.version.levelZero = some range →
    ∀ t ∈ db.version.tables, isCompactionInput range t = false → t ∈ d.version.tables

section

variable {F : StorageFormat} {db d : Database} {st st' : Store}

theorem Compactable.steady (h : Compactable db st) :
    Steady F planRegime (sceneOf db st) db st := by
  obtain ⟨w, hw, hstatus, hfile⟩ := h.log
  have hnone : ∀ c, db.compaction ≠ some c := fun c hc => by
    rw [h.idle] at hc
    cases hc
  refine ⟨⟨rfl, ?_, h.wf, False.elim, False.elim, fun w' hw' => ?_, False.elim, False.elim,
    False.elim⟩, fun _ c hc => absurd hc (hnone c), fun _ hno => ?_, fun hs => hs.elim,
    fun w' hw' => ?_, fun c hc => absurd hc (hnone c), fun c hc => absurd hc (hnone c)⟩
  · refine ⟨h.accepted, h.tables.valid, h.tables.sorted, h.tables.coherent, h.tables.distinct,
      Or.inl h.tables.aligned, fun c hc => absurd hc (hnone c), False.elim, False.elim,
      fun _ => ⟨h.tables.aligned, fun imm himm => ?_⟩⟩
    rw [show db.contents.immutable = none from h.thawed] at himm
    cases himm
  · rw [← Option.some.inj (hw.symm.trans hw')]
    exact hfile
  · rw [hw] at hno
    cases hno
  · rw [← Option.some.inj (hw.symm.trans hw')]
    exact Or.inl hstatus

/-- A Version without tables on level zero is left as it is. -/
theorem Compacted.idle (hinv : TablesInv db.format db.version db.tables)
    (hzero : db.version.levelZero = []) (hf : d.format = db.format) (hv : d.version = db.version)
    (ht : d.tables = db.tables)
    (hreads : ∀ k x, ValidKey db.format k → (Answers x (d.get k) ↔ Answers x (db.get k))) :
    Compacted db d := by
  refine ⟨?_, fun hne => absurd hzero hne, ?_, ?_, fun t h => Or.inl ?_, by rw [hv], hreads,
    fun t h => Or.inl ?_, fun range hr => ?_⟩
  · rw [hf, hv, ht]
    exact hinv
  · rw [hv]
    exact hzero
  · rw [hv]
    exact hinv.valid.levelOne
  · rw [← hv]
    exact h
  · rw [← ht]
    exact h
  · rw [levelZeroRange_eq_none.mpr hzero] at hr
    cases hr

/-- The outputs have taken the place of the inputs. -/
theorem Compacted.written {c : CompactionState} (hinv : TablesInv db.format db.version db.tables)
    (hw : Written db.format db.version db.tables c) (hf : d.format = db.format)
    (happly : db.version.apply db.format (compactionEdit c) = .ok d.version)
    (ht : d.tables = liveTables c db.tables)
    (hreads : ∀ k x, ValidKey db.format k → (Answers x (d.get k) ↔ Answers x (db.get k))) :
    Compacted db d := by
  have hid := (Version.apply_eq_ok.mp happly).1.id_ne
  have hv : d.version = db.version.candidate (compactionEdit c) (compactedTables db.version c) :=
    Except.ok.inj (happly.symm.trans (hw.apply_eq hinv hid))
  have htables : d.version.tables = compactedTables db.version c := by
    rw [hv, hw.candidate_eq hinv]
  constructor
  case tables =>
    rw [hf, hv, ht]
    exact hw.tablesInv hinv
  case applied => exact fun _ => ⟨_, happly⟩
  case levelZero =>
    rw [hv]
    exact hw.levelZero_eq hinv
  case levelOne =>
    rw [hv]
    exact (hw.tablesInv hinv).valid.levelOne
  case numbers =>
    intro t hmem
    rw [htables] at hmem
    rcases mem_compactedTables.mp hmem with ⟨hold, -⟩ | ⟨r, hr, rfl⟩
    · exact Or.inl hold
    · exact Or.inr (hw.outputs.numbers.2 r hr).1
  case lastSequence => rw [hv, hw.candidate_eq hinv]
  case reads => exact hreads
  case purged =>
    intro t hmem
    rw [ht, hw.liveTables_eq hinv] at hmem
    rcases List.mem_append.mp hmem with hkept | hout
    · exact Or.inl (mem_restOf.mp hkept).1
    · refine Or.inr (fun r hr hdel => ?_)
      have hrec : r ∈ outputRecords c.outputMemtables := by
        rw [← hw.outputs.tableRecords_eq]
        exact mem_tableRecords.mpr ⟨t, hout, hr⟩
      exact ((hw.build.mem r).mp hrec).2 ⟨hdel, rfl⟩
  case untouched =>
    intro range hrange t hmem hbeside
    obtain ⟨range', hrange', hnumbers⟩ := hw.numbers
    obtain rfl := Option.some.inj (hrange.symm.trans hrange')
    rw [htables]
    refine mem_compactedTables.mpr (Or.inl ⟨hmem, fun hin => ?_⟩)
    rw [(mem_inputs_iff hinv.valid hnumbers hmem).mp hin] at hbeside
    cases hbeside

end

/-! ## The limits of the formats -/

/-- The length of the MANIFEST record of an output. -/
def outputRecordSize (m : MemTable) : Nat :=
  kManifestTableFixedSize + ((firstKey m.entries).length + (lastKey m.entries).length)

/-- What a planned compaction writes stays within the limits of the formats: every output is a
table, none is longer than a file can be, and the tables that are then live fit in a MANIFEST. -/
structure CompactionState.Fits (F : StorageFormat) (o : FormatOptions) (v : Version)
    (c : CompactionState) : Prop where
  tables : ∃ files, prepareOutputs F o c.firstOutputFileNumber c.outputMemtables = .ok files ∧
    (∀ f ∈ files, f.encoded.length ≤ maximumFileSize) ∧
    (files.map (fun f => f.encoded.length)).sum ≤ maxUInt64
  manifest : kManifestHeaderSize + (((v.kept (compactionEdit c)).map manifestRecordSize).sum +
    (c.outputMemtables.map outputRecordSize).sum) ≤ kMaximumManifestSize

instance {F : StorageFormat} {o : FormatOptions} {v : Version} {c : CompactionState} :
    Decidable (c.Fits F o v) :=
  decidable_of_iff
    ((prepareOutputs F o c.firstOutputFileNumber c.outputMemtables).toOption.any (fun files =>
        (∀ f ∈ files, f.encoded.length ≤ maximumFileSize) ∧
          (files.map (fun f => f.encoded.length)).sum ≤ maxUInt64) = true ∧
      kManifestHeaderSize + (((v.kept (compactionEdit c)).map manifestRecordSize).sum +
        (c.outputMemtables.map outputRecordSize).sum) ≤ kMaximumManifestSize) <| by
    refine ⟨fun ⟨ht, hm⟩ => ⟨?_, hm⟩, fun h => ⟨?_, h.manifest⟩⟩
    · obtain ⟨files, hfiles, hall⟩ := (Option.any_eq_true _ _).mp ht
      exact ⟨files, toOption_eq_some.mp hfiles, of_decide_eq_true hall⟩
    · obtain ⟨files, hfiles, hall⟩ := h.tables
      exact (Option.any_eq_true _ _).mpr
        ⟨files, toOption_eq_some.mpr hfiles, decide_eq_true hall⟩

theorem SSTableReader.Coherent.representable {o : FormatOptions} {t : SSTableReader}
    (h : t.Coherent o) (hgen : t.generation ≤ maxUInt64)
    (hlast : t.metadata.maximumSequence ≤ maxUInt64) :
    VersionTable.representable { level := 1, metadata := t.metadata } = true := by
  obtain ⟨r, hr⟩ := List.exists_mem_of_ne_nil t.records h.ne_nil
  have hcount := h.recordCount
  have hsize := h.size
  have hfits := h.fits
  have hmin := h.minimumSequence_le hr
  have hmax := h.le_maximumSequence hr
  simp only [VersionTable.representable, decide_eq_true_eq]
  exact ⟨by decide, hgen, hfits, by omega, by omega, hlast⟩

/-- The next Version has fields of 64 bits, if there is an id left for it. -/
theorem Written.representable {o : FormatOptions} {v : Version} {ts : List SSTableReader}
    {c : CompactionState} (hinv : TablesInv o v ts) (hw : Written o v ts c)
    (hwords : v.representable = true) (hid : v.id ≠ maxUInt64) :
    (v.candidate (compactionEdit c) (compactedTables v c)).representable = true := by
  have hvalid := hw.valid hinv
  rw [hw.candidate_eq hinv] at hvalid ⊢
  simp only [Version.representable, decide_eq_true_eq, List.all_eq_true] at hwords ⊢
  obtain ⟨h1, h2, h3, hall⟩ := hwords
  have hroom := hw.room
  have hlen := hw.outputs.length_eq
  refine ⟨by omega, by omega, h3, fun t ht => ?_⟩
  rcases mem_compactedTables.mp ht with ⟨hold, -⟩ | ⟨r, hr, rfl⟩
  · exact hall t hold
  · have hgen := (hw.outputs.numbers.2 r hr).2
    exact (hw.outputs.coherent r hr).representable (by omega)
      ((hvalid.lastSequence _ ht).trans h3)

theorem Planned.fresh {v : Version} {ts : List SSTableReader} {c : CompactionState}
    (h : Planned v ts c) : c.Fresh := ⟨h.published, h.candidateReady, h.versionPublished⟩

/-- A level-zero table with one record. -/
def flushedWrite (generation fileSize : Nat) (r : Record) : SSTableReader where
  path := .sst generation
  metadata := tableSummary generation fileSize [r]
  records := [r]

/-- A database after two writes and a flush of each. -/
def twoFlushes (o : Options) (fileSize : Nat) (r₁ r₂ : Record) : Database where
  options := o
  version := {
    id := 3
    nextFileNumber := 3
    lastSequence := 2
    tables := [{ level := 0, metadata := (flushedWrite 1 fileSize r₁).metadata },
      { level := 0, metadata := (flushedWrite 2 fileSize r₂).metadata }] }
  mutableTable := MemTable.empty
  mutableGeneration := 3
  wal := some { file := 0 }
  immutable := none
  tables := [flushedWrite 1 fileSize r₁, flushedWrite 2 fileSize r₂]
  lastSequence := 2

/-- Two writes of different keys, in key order. -/
structure TwoWrites (o : Options) (fileSize : Nat) (r₁ r₂ : Record) : Prop where
  accepted : o.accepted = true
  limit : o.compactionOutputSizeLimit ≤ maxUInt64
  fileSize_pos : 0 < fileSize
  fileSize_le : fileSize + fileSize ≤ maxUInt64
  valid₁ : r₁.Valid o.toFormatOptions
  valid₂ : r₂.Valid o.toFormatOptions
  sequence₁ : r₁.sequence = 1
  sequence₂ : r₂.sequence = 2
  type₁ : r₁.type = .value
  type₂ : r₂.type = .value
  lt : r₁.key < r₂.key

section

variable {o : Options} {fileSize : Nat} {r₁ r₂ : Record}

theorem flushedWrite_coherent {generation : Nat} {r : Record} (hr : r.Valid o.toFormatOptions)
    (hpos : 0 < fileSize) (hle : fileSize ≤ maxUInt64) :
    (flushedWrite generation fileSize r).Coherent o.toFormatOptions := by
  refine ⟨rfl, List.pairwise_singleton _ _, List.cons_ne_nil _ _, fun x hx => ?_, rfl, hpos, hle⟩
  rw [List.mem_singleton.mp hx]
  exact hr

theorem TwoWrites.tablesInv (h : TwoWrites o fileSize r₁ r₂) :
    TablesInv o.toFormatOptions (twoFlushes o fileSize r₁ r₂).version
      (twoFlushes o fileSize r₁ r₂).tables := by
  have hpos := h.fileSize_pos
  have hle := h.fileSize_le
  have hcoherent : ∀ t ∈ (twoFlushes o fileSize r₁ r₂).tables, t.Coherent o.toFormatOptions := by
    intro t ht
    rcases List.mem_pair.mp ht with rfl | rfl
    · exact flushedWrite_coherent h.valid₁ hpos (by omega)
    · exact flushedWrite_coherent h.valid₂ hpos (by omega)
  have hmax : ∀ r : Record, maximumSequence [r] = r.sequence := fun r => Nat.zero_max _
  have hkey : o.maxKeySize ≠ 0 := by
    have hacc := h.accepted
    simp only [Options.accepted, decide_eq_true_eq] at hacc
    exact hacc.2.2.2.2.2.1
  have hnumbers : (1 : Nat) ≠ 0 ∧ (2 : Nat) ≠ 0 ∧ 1 < 3 ∧ 2 < 3 := by decide
  refine ⟨⟨Nat.succ_ne_zero _, Nat.succ_ne_zero _, hkey, fun t ht => ?_, ?_, List.Pairwise.nil,
    fun t ht => ?_⟩, .cons rfl (.cons rfl .nil), ?_, hcoherent, ?_⟩
  · rcases List.mem_pair.mp ht with rfl | rfl
    · exact (hcoherent _ List.mem_cons_self).wellFormed (Nat.zero_le _) hnumbers.1 hnumbers.2.2.1
    · exact (hcoherent _ (List.mem_cons_of_mem _ List.mem_cons_self)).wellFormed (Nat.zero_le _)
        hnumbers.2.1 hnumbers.2.2.2
  · show ([1, 2] : List Nat).Nodup
    decide
  · rcases List.mem_pair.mp ht with rfl | rfl
    · exact (hmax r₁).trans_le (h.sequence₁.trans_le one_le_two)
    · exact (hmax r₂).trans_le h.sequence₂.le
  · exact List.pairwise_pair.mpr one_le_two
  · refine List.pairwise_pair.mpr (fun he => ?_)
    have := h.sequence₁.symm.trans (he.2.trans h.sequence₂)
    omega

/-- What a compaction of such a database reads. -/
def twoInputs (fileSize : Nat) (r₁ r₂ : Record) : List CompactionInput :=
  [{ level := 0, table := flushedWrite 1 fileSize r₁ },
    { level := 0, table := flushedWrite 2 fileSize r₂ }]

theorem inputRecords_twoInputs : inputRecords (twoInputs fileSize r₁ r₂) = [r₁, r₂] := rfl

theorem TwoWrites.args (h : TwoWrites o fileSize r₁ r₂) :
    CompactionArgs o (twoInputs fileSize r₁ r₂) := by
  have hcoherent : ∀ i ∈ twoInputs fileSize r₁ r₂, i.table.Coherent o.toFormatOptions := by
    intro i hi
    rcases List.mem_pair.mp hi with rfl | rfl
    · exact h.tablesInv.coherent _ List.mem_cons_self
    · exact h.tablesInv.coherent _ (List.mem_cons_of_mem _ List.mem_cons_self)
  have hacc := h.accepted
  simp only [Options.accepted, decide_eq_true_eq] at hacc
  refine ⟨List.cons_ne_nil _ _, Nat.pos_of_ne_zero hacc.2.1, h.limit,
    fun i hi => (hcoherent i hi).readable, by simp [twoInputs], h.tablesInv.valid.distinct, ?_⟩
  rw [inputRecords_twoInputs]
  simp [maxUInt64]

/-- Both writes survive the merge. -/
theorem TwoWrites.merged (h : TwoWrites o fileSize r₁ r₂) {rs : List Record}
    (hasc : Ascending rs) (hmem : ∀ r, r ∈ rs ↔ Survives true [r₁, r₂] r) : rs = [r₁, r₂] := by
  have : Std.Antisymm (fun a b : Record => a.key < b.key) :=
    ⟨fun _ _ hab hba => absurd (hab.trans hba) (lt_irrefl _)⟩
  have : Std.Irrefl (fun a b : Record => a.key < b.key) := ⟨fun _ => lt_irrefl _⟩
  refine hasc.eq_of_mem_iff (List.pairwise_pair.mpr h.lt) (fun r => ?_)
  rw [hmem, Survives]
  refine ⟨fun hs => hs.1.mem, fun hr => ?_⟩
  rcases List.mem_pair.mp hr with rfl | rfl
  · refine ⟨⟨hr, rfl, fun x hx hk => ?_⟩, by simp [h.type₁]⟩
    rcases List.mem_pair.mp hx with rfl | rfl
    · exact le_refl _
    · exact absurd hk h.lt.ne'
  · refine ⟨⟨hr, rfl, fun x hx hk => ?_⟩, by simp [h.type₂]⟩
    rcases List.mem_pair.mp hx with rfl | rfl
    · exact absurd hk h.lt.ne
    · exact le_refl _

/-- What has room in one output is one output. -/
theorem TwoWrites.built (h : TwoWrites o fileSize r₁ r₂)
    (hroom : r₁.payloadSize + r₂.payloadSize ≤ o.compactionOutputSizeLimit) :
    ∃ m stats, m.records = [r₁, r₂] ∧
      buildCompactionOutputs o true (twoInputs fileSize r₁ r₂) = .ok ([m], stats) := by
  have hdistinct : DistinctRecords (inputRecords (twoInputs fileSize r₁ r₂)) :=
    h.tablesInv.distinct
  obtain ⟨⟨outputs, stats⟩, hbuild⟩ := h.args.isOk hdistinct true
  have hmerged := buildCompactionOutputs_merged h.args.readable hbuild
  have hout := h.merged hmerged.ascending hmerged.mem
  have hlength : outputs.length ≤ 1 := by
    refine length_le_one_of_packed (buildCompactionOutputs_packed h.args.readable hbuild) ?_
    rw [hout]
    simpa [totalSize] using hroom
  rcases outputs with _ | ⟨m, _ | ⟨m', rest⟩⟩
  · cases hout
  · exact ⟨m, stats, m.records_eq.trans ((outputRecords_singleton m).symm.trans hout), hbuild⟩
  · simp at hlength

/-- The plan for such a database. -/
theorem TwoWrites.prepared (h : TwoWrites o fileSize r₁ r₂)
    (hroom : r₁.payloadSize + r₂.payloadSize ≤ o.compactionOutputSizeLimit) :
    ∃ m c, m.records = [r₁, r₂] ∧ prepareCompaction (twoFlushes o fileSize r₁ r₂) =
        .ok { twoFlushes o fileSize r₁ r₂ with compaction := some c } ∧
      c.outputMemtables = [m] ∧ c.publishedOutputs = [] ∧ c.firstOutputFileNumber = 3 := by
  obtain ⟨m, stats, hrecords, hbuild⟩ := h.built hroom
  have hselect : ∀ range, selectInputs range 0 (twoFlushes o fileSize r₁ r₂).version.tables
      (twoFlushes o fileSize r₁ r₂).tables =
        .ok (twoInputs fileSize r₁ r₂, fileSize + fileSize) := by
    intro range
    have hfits : ¬ maxUInt64 - fileSize < fileSize := by
      have hle := h.fileSize_le
      omega
    simp [selectInputs, twoFlushes, flushedWrite, tableSummary, isCompactionInput, twoInputs, hfits]
  refine ⟨m, CompactionState.new 3 (twoInputs fileSize r₁ r₂) (fileSize + fileSize) [m] stats,
    hrecords, ?_, rfl, rfl, rfl⟩
  obtain ⟨range, hrange⟩ : ∃ range,
      levelZeroRange (twoFlushes o fileSize r₁ r₂).version.levelZero = some range := ⟨_, rfl⟩
  have hnumbers : ¬ maxUInt64 - 3 < [m].length := by simp [maxUInt64]
  unfold prepareCompaction
  rw [if_neg (by simp [twoFlushes]), hrange]
  dsimp only
  rw [hselect]
  dsimp only
  rw [show (twoFlushes o fileSize r₁ r₂).options = o from rfl, hbuild]
  exact if_neg hnumbers

theorem TwoWrites.representable (h : TwoWrites o fileSize r₁ r₂) :
    (twoFlushes o fileSize r₁ r₂).version.representable = true := by
  have hle := h.fileSize_le
  have hmin : ∀ r : Record, minimumSequence [r] = min maxUInt64 r.sequence := fun _ => rfl
  have hmax : ∀ r : Record, maximumSequence [r] = max 0 r.sequence := fun _ => rfl
  have hfile : fileSize ≤ maxUInt64 := by omega
  simp [Version.representable, VersionTable.representable, twoFlushes, flushedWrite, tableSummary,
    hmin, hmax, h.sequence₁, h.sequence₂, hfile]
  decide

end

/-! ## Two long keys -/

end MiniKV
