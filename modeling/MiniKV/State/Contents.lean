import MiniKV.Storage.Recoverable

/-!
# What a database holds in memory

`Contents` are the members of a database that say what it stores: the Version
and its readers, the two MemTables, and the compaction that is pending. The
invariant below is about contents alone. Parts of it depend on how the database
is used, and a `Regime` says which of them are kept:

* `ordered`: sequence numbers rise from the tables over the Immutable to the
  Mutable, as they do in every database that was filled by its own writes;
* `planned`: while a compaction waits for its publication nothing is written.
-/

namespace MiniKV

open Lib

structure Contents where
  options : Options
  version : Version
  mutableTable : MemTable
  mutableGeneration : Nat
  immutable : Option ImmutableGeneration
  compaction : Option CompactionState
  tables : List SSTableReader
  lastSequence : Nat

abbrev Contents.format (x : Contents) : FormatOptions := x.options.toFormatOptions

def Database.contents (db : Database) : Contents where
  options := db.options
  version := db.version
  mutableTable := db.mutableTable
  mutableGeneration := db.mutableGeneration
  immutable := db.immutable
  compaction := db.compaction
  tables := db.tables
  lastSequence := db.lastSequence

/-- Which parts of the invariants are kept. -/
structure Regime extends Usage where
  ordered : Prop
  planned : Prop
  /-- The directory can be recovered at any time. -/
  durable : Prop
  /-- Files are removed only under a durable MANIFEST. -/
  traced : Prop
  durable_imp : durable → ordered ∧ planned
  traced_imp : traced → durable
  single_imp : single → planned

/-! ## What is visible -/

/-- The records of the Immutable, if there is one. -/
def Contents.immutableRecords (x : Contents) : List Record :=
  match x.immutable with
  | none => []
  | some imm => imm.memtable.entries

/-- What the Immutable and the tables show. -/
def Contents.below (x : Contents) : Bytes → Option Bytes :=
  overlay x.immutableRecords (shown (tableRecords x.tables))

/-- What a reader sees. -/
def Contents.view (x : Contents) : Bytes → Option Bytes := overlay x.mutableTable.entries x.below

/-! ## Tables that no merge can confuse -/

/-- Two tables share no key, or no sequence number. -/
def TableMetadata.Separate (a b : TableMetadata) : Prop :=
  a.Apart b ∨ a.maximumSequence < b.minimumSequence ∨ b.maximumSequence < a.minimumSequence

theorem TableMetadata.Separate.symm {a b : TableMetadata} (h : a.Separate b) : b.Separate a := by
  rcases h with h | h | h
  · exact Or.inl h.symm
  · exact Or.inr (Or.inr h)
  · exact Or.inr (Or.inl h)

def Version.Separate (v : Version) : Prop :=
  v.tables.Pairwise (fun a b => a.metadata.Separate b.metadata)

/-- A table lies beside records: on one side of all their keys, or above all their
sequence numbers. -/
def SSTableReader.Beside (t : SSTableReader) (rs : List Record) : Prop :=
  (∀ s ∈ rs, t.metadata.maximumKey < s.key) ∨ (∀ s ∈ rs, s.key < t.metadata.minimumKey) ∨
    ∀ s ∈ rs, ∀ r ∈ t.records, s.sequence < r.sequence

/-- A file that the Version does not need: an older log, or a table that it has dropped. -/
def Version.Obsolete (v : Version) : FileName → Prop
  | .wal n => n < v.nextFileNumber
  | .sst n => n < v.nextFileNumber ∧ ∀ t ∈ v.tables, t.generation ≠ n
  | _ => False

/-! ## Invariants -/

/-- What holds of the candidate Version of a compaction until it is published. -/
structure CandidateInv (ρ : Regime) (x : Contents) (c : CompactionState) : Prop where
  outputs : OutputReaders x.format c.firstOutputFileNumber c.outputMemtables c.publishedOutputs
  valid : c.candidate.Valid x.format
  sorted : c.candidate.tables.Pairwise generationLe
  aligned : Aligned c.candidate (liveTables c x.tables) ∨
    c.candidate.tables.length < (liveTables c x.tables).length
  planned : ρ.planned → x.version.apply x.format (compactionEdit c) = .ok c.candidate
  word : ρ.ordered → c.candidate.id ≤ maxUInt64
  separate : ρ.ordered → c.candidate.Separate
  last_le : ρ.ordered → c.candidate.lastSequence ≤ x.version.lastSequence
  next_le : ρ.ordered → c.outputMemtables = [] →
    c.candidate.nextFileNumber ≤ x.version.nextFileNumber

/-- What holds of a compaction until its Version is published. -/
structure PendingInv (ρ : Regime) (x : Contents) (c : CompactionState) : Prop where
  aligned : Aligned x.version x.tables
  first_ne : c.firstOutputFileNumber ≠ 0
  room : c.outputMemtables.length ≤ maxUInt64 - c.firstOutputFileNumber
  build : BuildResult true (tableRecords (inputsOf c x.tables)) c.outputMemtables
  newer : ∀ r ∈ tableRecords (restOf c x.tables), ∀ s ∈ tableRecords (inputsOf c x.tables),
    s.key = r.key → s.sequence < r.sequence
  outputs : c.publishedOutputs = [] ∨
    OutputReaders x.format c.firstOutputFileNumber c.outputMemtables c.publishedOutputs
  ready : c.candidateReady = true → CandidateInv ρ x c
  planned : ρ.planned →
    PlanOf x.version x.tables c ∧ x.immutable = none ∧ x.mutableTable.entries = []
  numbers : ρ.ordered → ∀ n ∈ c.inputFileNumbers, n < x.mutableGeneration
  beside : ρ.ordered →
    ∀ t ∈ restOf c x.tables, t.Beside (tableRecords (inputsOf c x.tables))
  paths : ρ.durable → c.cleanupPaths = c.inputFileNumbers.map FileName.sst

/-- What holds of the Immutable. -/
structure ImmutableInv (x : Contents) (imm : ImmutableGeneration) : Prop where
  ne_nil : imm.memtable.entries ≠ []
  generation_ne : imm.generation ≠ 0
  walPath : imm.walPath = .wal imm.generation
  maximum : imm.maximumSequence = maximumSequence imm.memtable.entries
  valid : ∀ s ∈ imm.memtable.entries, s.Valid x.format
  last : ∀ s ∈ imm.memtable.entries, s.sequence ≤ x.lastSequence
  newest : ∀ s ∈ imm.memtable.entries, ∀ r ∈ tableRecords x.tables, r.key = s.key →
    r.sequence ≤ s.sequence
  pending : ∀ t, imm.pendingTable = some t →
    t.Coherent x.format ∧ t.generation = imm.generation ∧ t.records = imm.memtable.entries
  unpublished : imm.versionPublished = false → ∀ s ∈ imm.memtable.entries,
    x.version.lastSequence < s.sequence ∧ ∀ r ∈ tableRecords x.tables, r.sequence < s.sequence
  published : imm.versionPublished = true →
    ∃ t ∈ x.tables, t.generation = imm.generation ∧ t.records = imm.memtable.entries
  numbers : ∀ c, x.compaction = some c → c.versionPublished = false →
    ∀ n ∈ c.inputFileNumbers, n < imm.generation

/-- Sequence numbers rise towards the Mutable. -/
structure OrderInv (x : Contents) : Prop where
  id_word : x.version.id ≤ maxUInt64
  last_word : x.lastSequence ≤ maxUInt64
  separate : x.version.Separate
  next_le : x.version.nextFileNumber ≤ x.mutableGeneration
  frontier : x.version.lastSequence ≤ x.lastSequence
  tables : ∀ r ∈ tableRecords x.tables, r.sequence ≤ x.lastSequence
  valid : ∀ s ∈ x.mutableTable.entries, s.Valid x.format
  last : ∀ s ∈ x.mutableTable.entries, s.sequence ≤ x.lastSequence
  newest : ∀ s ∈ x.mutableTable.entries, x.version.lastSequence < s.sequence ∧
    (∀ r ∈ tableRecords x.tables, r.sequence < s.sequence) ∧
    ∀ r ∈ x.immutableRecords, r.sequence < s.sequence
  immutable : ∀ imm, x.immutable = some imm → ImmutableInv x imm

/-- What holds of file numbers when nothing is written beside a waiting compaction. -/
structure PlannedInv (x : Contents) : Prop where
  aligned : Aligned x.version x.tables
  fresh : ∀ imm, x.immutable = some imm → imm.versionPublished = false →
    x.version.nextFileNumber ≤ imm.generation ∧ imm.generation < x.mutableGeneration

structure ContentsInv (ρ : Regime) (x : Contents) : Prop where
  accepted : x.options.accepted = true
  version : x.version.Valid x.format
  sorted : x.version.tables.Pairwise generationLe
  coherent : ∀ t ∈ x.tables, t.Coherent x.format
  distinct : DistinctRecords (tableRecords x.tables)
  aligned : Aligned x.version x.tables ∨ x.version.tables.length < x.tables.length
  pending : ∀ c, x.compaction = some c → c.versionPublished = false → PendingInv ρ x c
  cleanup : ρ.durable → ∀ c, x.compaction = some c → c.versionPublished = true →
    ∀ f ∈ c.cleanupPaths, x.version.Obsolete f
  order : ρ.ordered → OrderInv x
  planned : ρ.planned → PlannedInv x

theorem ContentsInv.tablesInv {ρ : Regime} {x : Contents} (h : ContentsInv ρ x)
    (ha : Aligned x.version x.tables) : TablesInv x.format x.version x.tables :=
  ⟨h.version, ha, h.sorted, h.coherent, h.distinct⟩

end MiniKV
