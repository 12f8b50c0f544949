import MiniKV.Compaction

/-!
# The database object and the sections it runs under its lock

`Database` has the members of the class that its logic reads. Every function
below runs while `state_mutex_` is held; where the source lets the lock go, to
wait on a condition variable or while the worker publishes a table, a section
ends and another begins.
-/

namespace MiniKV

open Lib

structure ImmutableGeneration where
  generation : Nat
  maximumSequence : Nat
  walPath : FileName
  memtable : MemTable
  pendingTable : Option SSTableReader := none
  versionPublished : Bool := false
  walRemovedAndSynced : Bool := false

/-- The constructor of `ImmutableGeneration`. -/
def ImmutableGeneration.new (generation : Nat) (memtable : MemTable) : ImmutableGeneration where
  generation := generation
  maximumSequence := MiniKV.maximumSequence memtable.records
  walPath := .wal generation
  memtable := memtable

structure CompactionStats where
  inputFiles : Nat := 0
  outputFiles : Nat := 0
  inputRecords : Nat := 0
  outputRecords : Nat := 0
  duplicateRecordsDropped : Nat := 0
  tombstonesDropped : Nat := 0
  inputBytes : Nat := 0
  outputBytes : Nat := 0
  bytesReclaimed : Nat := 0
  deriving DecidableEq, Repr

structure CompactionState where
  inputFileNumbers : List Nat
  cleanupPaths : List FileName
  outputMemtables : List MemTable
  publishedOutputs : List SSTableReader := []
  candidate : Version := Version.newDatabase
  stats : CompactionStats
  firstOutputFileNumber : Nat
  cleanupIndex : Nat := 0
  candidateReady : Bool := false
  versionPublished : Bool := false
  cleanupSynced : Bool := false
  walGenerationAdvanced : Bool := false

structure WalWriter where
  file : Inode
  /-- Sticky: the first failed append. -/
  status : Status := .ok

inductive DatabaseState where
  | running | closing | closed
  deriving DecidableEq, Repr

structure Database where
  options : Options
  version : Version
  mutableTable : MemTable
  mutableGeneration : Nat
  wal : Option WalWriter
  immutable : Option ImmutableGeneration
  compaction : Option CompactionState := none
  tables : List SSTableReader
  lastSequence : Nat
  lastCompactionStatistics : CompactionStats := {}
  status : Status := .ok
  backgroundStatus : Status := .ok
  closeStatus : Status := .ok
  state : DatabaseState := .running
  backgroundWorkRequested : Bool := false
  backgroundWorkRunning : Bool := false
  stopBackground : Bool := false

namespace Database

def isRunning (db : Database) : Bool := db.state = .running

abbrev format (db : Database) : FormatOptions := db.options.toFormatOptions

end Database

structure Sys where
  db : Database
  fs : Fs

abbrev Act (α : Type) := Prog Status Sys α

def io {α : Type} (m : Io α) : Act α := Prog.zoom Sys.fs (fun fs s => { s with fs := fs }) m

def getDb : Act Database := fun s => (.ok s.db, s)

def modifyDb (f : Database → Database) : Act Unit := Prog.modify (fun s => { s with db := f s.db })

def databaseCorruption (message : String) : Status := .corruption ("database: " ++ message)

/-! ## Reads -/

/-- `Database::UserVisible` -/
def userVisible (r : LookupResult) : LookupResult :=
  if r.deleted then { r with status := .notFound "key was deleted", value := [] } else r

/-- The loop of `Get` over the tables, from the newest file to the oldest. -/
def newestInTables (o : FormatOptions) (key : Bytes) :
    LookupResult → List SSTableReader → LookupResult
  | newest, [] =>
    if newest.status.isOk then userVisible newest else { status := .notFound "key does not exist" }
  | newest, t :: ts =>
    let result := t.get o key
    if !result.status.isOk ∧ !result.status.isNotFound then result
    else if result.status.isOk ∧ (!newest.status.isOk ∨ newest.sequence < result.sequence) then
      newestInTables o key result ts
    else newestInTables o key newest ts

/-- `Database::Get` -/
def Database.get (db : Database) (key : Bytes) : LookupResult :=
  if !db.isRunning then { status := .closed "database is not running" }
  else
    let inMutable := db.mutableTable.lookup db.format key
    if !inMutable.status.isNotFound then userVisible inMutable
    else
      let inTables :=
        newestInTables db.format key { status := .notFound "key does not exist" } db.tables.reverse
      match db.immutable with
      | none => inTables
      | some imm =>
        let inImmutable := imm.memtable.lookup db.format key
        if !inImmutable.status.isNotFound then userVisible inImmutable else inTables

/-! ## The active log -/

/-- `Database::OpenMutableWal` -/
def openMutableWal : Act Unit := do
  let db ← getDb
  match db.wal with
  | some _ => pure ()
  | none => do
    let file ← io (openAppend (.wal db.mutableGeneration))
    io syncDirectory
    modifyDb (fun db => { db with wal := some { file := file } })

/-- `Database::FreezeMutable` -/
def freezeMutable (openNextWal : Bool) : Act Unit := do
  let db ← getDb
  if db.immutable.isSome ∨ db.mutableTable.isEmpty ∨ db.wal.isNone then
    Prog.fail (.invalidArgument "Mutable MemTable cannot be frozen")
  else if db.mutableGeneration = maxUInt64 then
    Prog.fail (.invalidArgument "MemTable generation space is exhausted")
  else do
    modifyDb (fun db => { db with
      wal := none
      immutable := some (.new db.mutableGeneration db.mutableTable)
      mutableGeneration := db.mutableGeneration + 1
      mutableTable := .empty })
    if openNextWal then openMutableWal else pure ()

/-! ## Flush -/

def modifyImmutable (f : ImmutableGeneration → ImmutableGeneration) : Act Unit :=
  modifyDb (fun db => { db with immutable := db.immutable.map f })

/-- The edit that adds the table of the Immutable. -/
def flushEdit (db : Database) (imm : ImmutableGeneration) (table : SSTableReader) : VersionEdit where
  addedTables := [{ level := 0, metadata := table.metadata }]
  nextFileNumber := some db.mutableGeneration
  lastSequence := some imm.maximumSequence

section

variable (F : StorageFormat)

/-- The part of `ContinueFlush` that writes the table, once. -/
def flushTable (imm : ImmutableGeneration) : Act SSTableReader :=
  match imm.pendingTable with
  | some table => pure table
  | none => do
    let db ← getDb
    let table ← io (publishTable F db.format imm.generation imm.memtable)
    modifyImmutable (fun imm => { imm with pendingTable := some table })
    pure table

/-- The part of `ContinueFlush` that publishes the Version with the table. -/
def flushVersion (imm : ImmutableGeneration) : Act Unit := do
  let table ← flushTable F imm
  let db ← getDb
  let candidate ← Prog.ofExcept (db.version.apply db.format (flushEdit db imm table))
  io (publishManifest F db.format candidate)
  modifyDb (fun db => { db with
    tables := db.tables ++ [table]
    version := candidate
    immutable := db.immutable.map (fun imm =>
      { imm with pendingTable := none, versionPublished := true }) })

/-- The part of `ContinueFlush` that removes the log of the flushed records. -/
def flushWal (imm : ImmutableGeneration) : Act Unit := do
  io (removeFile imm.walPath)
  io syncDirectory
  modifyImmutable (fun imm => { imm with walRemovedAndSynced := true })

/-- `Database::ContinueFlush` -/
def continueFlush : Act Unit := do
  let db ← getDb
  match db.immutable with
  | none => pure ()
  | some imm => do
    if imm.versionPublished then pure () else flushVersion F imm
    if imm.walRemovedAndSynced then pure () else flushWal imm
    openMutableWal
    modifyDb (fun db => { db with immutable := none })

end

/-! ## Compaction -/

/-- The key range that the level-zero tables span together. -/
def levelZeroRange : List VersionTable → Option (Bytes × Bytes)
  | [] => none
  | t :: ts => some (ts.foldl
      (fun range t => (min range.1 t.metadata.minimumKey, max range.2 t.metadata.maximumKey))
      (t.metadata.minimumKey, t.metadata.maximumKey))

/-- Whether a table takes part in a compaction of the given range. -/
def isCompactionInput (range : Bytes × Bytes) (t : VersionTable) : Bool :=
  t.level = 0 ∨ (t.level = 1 ∧ range.1 ≤ t.metadata.maximumKey ∧ t.metadata.minimumKey ≤ range.2)

/-- The loop that picks the inputs, with the byte count so far. -/
def selectInputs (range : Bytes × Bytes) :
    Nat → List VersionTable → List SSTableReader → Except Status (List CompactionInput × Nat)
  | bytes, t :: ts, reader :: readers =>
    if reader.generation ≠ t.generation then
      .error (databaseCorruption "table reader order is inconsistent")
    else if !isCompactionInput range t then selectInputs range bytes ts readers
    else if maxUInt64 - t.metadata.fileSize < bytes then
      .error (.invalidArgument "compaction byte count overflows")
    else match selectInputs range (bytes + t.metadata.fileSize) ts readers with
      | .error e => .error e
      | .ok (inputs, bytes) => .ok ({ level := t.level, table := reader } :: inputs, bytes)
  | bytes, _, _ => .ok ([], bytes)

/-- The state a compaction starts from, once its outputs have been built. -/
def CompactionState.new (first : Nat) (inputs : List CompactionInput) (inputBytes : Nat)
    (outputs : List MemTable) (build : CompactionBuildStats) : CompactionState where
  inputFileNumbers := inputs.map (fun i => i.table.generation)
  cleanupPaths := inputs.map (fun i => i.table.path)
  outputMemtables := outputs
  firstOutputFileNumber := first
  stats := {
    inputFiles := inputs.length
    inputRecords := build.inputRecords
    outputRecords := build.outputRecords
    duplicateRecordsDropped := build.duplicateRecordsDropped
    tombstonesDropped := build.tombstonesDropped
    inputBytes := inputBytes }

/-- `Database::PrepareCompaction` -/
def prepareCompaction (db : Database) : Except Status Database :=
  if db.compaction.isSome ∨ db.tables.length ≠ db.version.tables.length then
    .error (databaseCorruption "table readers and Version disagree")
  else match levelZeroRange db.version.levelZero with
    | none => .ok { db with lastCompactionStatistics := {} }
    | some range =>
      match selectInputs range 0 db.version.tables db.tables with
      | .error e => .error e
      | .ok (inputs, inputBytes) =>
        match buildCompactionOutputs db.options true inputs with
        | .error e => .error e
        | .ok (outputs, build) =>
          if maxUInt64 - db.version.nextFileNumber < outputs.length then
            .error (.invalidArgument "compaction file numbers overflow")
          else
            let state := CompactionState.new db.version.nextFileNumber inputs inputBytes outputs build
            .ok { db with compaction := some state }

def modifyCompaction (f : CompactionState → CompactionState) : Act Unit :=
  modifyDb (fun db => { db with compaction := db.compaction.map f })

/-- `std::sort` of the readers by file number. -/
def sortReaders (ts : List SSTableReader) : List SSTableReader :=
  ts.insertionSort (fun a b => a.generation ≤ b.generation)

/-- The loop that adds up the bytes of the outputs. -/
def addOutputBytes : Nat → List SSTableReader → Except Status Nat
  | bytes, [] => .ok bytes
  | bytes, t :: ts =>
    if maxUInt64 - t.metadata.fileSize < bytes then
      .error (.invalidArgument "compaction byte count overflows")
    else addOutputBytes (bytes + t.metadata.fileSize) ts

/-- The edit that replaces the inputs by the outputs. -/
def compactionEdit (c : CompactionState) : VersionEdit where
  deletedFileNumbers := c.inputFileNumbers
  addedTables := c.publishedOutputs.map (fun t => { level := 1, metadata := t.metadata })
  nextFileNumber :=
    if c.publishedOutputs.isEmpty then none
    else some (c.firstOutputFileNumber + c.publishedOutputs.length)

/-- The readers that stay when the outputs take the place of the inputs. -/
def liveTables (c : CompactionState) (tables : List SSTableReader) : List SSTableReader :=
  sortReaders (tables.filter (fun t => !c.inputFileNumbers.contains t.generation) ++
    c.publishedOutputs)

section

variable (F : StorageFormat)

/-- The part of `ContinueCompaction` that writes the outputs, once. -/
def compactionOutputs (c : CompactionState) : Act Unit :=
  if c.outputMemtables.isEmpty ∨ !c.publishedOutputs.isEmpty then pure ()
  else do
    let db ← getDb
    let published ← io (publishCompactionTables F db.format c.firstOutputFileNumber
      c.outputMemtables)
    modifyCompaction (fun c => { c with publishedOutputs := published })

/-- The part of `ContinueCompaction` that computes the candidate Version, once. -/
def compactionCandidate (c : CompactionState) : Act Unit :=
  if c.candidateReady then pure ()
  else do
    let db ← getDb
    let outputBytes ← Prog.ofExcept (addOutputBytes c.stats.outputBytes c.publishedOutputs)
    let candidate ← Prog.ofExcept (db.version.apply db.format (compactionEdit c))
    modifyCompaction (fun c => { c with
      candidate := candidate
      candidateReady := true
      stats := { c.stats with
        outputBytes := outputBytes
        outputFiles := c.publishedOutputs.length } })

/-- The part of `ContinueCompaction` that publishes the candidate, once. -/
def compactionVersion (c : CompactionState) : Act Unit :=
  if c.versionPublished then pure ()
  else do
    let db ← getDb
    io (publishManifest F db.format c.candidate)
    modifyDb (fun db => { db with
      tables := liveTables c db.tables
      version := c.candidate
      compaction := some { c with versionPublished := true } })
    if c.outputMemtables.isEmpty then pure ()
    else modifyDb (fun db => { db with
      wal := none
      mutableGeneration := db.version.nextFileNumber
      compaction := db.compaction.map (fun c => { c with
        cleanupPaths := c.cleanupPaths ++ [.wal db.mutableGeneration]
        walGenerationAdvanced := true }) })

/-- The loop that removes what the published Version no longer needs. -/
def compactionCleanup : List FileName → Act Unit
  | [] => pure ()
  | f :: fs => do
    io (removeFile f)
    modifyCompaction (fun c => { c with cleanupIndex := c.cleanupIndex + 1 })
    compactionCleanup fs

def compactionSync (c : CompactionState) : Act Unit :=
  if c.cleanupSynced then pure ()
  else do
    io syncDirectory
    modifyCompaction (fun c => { c with cleanupSynced := true })

/-- Run a part of `ContinueCompaction` on the pending state as it now is. -/
def withCompaction (f : CompactionState → Act Unit) : Act Unit := do
  let db ← getDb
  match db.compaction with
  | none => pure ()
  | some c => f c

/-- `Database::ContinueCompaction` -/
def continueCompaction : Act Unit := do
  withCompaction (compactionOutputs F)
  withCompaction compactionCandidate
  withCompaction (compactionVersion F)
  withCompaction (fun c => compactionCleanup (c.cleanupPaths.drop c.cleanupIndex))
  withCompaction compactionSync
  withCompaction (fun c => if c.walGenerationAdvanced then openMutableWal else pure ())
  modifyDb (fun db => match db.compaction with
    | none => db
    | some c => { db with
        lastCompactionStatistics := { c.stats with
          bytesReclaimed := c.stats.inputBytes - c.stats.outputBytes }
        compaction := none })

/-! ## Flush and Compact under the lock -/

/-- `Database::FlushLocked` -/
def flushLocked : Act Unit := do
  let db ← getDb
  if !db.status.isOk then Prog.fail db.status
  else do
    continueCompaction F
    let db ← getDb
    match db.immutable with
    | some _ => continueFlush F
    | none =>
      if db.mutableTable.isEmpty then pure ()
      else do
        freezeMutable false
        continueFlush F

/-- `Database::CompactLocked` -/
def compactLocked : Act Unit := do
  let db ← getDb
  if !db.status.isOk then Prog.fail db.status
  else if db.compaction.isSome then continueCompaction F
  else do
    if db.immutable.isSome ∨ !db.mutableTable.isEmpty then flushLocked F else pure ()
    let db ← getDb
    if db.immutable.isSome ∨ !db.mutableTable.isEmpty ∨ db.wal.isNone then
      Prog.fail (databaseCorruption "compaction requires an empty active WAL generation")
    else do
      let db' ← Prog.ofExcept (prepareCompaction db)
      modifyDb (fun _ => db')
      continueCompaction F

/-! ## Writes -/

/-- Run a call on the log file, and remember its failure in the writer. -/
def rememberFailure (call : Io Unit) : Act Unit := do
  match ← Prog.attempt (io call) with
  | .ok () => pure ()
  | .error e => do
    modifyDb (fun db => { db with wal := db.wal.map (fun w => { w with status := e }) })
    Prog.fail e

/-- `WalWriter::Append`. The store records first that the write is in doubt, and
that it is in the log once the append has succeeded. -/
def walAppend (w : WalWriter) (r : Record) (mode : SyncMode) : Act Unit :=
  if !w.status.isOk then Prog.fail w.status
  else if mode ≠ .sync ∧ mode ≠ .async then
    Prog.fail (.invalidArgument "WAL sync mode is invalid")
  else do
    let db ← getDb
    let encoded ← Prog.ofExcept (F.encodeWalRecord db.format r)
    io (Prog.modify (Fs.update (Store.label (.inDoubt r))))
    rememberFailure (writeAll w.file encoded)
    if mode = .sync then rememberFailure (syncFile w.file) else pure ()
    io (Prog.modify (Fs.update (Store.commit r mode)))

/-- Set the sticky status and return it. -/
def failSticky {α : Type} (e : Status) : Act α := do
  modifyDb (fun db => { db with status := e })
  Prog.fail e

/-- `ScheduleBackgroundWorkLocked` -/
def scheduleBackgroundWork : Act Unit :=
  modifyDb (fun db =>
    if !db.options.backgroundMaintenance ∨ db.stopBackground then db
    else { db with backgroundWorkRequested := true })

/-- The start of `Database::Write`, up to the wait for the worker: what is pending is
continued, and a full Mutable flushed, in foreground mode. -/
def writeEnter (mode : SyncMode) : Act Unit := do
  let db ← getDb
  if !db.isRunning then Prog.fail (.closed "database is not running")
  else if !db.status.isOk then Prog.fail db.status
  else if mode ≠ .sync ∧ mode ≠ .async then
    Prog.fail (.invalidArgument "write sync mode is invalid")
  else if db.options.backgroundMaintenance then pure ()
  else do
    continueCompaction F
    continueFlush F
    let db ← getDb
    if !db.mutableTable.isEmpty ∧
        db.options.memtableSizeLimit ≤ db.mutableTable.approximateDataSize then flushLocked F
    else pure ()

/-- The condition under which `Database::Write` waits for the worker. -/
def writeBlocked (db : Database) : Bool :=
  db.options.backgroundMaintenance ∧ db.immutable.isSome ∧
    db.options.memtableSizeLimit ≤ db.mutableTable.approximateDataSize ∧
    db.backgroundStatus.isOk ∧ db.isRunning

/-- The record is in the log: apply it to the Mutable. -/
def writeApply (r : Record) : Act Unit := do
  let db ← getDb
  match db.mutableTable.applyRecord db.format r with
  | .ok m => modifyDb (fun db => { db with mutableTable := m })
  | .error _ =>
    failSticky (databaseCorruption "WAL append succeeded but Mutable MemTable apply failed")

/-- The end of `Database::Write`: flush or freeze a Mutable that is full. -/
def writeRotate : Act Unit := do
  let db ← getDb
  if db.mutableTable.approximateDataSize < db.options.memtableSizeLimit then pure ()
  else if !db.options.backgroundMaintenance then flushLocked F
  else if db.immutable.isSome then pure ()
  else do
    match ← Prog.attempt (freezeMutable true) with
    | .ok () => pure ()
    | .error e => modifyDb (fun db => { db with backgroundStatus := e })
    scheduleBackgroundWork

/-- `Database::Write` once it no longer waits. -/
def writeFinish (type : ValueType) (key value : Bytes) (mode : SyncMode) : Act Unit := do
  let db ← getDb
  if !db.isRunning then Prog.fail (.closed "database is not running")
  else if db.options.backgroundMaintenance ∧ !db.backgroundStatus.isOk then
    Prog.fail db.backgroundStatus
  else if db.lastSequence = maxUInt64 then
    Prog.fail (.invalidArgument "sequence number space is exhausted")
  else match db.wal with
    | none => Prog.fail (.ioError "database has no active WAL")
    | some w => do
      let r : Record := { key := key, sequence := db.lastSequence + 1, type := type, value := value }
      modifyDb (fun db => { db with lastSequence := db.lastSequence + 1 })
      match ← Prog.attempt (walAppend F w r mode) with
      | .error e => failSticky e
      | .ok () => do
        writeApply r
        writeRotate F

/-! ## The public calls, from where they hold the lock and no longer wait -/

/-- `Database::Flush` after its wait. -/
def flushResume : Act Unit := do
  match ← Prog.attempt (flushLocked F) with
  | .ok () => modifyDb (fun db => { db with backgroundStatus := .ok })
  | .error e => Prog.fail e

/-- `Database::Compact` after its wait. -/
def compactResume : Act Unit := do
  match ← Prog.attempt (compactLocked F) with
  | .ok () => modifyDb (fun db => { db with backgroundStatus := .ok })
  | .error e => Prog.fail e

/-- `Database::Close` up to the join of the worker. -/
def closeBegin : Act Unit :=
  modifyDb (fun db => { db with state := .closing, stopBackground := true })

/-- What `Close` still has to write. -/
def closeFlush : Act Unit := do
  continueCompaction F
  continueFlush F
  let db ← getDb
  if db.mutableTable.isEmpty then pure ()
  else do
    freezeMutable false
    continueFlush F

/-- `Database::Close` after the join. -/
def closeFinish : Act Unit := do
  let result ← Prog.attempt (closeFlush F)
  let status := match result with
    | .ok () => Status.ok
    | .error e => e
  modifyDb (fun db => { db with
    wal := none
    closeStatus := status
    state := .closed
    backgroundWorkRequested := false
    backgroundWorkRunning := false })
  if status.isOk then pure () else Prog.fail status

/-! ## The worker -/

/-- The end of `RunBackgroundWorkLocked`: the flush, and a compaction if one is due. -/
def backgroundWork : Act Unit := do
  continueFlush F
  let db ← getDb
  if !db.stopBackground ∧ db.mutableTable.isEmpty ∧ db.immutable.isNone ∧
      db.options.level0CompactionTrigger ≤ db.version.levelZero.length then do
    let db' ← Prog.ofExcept (prepareCompaction db)
    modifyDb (fun _ => db')
    continueCompaction F
  else pure ()

/-- The worker puts down what came of its work. -/
def backgroundFinish (work : Act Unit) : Act Unit := do
  let result ← Prog.attempt work
  let status := match result with
    | .ok () => Status.ok
    | .error e => e
  modifyDb (fun db => { db with backgroundStatus := status, backgroundWorkRunning := false })

/-- The worker has the lock again after `PublishTable`. -/
def backgroundPublished (generation : Nat) (result : Except Status SSTableReader) : Act Unit := do
  let table ← Prog.ofExcept result
  let db ← getDb
  if db.immutable.map ImmutableGeneration.generation ≠ some generation then
    Prog.fail (databaseCorruption "Immutable generation changed during background Flush")
  else do
    modifyImmutable (fun imm => { imm with pendingTable := some table })
    backgroundWork F

end

end MiniKV
