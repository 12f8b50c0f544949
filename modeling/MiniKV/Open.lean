import MiniKV.Database

/-!
# Recovery and Open

`RecoverWal` replays one log file; `Database::OpenWithEnvironment` puts a
database together from what a directory holds.
-/

namespace MiniKV

open Lib

/-! ## One log -/

structure WalRecoveryResult where
  recordsRecovered : Nat := 0
  validBytes : Nat := 0
  discardedTailBytes : Nat := 0
  minSequence : Nat := 0
  maxSequence : Nat := 0
  tailTruncated : Bool := false
  deriving DecidableEq, Repr

def recoveryCorruption (offset : Nat) (message : String) : Status :=
  .corruption ("WAL recovery at offset " ++ toString offset ++ ": " ++ message)

/-- The result once one more record has been replayed. -/
def WalRecoveryResult.push (result : WalRecoveryResult) (r : Record) (size : Nat) :
    WalRecoveryResult :=
  { result with
    minSequence := if result.recordsRecovered = 0 then r.sequence else result.minSequence
    recordsRecovered := result.recordsRecovered + 1
    maxSequence := r.sequence
    validBytes := result.validBytes + size }

section

variable (F : StorageFormat) (o : FormatOptions)

/-- The loop of `RecoverWal` over the bytes from an offset on. The last component says
whether an incomplete tail is left. Every record takes bytes, so the file's length is
fuel enough. -/
def recoverLoop : Nat → Bytes → MemTable → WalRecoveryResult →
    Except Status (MemTable × WalRecoveryResult × Bool)
  | 0, remaining, m, result => .ok (m, result, !remaining.isEmpty)
  | n + 1, remaining, m, result =>
    let offset := result.validBytes
    if remaining.isEmpty then .ok (m, result, false)
    else if remaining.length < kWalHeaderSize then .ok (m, result, true)
    else match F.decodeWalRecordHeader o (remaining.take kWalHeaderSize) with
      | .error e => .error (recoveryCorruption offset e.toString)
      | .ok size =>
        if remaining.length < size then .ok (m, result, true)
        else match F.decodeWalRecord o (remaining.take size) with
          | .error e => .error (recoveryCorruption offset e.toString)
          | .ok r =>
            if r.sequence ≤ result.maxSequence then
              .error (recoveryCorruption offset "sequence numbers are not strictly increasing")
            else match m.applyRecord o r with
              | .error e =>
                .error (recoveryCorruption offset ("record cannot be applied: " ++ e.toString))
              | .ok m =>
                if result.recordsRecovered = maxUInt64 then
                  .error (.corruption "WAL recovery record count overflows size_t")
                else recoverLoop n (remaining.drop size) m (result.push r size)

/-- `PosixRecoveryFile::Open` and `RecoverWal`: an incomplete tail is cut off. -/
def recoverWal (f : FileName) : Io (MemTable × WalRecoveryResult) := do
  let file ← openAppend f
  let content ← readFile f
  let (m, result, tail) ← Prog.ofExcept (recoverLoop F o content.length content .empty {})
  if !tail then pure (m, result)
  else do
    truncateFile file result.validBytes
    syncFile file
    pure (m, { result with
      discardedTailBytes := content.length - result.validBytes
      tailTruncated := true })

end

/-! ## The directory -/

/-- The generations of the files a directory has of one kind, ascending as in
`std::map`. -/
def generations (pick : FileName → Option Nat) (d : Dir) : List Nat :=
  (d.names.filterMap pick).insertionSort (· ≤ ·)

structure DatabaseOpenResult where
  tablesLoaded : Nat
  walsRecovered : Nat
  obsoleteWalsRemoved : Nat
  orphanFilesRemoved : Nat
  maxSequence : Nat
  activeGeneration : Nat
  versionId : Nat
  storageFormatVersion : Nat := 2
  deriving DecidableEq, Repr

/-- What the logs contribute to the database. -/
structure Recovered where
  mutableTable : MemTable
  immutable : Option ImmutableGeneration
  mutableGeneration : Nat
  lastSequence : Nat
  previousMaxSequence : Nat

def Recovered.start (v : Version) : Recovered where
  mutableTable := .empty
  immutable := none
  mutableGeneration := v.nextFileNumber
  lastSequence := v.lastSequence
  previousMaxSequence := v.lastSequence

/-- Remove files one by one. -/
def removeFiles : List FileName → Io Unit
  | [] => pure ()
  | f :: fs => do
    removeFile f
    removeFiles fs

section

variable (F : StorageFormat) (o : Options)

/-- The Version of an existing database, or that of a new one. -/
def openVersion (d : Dir) : Io Version :=
  if d.names.any (fun f => readName f.text = .manifest) then loadManifest F o.toFormatOptions
  else if !(generations FileName.sstNumber d).isEmpty ∨
      !(generations FileName.walNumber d).isEmpty then
    Prog.fail (.versionMismatch "database contains legacy files but no supported MANIFEST")
  else do
    publishManifest F o.toFormatOptions Version.newDatabase
    pure Version.newDatabase

/-- Open every table that the Version names. -/
def openTables (present : List Nat) : List VersionTable → Io (List SSTableReader)
  | [] => pure []
  | expected :: rest => do
    if !present.contains expected.generation then
      Prog.fail (databaseCorruption ("MANIFEST references missing table " ++
        asText (FileName.sst expected.generation).text))
    else do
      let table ← openReader F o.toFormatOptions (.sst expected.generation)
      if table.metadata ≠ expected.metadata then
        Prog.fail (databaseCorruption ("MANIFEST and SSTable metadata disagree for file " ++
          toString expected.generation))
      else do
        let tables ← openTables present rest
        pure (table :: tables)

/-- The loop over the logs: obsolete ones go, one ahead of the frontier is an error.
Returns those to recover. -/
def sortWals (next : Nat) : List Nat → Io (List Nat)
  | [] => pure []
  | g :: gs => do
    if g < next then do
      removeFile (.wal g)
      sortWals next gs
    else if g = next ∨ (next ≠ maxUInt64 ∧ g = next + 1) then do
      let rest ← sortWals next gs
      pure (g :: rest)
    else Prog.fail (databaseCorruption "WAL file number is ahead of the MANIFEST frontier")

/-- The loop over the logs to recover. With two of them the first is the Immutable's. -/
def recoverWals (two : Bool) : Bool → List Nat → Recovered → Io Recovered
  | _, [], s => pure s
  | first, g :: gs, s => do
    let (m, result) ← recoverWal F o.toFormatOptions (.wal g)
    if result.recordsRecovered ≠ 0 ∧ result.minSequence ≤ s.previousMaxSequence then
      Prog.fail (databaseCorruption "WAL sequence range overlaps an older durable generation")
    else
      let s := { s with
        lastSequence := max s.lastSequence result.maxSequence
        previousMaxSequence := result.maxSequence }
      if two ∧ first then
        if m.isEmpty then
          Prog.fail (databaseCorruption "an Immutable WAL generation must not be empty")
        else recoverWals two false gs { s with immutable := some (.new g m) }
      else recoverWals two false gs { s with mutableTable := m, mutableGeneration := g }

/-- The constructor of `Database`, and `StartBackgroundWorker` up to the thread. -/
def newDatabase (version : Version) (tables : List SSTableReader) (s : Recovered)
    (wal : Inode) : Database where
  options := o
  version := version
  mutableTable := s.mutableTable
  mutableGeneration := s.mutableGeneration
  wal := some { file := wal }
  immutable := s.immutable
  tables := tables
  lastSequence := s.lastSequence
  backgroundWorkRequested := o.backgroundMaintenance && s.immutable.isSome

/-- Remove what no reachable state of the database needs: temporary files, tables the
Version does not name, obsolete logs. Returns the logs to recover and two counts. -/
def openCleanup (d : Dir) (version : Version) : Io (List Nat × Nat × Nat) := do
  let temporaries := d.names.filter (fun f => readName f.text = .temporary)
  let live := version.tables.map VersionTable.generation
  let orphans := (generations FileName.sstNumber d).filter (fun g => !live.contains g)
  let logs := generations FileName.walNumber d
  let obsolete := logs.filter (· < version.nextFileNumber)
  removeFiles temporaries
  removeFiles (orphans.map FileName.sst)
  let wals ← sortWals version.nextFileNumber logs
  if temporaries.isEmpty ∧ orphans.isEmpty ∧ obsolete.isEmpty then pure () else syncDirectory
  pure (wals, obsolete.length, temporaries.length + orphans.length)

/-- Run a section on a database of its own. -/
def runSection (db : Database) (m : Act Unit) : Io (Except Status Unit × Database) := fun fs =>
  match m { db := db, fs := fs } with
  | (.ok (), s) => (.ok (.ok (), s.db), s.fs)
  | (.error e, s) => (.ok (.error e, s.db), s.fs)
  | (.killed, s) => (.killed, s.fs)

/-- `StartBackgroundWorker`. If the thread cannot be started, the destructor closes the
database again. -/
def startBackgroundWorker (db : Database) : Io Unit :=
  if !o.backgroundMaintenance then pure ()
  else do
    match ← Prog.attempt (fallible (.ioError "start database background worker")) with
    | .ok () => pure ()
    | .error e => do
      let _ ← runSection db (do closeBegin; closeFinish F)
      Prog.fail e

/-- `Database::OpenWithEnvironment` -/
def openWithEnvironment : Io (Database × DatabaseOpenResult) :=
  if !o.accepted then
    Prog.fail (.invalidArgument "database requires a directory, environment, and valid size limits")
  else do
    fallible (.ioError "create database directory")
    fallible (.ioError "fsync directory")
    fallible (.ioError "open lock")
    fallible (.ioError "scan database directory")
    let s ← Prog.get
    let d := s.store.disk.dir.current
    let version ← openVersion F o d
    let tables ← openTables F o (generations FileName.sstNumber d) version.tables
    let (wals, obsoleteWalsRemoved, orphanFilesRemoved) ← openCleanup d version
    if 2 < wals.length then
      Prog.fail (databaseCorruption "too many unflushed WAL generations exist")
    else if wals.length = 2 ∧ wals ≠ [version.nextFileNumber, version.nextFileNumber + 1] then
      Prog.fail (databaseCorruption "unflushed WAL generations are not consecutive")
    else do
      let r ← recoverWals F o (wals.length = 2) true wals (.start version)
      let wal ← openAppend (.wal r.mutableGeneration)
      syncDirectory
      let db := newDatabase o version tables r wal
      startBackgroundWorker F o db
      pure (db, {
        tablesLoaded := tables.length
        walsRecovered := wals.length
        obsoleteWalsRemoved := obsoleteWalsRemoved
        orphanFilesRemoved := orphanFilesRemoved
        maxSequence := r.lastSequence
        activeGeneration := r.mutableGeneration
        versionId := version.id })

end

end MiniKV
