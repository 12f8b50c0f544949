import MiniKV.MemTable
import MiniKV.Version
import MiniKV.FileSystem

/-!
# The file formats, as the storage protocol uses them

The database layer reads and writes three kinds of files. A `StorageFormat` is
the codec of each; `StorageFormat.Lawful` collects what the protocol relies on:
what was encoded is read back, and whatever a reader accepts is coherent. The
results about the protocol hold for every lawful format.
-/

namespace MiniKV

open Lib

structure StorageFormat where
  /-- `EncodeTable`, on the records of a MemTable. -/
  encodeTable : FormatOptions → Nat → List Record → Except Status Bytes
  /-- The content checks of `SSTableReader::Open`, and the records then readable. -/
  openTable : FormatOptions → Bytes → Except Status (TableMetadata × List Record)
  encodeManifest : FormatOptions → Version → Except Status Bytes
  decodeManifest : FormatOptions → Bytes → Except Status Version
  encodeWalRecord : FormatOptions → Record → Except Status Bytes
  /-- `DecodeWalRecordHeader`, of which recovery uses the record size. -/
  decodeWalRecordHeader : FormatOptions → Bytes → Except Status Nat
  decodeWalRecord : FormatOptions → Bytes → Except Status Record

def minimumSequence (rs : List Record) : Nat := rs.foldl (fun m r => min m r.sequence) maxUInt64

def maximumSequence (rs : List Record) : Nat := rs.foldl (fun m r => max m r.sequence) 0

def firstKey (rs : List Record) : Bytes := (rs.head?.map Record.key).getD []

def lastKey (rs : List Record) : Bytes := (rs.getLast?.map Record.key).getD []

/-- The metadata of a table file of a given size with given records. -/
def tableSummary (generation fileSize : Nat) (rs : List Record) : TableMetadata where
  generation := generation
  fileSize := fileSize
  recordCount := rs.length
  minimumSequence := minimumSequence rs
  maximumSequence := maximumSequence rs
  minimumKey := firstKey rs
  maximumKey := lastKey rs

def kMaximumManifestSize : Nat := 64 * 1024 * 1024

/-- The bytes a record takes in a log. -/
def Record.walSize (r : Record) : Nat := kWalHeaderSize + r.key.length + r.value.length

structure StorageFormat.Lawful (F : StorageFormat) : Prop where
  openTable_encodeTable : ∀ {o : FormatOptions} {g : Nat} {rs : List Record} {b : Bytes},
    Ascending rs → F.encodeTable o g rs = .ok b →
      F.openTable o b = .ok (tableSummary g b.length rs, rs)
  openTable_ascending : ∀ {o : FormatOptions} {b : Bytes} {md : TableMetadata} {rs : List Record},
    F.openTable o b = .ok (md, rs) → Ascending rs
  openTable_ne_nil : ∀ {o : FormatOptions} {b : Bytes} {md : TableMetadata} {rs : List Record},
    F.openTable o b = .ok (md, rs) → rs ≠ []
  openTable_valid : ∀ {o : FormatOptions} {b : Bytes} {md : TableMetadata} {rs : List Record},
    F.openTable o b = .ok (md, rs) → ∀ r ∈ rs, r.Valid o
  openTable_summary : ∀ {o : FormatOptions} {b : Bytes} {md : TableMetadata} {rs : List Record},
    F.openTable o b = .ok (md, rs) → md = tableSummary md.generation b.length rs
  openTable_size : ∀ {o : FormatOptions} {b : Bytes} {md : TableMetadata} {rs : List Record},
    F.openTable o b = .ok (md, rs) → rs.length ≤ b.length
  decodeManifest_encodeManifest : ∀ {o : FormatOptions} {v : Version} {b : Bytes},
    F.encodeManifest o v = .ok b → F.decodeManifest o b = .ok v
  encodeManifest_length : ∀ {o : FormatOptions} {v : Version} {b : Bytes},
    F.encodeManifest o v = .ok b → b.length ≤ kMaximumManifestSize
  encodeManifest_newDatabase : ∀ {o : FormatOptions}, o.maxKeySize ≠ 0 →
    ∃ b, F.encodeManifest o Version.newDatabase = .ok b
  decodeManifest_valid : ∀ {o : FormatOptions} {b : Bytes} {v : Version},
    F.decodeManifest o b = .ok v → v.Valid o
  encodeWalRecord_valid : ∀ {o : FormatOptions} {r : Record} {b : Bytes},
    F.encodeWalRecord o r = .ok b → r.Valid o
  encodeWalRecord_length : ∀ {o : FormatOptions} {r : Record} {b : Bytes},
    F.encodeWalRecord o r = .ok b → b.length = r.walSize
  decodeWalRecordHeader_encode : ∀ {o : FormatOptions} {r : Record} {b : Bytes},
    F.encodeWalRecord o r = .ok b →
      F.decodeWalRecordHeader o (b.take kWalHeaderSize) = .ok b.length
  decodeWalRecord_encode : ∀ {o : FormatOptions} {r : Record} {b : Bytes},
    F.encodeWalRecord o r = .ok b → F.decodeWalRecord o b = .ok r
  decodeWalRecordHeader_size : ∀ {o : FormatOptions} {b : Bytes} {n : Nat},
    F.decodeWalRecordHeader o b = .ok n → kWalHeaderSize ≤ n
  encodeWalRecord_decode : ∀ {o : FormatOptions} {r : Record} {b : Bytes} {n : Nat},
    F.decodeWalRecordHeader o (b.take kWalHeaderSize) = .ok n → b.length = n →
      F.decodeWalRecord o b = .ok r → F.encodeWalRecord o r = .ok b

/-- The encoders refuse with `InvalidArgument`. -/
structure StorageFormat.Plain (F : StorageFormat) : Prop where
  encodeTable_error : ∀ {o : FormatOptions} {g : Nat} {rs : List Record} {e : Status},
    F.encodeTable o g rs = .error e → e.code = .invalidArgument
  encodeManifest_error : ∀ {o : FormatOptions} {v : Version} {e : Status}, v.Valid o →
    F.encodeManifest o v = .error e → e.code = .invalidArgument
  encodeWalRecord_error : ∀ {o : FormatOptions} {r : Record} {e : Status},
    F.encodeWalRecord o r = .error e → e.code = .invalidArgument

/-- What a file says does not depend on the limits under which it is read. Sequence and file
numbers have 64 bits, and a record without an encoding is refused with `InvalidArgument`. -/
structure StorageFormat.Portable (F : StorageFormat) : Prop where
  openTable_agree : ∀ {o o' : FormatOptions} {b : Bytes} {t t' : TableMetadata × List Record},
    F.openTable o b = .ok t → F.openTable o' b = .ok t' → t = t'
  decodeManifest_agree : ∀ {o o' : FormatOptions} {b : Bytes} {v v' : Version},
    F.decodeManifest o b = .ok v → F.decodeManifest o' b = .ok v' → v = v'
  encodeManifest_decode : ∀ {o : FormatOptions} {b : Bytes} {v : Version},
    F.decodeManifest o b = .ok v → F.encodeManifest o v = .ok b
  encodeWalRecord_agree : ∀ {o o' : FormatOptions} {r : Record} {b b' : Bytes},
    F.encodeWalRecord o r = .ok b → F.encodeWalRecord o' r = .ok b' → b = b'
  decodeWalRecordHeader_agree : ∀ {o o' : FormatOptions} {b : Bytes} {n n' : Nat},
    F.decodeWalRecordHeader o b = .ok n → F.decodeWalRecordHeader o' b = .ok n' → n = n'
  decodeWalRecord_agree : ∀ {o o' : FormatOptions} {b : Bytes} {r r' : Record},
    F.decodeWalRecord o b = .ok r → F.decodeWalRecord o' b = .ok r' → r = r'
  encodeManifest_word : ∀ {o : FormatOptions} {b : Bytes} {v : Version},
    F.encodeManifest o v = .ok b → v.lastSequence ≤ maxUInt64 ∧ v.nextFileNumber ≤ maxUInt64
  encodeWalRecord_word : ∀ {o : FormatOptions} {r : Record} {b : Bytes},
    F.encodeWalRecord o r = .ok b → r.sequence ≤ maxUInt64
  encodeWalRecord_error : ∀ {o : FormatOptions} {r : Record} {e : Status},
    F.encodeWalRecord o r = .error e → e.code = .invalidArgument

/-! ## Table readers -/

/-- An open `SSTableReader`. It goes on reading the contents it was opened on. -/
structure SSTableReader where
  path : FileName
  metadata : TableMetadata
  records : List Record
  deriving DecidableEq, Repr

abbrev SSTableReader.generation (t : SSTableReader) : Nat := t.metadata.generation

/-- `SSTableReader::Get`, which shows tombstones. -/
def SSTableReader.get (o : FormatOptions) (t : SSTableReader) (key : Bytes) : LookupResult :=
  if key.isEmpty then { status := .invalidArgument "key must not be empty" }
  else if o.maxKeySize < key.length then
    { status := .invalidArgument "key exceeds configured maximum size" }
  else if key < t.metadata.minimumKey ∨ t.metadata.maximumKey < key then
    { status := .notFound "key is outside table range" }
  else match findKey t.records key with
    | none => { status := .notFound "key does not exist in candidate block" }
    | some r => { status := .ok, sequence := r.sequence, type := r.type, value := r.value }

section

variable (F : StorageFormat) (o : FormatOptions)

/-- `SSTableReader::Open` -/
def openReader (path : FileName) : Io SSTableReader := do
  let content ← readFile path
  let (metadata, records) ← Prog.ofExcept (F.openTable o content)
  pure { path := path, metadata := metadata, records := records }

/-! ## Publishing a table -/

/-- Where `PublishTable` stands between two of its calls on the environment. -/
inductive PublishStage where
  | start
  | write (file : Inode) (encoded : Bytes)
  | sync (file : Inode)
  | rename
  | syncDirectory
  | openReader
  | cleanup (status : Status)
  | done (result : Except Status SSTableReader)

/-- One call of `PublishTable` on the environment. -/
def publishStep (generation : Nat) (memtable : MemTable) : PublishStage → Io PublishStage
  | .start =>
    if generation = 0 ∨ memtable.isEmpty then
      pure (.done (.error (.invalidArgument
        "flush requires a directory, generation, and non-empty MemTable")))
    else match F.encodeTable o generation memtable.records with
      | .error e => pure (.done (.error e))
      | .ok encoded => do
        match ← Prog.attempt (createTruncated (.sstTmp generation)) with
        | .error e => pure (.done (.error e))
        | .ok file => pure (.write file encoded)
  | .write file encoded => do
    match ← Prog.attempt (writeAll file encoded) with
    | .error e => pure (.cleanup e)
    | .ok () => pure (.sync file)
  | .sync file => do
    match ← Prog.attempt (syncFile file) with
    | .error e => pure (.cleanup e)
    | .ok () => pure .rename
  | .rename => do
    match ← Prog.attempt (renameFile (.sstTmp generation) (.sst generation)) with
    | .error e => pure (.cleanup e)
    | .ok () => pure .syncDirectory
  | .syncDirectory => do
    match ← Prog.attempt MiniKV.syncDirectory with
    | .error e => pure (.done (.error e))
    | .ok () => pure .openReader
  | .openReader => do
    let result ← Prog.attempt (MiniKV.openReader F o (.sst generation))
    pure (.done result)
  | .cleanup status => do
    let _ ← Prog.attempt (removeFile (.sstTmp generation))
    pure (.done (.error status))
  | .done result => pure (.done result)

/-- Run up to a number of stages; running out of them is an error no caller meets. -/
def runPublish (generation : Nat) (memtable : MemTable) :
    Nat → PublishStage → Io (Except Status SSTableReader)
  | _, .done result => pure result
  | 0, _ => pure (.error (.ioError "publication is unfinished"))
  | n + 1, stage => do
    let stage ← publishStep F o generation memtable stage
    runPublish generation memtable n stage

/-- `PublishTable`: six calls at most. -/
def publishTable (generation : Nat) (memtable : MemTable) : Io SSTableReader := do
  Prog.ofExcept (← runPublish F o generation memtable 6 .start)

/-! ## The MANIFEST -/

/-- `LoadManifest` -/
def loadManifest : Io Version := do
  let encoded ← readFile .manifest
  if kMaximumManifestSize < encoded.length then
    Prog.fail (manifestCorruption "file exceeds the format size limit")
  else Prog.ofExcept (F.decodeManifest o encoded)

/-- `BestEffortRemove` -/
def bestEffortRemove : List FileName → Io Unit
  | [] => pure ()
  | f :: fs => do
    let _ ← Prog.attempt (removeFile f)
    bestEffortRemove fs

/-- Give up on temporary files, keeping the error that made them useless. -/
def abandon (files : List FileName) (status : Status) : Io Unit := do
  bestEffortRemove files
  Prog.fail status

/-- Run a call, and remove temporary files if it fails. -/
def orAbandon (files : List FileName) (call : Io Unit) : Io Unit := do
  match ← Prog.attempt call with
  | .ok () => pure ()
  | .error e => abandon files e

/-- `PublishManifest` -/
def publishManifest (version : Version) : Io Unit := do
  let encoded ← Prog.ofExcept (F.encodeManifest o version)
  let file ← createTruncated .manifestTmp
  orAbandon [.manifestTmp] (writeAll file encoded)
  orAbandon [.manifestTmp] (syncFile file)
  orAbandon [.manifestTmp] (renameFile .manifestTmp .manifest)
  MiniKV.syncDirectory

/-! ## Publishing the outputs of a compaction -/

structure PreparedOutput where
  fileNumber : Nat
  encoded : Bytes

/-- Encode every output before the first file is touched. -/
def prepareOutputs : Nat → List MemTable → Except Status (List PreparedOutput)
  | _, [] => .ok []
  | number, output :: outputs =>
    match F.encodeTable o number output.records with
    | .error e => .error e
    | .ok encoded =>
      match prepareOutputs (number + 1) outputs with
      | .error e => .error e
      | .ok rest => .ok ({ fileNumber := number, encoded := encoded } :: rest)

def writeOutputs (temporaries : List FileName) : List PreparedOutput → Io Unit
  | [] => pure ()
  | output :: outputs => do
    match ← Prog.attempt (createTruncated (.sstTmp output.fileNumber)) with
    | .error e => abandon temporaries e
    | .ok file => do
      orAbandon temporaries (writeAll file output.encoded)
      orAbandon temporaries (syncFile file)
      writeOutputs temporaries outputs

def renameOutputs (temporaries : List FileName) : List PreparedOutput → Io Unit
  | [] => pure ()
  | output :: outputs => do
    orAbandon temporaries (renameFile (.sstTmp output.fileNumber) (.sst output.fileNumber))
    renameOutputs temporaries outputs

def openOutputs : List PreparedOutput → Io (List SSTableReader)
  | [] => pure []
  | output :: outputs => do
    let table ← MiniKV.openReader F o (.sst output.fileNumber)
    let tables ← openOutputs outputs
    pure (table :: tables)

/-- `PublishCompactionTables` -/
def publishCompactionTables (firstFileNumber : Nat) (outputs : List MemTable) :
    Io (List SSTableReader) :=
  if firstFileNumber = 0 then
    Prog.fail (.invalidArgument "compaction publication arguments are invalid")
  else if outputs.isEmpty then pure []
  else if maxUInt64 - firstFileNumber < outputs.length then
    Prog.fail (.invalidArgument "compaction file numbers overflow")
  else do
    let prepared ← Prog.ofExcept (prepareOutputs F o firstFileNumber outputs)
    let temporaries := prepared.map (fun p => FileName.sstTmp p.fileNumber)
    writeOutputs temporaries prepared
    renameOutputs temporaries prepared
    MiniKV.syncDirectory
    openOutputs F o prepared

end

end MiniKV
