import MiniKV.Database
import MiniKV.Codec.Coding

/-!
# Range scans

`scan.cpp`: a scan merges the Mutable, the Immutable and every table that meets
the range, a page at a time. A page that was cut short carries a token from
which the next call resumes, as long as the database has not changed.
-/

namespace MiniKV

open Lib

structure ScanBounds where
  first : Bytes
  last : Option Bytes
  deriving DecidableEq, Repr

namespace ScanBounds

/-- Whether a key lies before the end of the range; an absent end is unbounded. -/
def beforeEnd (b : ScanBounds) (key : Bytes) : Bool :=
  match b.last with
  | none => true
  | some e => key < e

end ScanBounds

structure ScanOptions where
  bounds : ScanBounds
  limit : Nat := 100
  continuationToken : Bytes := []

structure ScanEntry where
  key : Bytes
  value : Bytes
  deriving DecidableEq, Repr

structure ScanStatistics where
  sourcesConsidered : Nat := 0
  tablesConsidered : Nat := 0
  recordsExamined : Nat := 0
  obsoleteVersionsSkipped : Nat := 0
  tombstonesSkipped : Nat := 0
  deriving DecidableEq, Repr

/-- What a successful scan returns. -/
structure ScanPage where
  entries : List ScanEntry := []
  truncated : Bool := false
  continuationToken : Bytes := []
  statistics : ScanStatistics := {}
  deriving DecidableEq, Repr

/-! ## Continuation tokens -/

def kScanTokenMagic : Bytes := [77, 75, 67, 84]
def kScanTokenFormatVersion : Byte := 1
def kScanTokenHeaderSize : Nat := 44
def kScanTokenChecksumOffset : Nat := 40
def kScanTokenHasEnd : Byte := 1

def invalidToken (message : String) : Status :=
  .invalidArgument ("scan continuation token: " ++ message)

/-- The payload of a token: both bounds and the last key of the page. -/
def scanTokenPayload (bounds : ScanBounds) (lastKey : Bytes) : Bytes :=
  bounds.first ++ (bounds.last.getD [] ++ lastKey)

/-- The header of a token up to its checksum. -/
def scanTokenPrefix (bounds : ScanBounds) (versionId lastSequence : Nat) (lastKey : Bytes) :
    Bytes :=
  kScanTokenMagic ++ ([kScanTokenFormatVersion] ++
    ([if bounds.last.isSome then kScanTokenHasEnd else 0] ++ (putFixed 2 0 ++
      (putFixed 4 (kScanTokenHeaderSize + (scanTokenPayload bounds lastKey).length) ++
        (putFixed 8 versionId ++ (putFixed 8 lastSequence ++
          (putFixed 4 bounds.first.length ++ (putFixed 4 (bounds.last.getD []).length ++
            putFixed 4 lastKey.length))))))))

/-- `EncodeScanToken` -/
def encodeScanToken (bounds : ScanBounds) (versionId lastSequence : Nat) (lastKey : Bytes) :
    Except Status Bytes :=
  if lastKey.isEmpty ∨ maxUInt32 < bounds.first.length ∨
      maxUInt32 < (bounds.last.getD []).length ∨ maxUInt32 < lastKey.length then
    .error (.invalidArgument "scan token fields are invalid")
  else if maxUInt32 < kScanTokenHeaderSize + (scanTokenPayload bounds lastKey).length then
    .error (.invalidArgument "scan token is too large")
  else
    let header := scanTokenPrefix bounds versionId lastSequence lastKey
    let payload := scanTokenPayload bounds lastKey
    .ok (header ++ (putFixed 4 (crc32c (header ++ payload)) ++ payload))

/-- `DecodeScanToken`: the key to resume after. -/
def decodeScanToken (encoded : Bytes) (expected : ScanBounds) (o : Options)
    (versionId lastSequence : Nat) : Except Status Bytes :=
  if encoded.length < kScanTokenHeaderSize then .error (invalidToken "header is incomplete")
  else if encoded.take 4 ≠ kScanTokenMagic then .error (invalidToken "magic is invalid")
  else
    let flags := encoded.getD 5 0
    let beginSize := fieldAt encoded 28 4
    let endSize := fieldAt encoded 32 4
    let lastKeySize := fieldAt encoded 36 4
    -- One flag is defined, so the flags of a valid token are 0 or 1.
    if encoded.getD 4 0 ≠ kScanTokenFormatVersion ∨ (flags ≠ 0 ∧ flags ≠ kScanTokenHasEnd) ∨
        fieldAt encoded 6 2 ≠ 0 ∨ fieldAt encoded 8 4 ≠ encoded.length ∨
        decide (flags = kScanTokenHasEnd) ≠ expected.last.isSome ∨
        (flags ≠ kScanTokenHasEnd ∧ endSize ≠ 0) ∨ o.maxKeySize < beginSize ∨
        o.maxKeySize < endSize ∨ lastKeySize = 0 ∨ o.maxKeySize < lastKeySize then
      .error (invalidToken "header fields are invalid")
    else if beginSize + endSize + lastKeySize ≠ encoded.length - kScanTokenHeaderSize then
      .error (invalidToken "payload lengths are invalid")
    else
      let payload := encoded.drop kScanTokenHeaderSize
      if crc32c (encoded.take kScanTokenChecksumOffset ++ payload) ≠
          fieldAt encoded kScanTokenChecksumOffset 4 then
        .error (invalidToken "checksum mismatch")
      else
        let lastKey := ((payload.drop beginSize).drop endSize).take lastKeySize
        if payload.take beginSize ≠ expected.first ∨
            (flags = kScanTokenHasEnd ∧
              (payload.drop beginSize).take endSize ≠ expected.last.getD []) then
          .error (invalidToken "does not match the requested range")
        else if fieldAt encoded 12 8 ≠ versionId ∨ fieldAt encoded 20 8 ≠ lastSequence then
          .error (invalidToken "is stale because the database changed")
        else if lastKey < expected.first ∨ !expected.beforeEnd lastKey then
          .error (invalidToken "resume key is outside the requested range")
        else .ok lastKey

/-! ## Sources -/

/-- The first key a source has to look at. -/
def scanLower (bounds : ScanBounds) (resumeAfter : Bytes) : Bytes :=
  if resumeAfter.isEmpty then bounds.first else resumeAfter

/-- The records that a source over sorted records still yields: from the lower bound
up to the end of the range, past the key to resume after. -/
def scanRun (bounds : ScanBounds) (resumeAfter : Bytes) (records : List Record) : List Record :=
  let run := (records.dropWhile (fun r => decide (r.key < scanLower bounds resumeAfter))).takeWhile
    (fun r => bounds.beforeEnd r.key)
  match run with
  | [] => []
  | r :: rest => if !resumeAfter.isEmpty ∧ r.key = resumeAfter then rest else r :: rest

/-- `AddMemorySource`: an empty MemTable is no source. -/
def memorySource (bounds : ScanBounds) (resumeAfter : Bytes) (m : MemTable) : List (List Record) :=
  if m.isEmpty then [] else [scanRun bounds resumeAfter m.records]

/-- Whether the scan opens an iterator on a table. -/
def meetsRange (bounds : ScanBounds) (resumeAfter : Bytes) (t : SSTableReader) : Bool :=
  !decide (t.metadata.maximumKey < scanLower bounds resumeAfter) &&
    bounds.beforeEnd t.metadata.minimumKey

/-- The checks of `SSTableReader::NewIterator`. -/
def newIterator (o : Options) (bounds : ScanBounds) (resumeAfter : Bytes) (t : SSTableReader) :
    Except Status (List Record) :=
  let lower := scanLower bounds resumeAfter
  if o.maxKeySize < lower.length ∨ o.maxKeySize < (bounds.last.getD []).length then
    .error (.invalidArgument "SSTable iterator bound is too large")
  else if bounds.last.any (fun e => decide (e < lower)) then
    .error (.invalidArgument "SSTable iterator range is reversed")
  else .ok (scanRun bounds resumeAfter t.records)

def tableSources (o : Options) (bounds : ScanBounds) (resumeAfter : Bytes)
    (tables : List SSTableReader) : Except Status (List (List Record)) :=
  (tables.filter (meetsRange bounds resumeAfter)).mapM (newIterator o bounds resumeAfter)

/-! ## The scan -/

/-- The merge loop of `Scan`. It stops one entry past the limit. -/
def scanLoop (limit : Nat) : Nat → List (Cursor Record) → List ScanEntry → ScanStatistics →
    Except Status (List ScanEntry × ScanStatistics)
  | 0, _, entries, stats => .ok (entries, stats)
  | n + 1, heap, entries, stats =>
    if limit < entries.length then .ok (entries, stats)
    else match mergeRound Record.key Record.sequence heap with
      | none => .ok (entries, stats)
      | some (.error ()) =>
        .error (.corruption "scan found one Sequence number in multiple sources")
      | some (.ok (winner, runs, heap)) =>
        let stats := { stats with
          recordsExamined := stats.recordsExamined + runs
          obsoleteVersionsSkipped := stats.obsoleteVersionsSkipped + (runs - 1) }
        if winner.type = .deletion then
          scanLoop limit n heap entries { stats with tombstonesSkipped := stats.tombstonesSkipped + 1 }
        else scanLoop limit n heap (entries ++ [⟨winner.key, winner.value⟩]) stats

/-- The end of `Scan`: a page that is too long is cut and gets a token. -/
def scanFinish (db : Database) (bounds : ScanBounds) (limit : Nat) (entries : List ScanEntry)
    (statistics : ScanStatistics) : Except Status ScanPage :=
  if limit < entries.length then
    let page := entries.take limit
    let lastKey := (page.getLast?.map ScanEntry.key).getD []
    match encodeScanToken bounds db.version.id db.lastSequence lastKey with
    | .error e => .error e
    | .ok token =>
      .ok { entries := page, truncated := true, continuationToken := token, statistics }
  else .ok { entries, statistics }

/-- `Scan` from its resume key on. -/
def scanFrom (db : Database) (bounds : ScanBounds) (limit : Nat) (resumeAfter : Bytes) :
    Except Status ScanPage :=
  if bounds.last = some bounds.first then .ok {}
  else
    let memory := memorySource bounds resumeAfter db.mutableTable ++
      (db.immutable.map (fun imm => memorySource bounds resumeAfter imm.memtable)).getD []
    match tableSources db.options bounds resumeAfter db.tables with
    | .error e => .error e
    | .ok tables =>
      let sources := memory ++ tables
      match scanLoop limit sources.flatten.length (startCursors sources) [] {
          sourcesConsidered := sources.length, tablesConsidered := tables.length } with
      | .error e => .error e
      | .ok (entries, statistics) => scanFinish db bounds limit entries statistics

/-- `Database::Scan` -/
def Database.scan (db : Database) (o : ScanOptions) : Except Status ScanPage :=
  if !db.isRunning then .error (.closed "database is not running")
  else if o.limit = 0 ∨ db.options.maximumScanEntries < o.limit then
    .error (.invalidArgument "scan limit must be between one and the configured maximum")
  else if db.options.maxKeySize < o.bounds.first.length ∨
      db.options.maxKeySize < (o.bounds.last.getD []).length then
    .error (.invalidArgument "scan bound exceeds configured maximum key size")
  else if o.bounds.last.any (fun e => decide (e < o.bounds.first)) then
    .error (.invalidArgument "scan range is reversed")
  else if o.continuationToken.isEmpty then scanFrom db o.bounds o.limit []
  else match decodeScanToken o.continuationToken o.bounds db.options db.version.id
      db.lastSequence with
    | .error e => .error e
    | .ok resumeAfter => scanFrom db o.bounds o.limit resumeAfter

/-- `PrefixUpperBound`: the last byte that can grow grows, what follows it is cut off. -/
def prefixUpperBound : Bytes → Option Bytes
  | [] => none
  | b :: rest =>
    match prefixUpperBound rest with
    | some upper => some (b :: upper)
    | none => if b.val < 255 then some [b + 1] else none

/-- `Database::ScanPrefix` -/
def Database.scanPrefix (db : Database) (keyPrefix : Bytes) (limit : Nat) (token : Bytes) :
    Except Status ScanPage :=
  db.scan { bounds := { first := keyPrefix, last := prefixUpperBound keyPrefix }, limit,
            continuationToken := token }

/-- `Database::LoadAll` -/
def Database.loadAll (db : Database) (limit : Nat) (token : Bytes) : Except Status ScanPage :=
  db.scanPrefix [] limit token

end MiniKV
