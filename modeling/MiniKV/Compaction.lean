import MiniKV.Format
import MiniKV.Lib.Merge

/-!
# Building the outputs of a compaction

`BuildCompactionOutputs` merges the records of its input tables, keeps the
newest record of every key, drops tombstones where it may, and cuts the result
into MemTables of bounded size.
-/

namespace MiniKV

open Lib

structure CompactionInput where
  level : Nat
  table : SSTableReader

structure CompactionBuildStats where
  inputRecords : Nat := 0
  outputRecords : Nat := 0
  duplicateRecordsDropped : Nat := 0
  tombstonesDropped : Nat := 0
  deriving DecidableEq, Repr

def compactionCorruption (message : String) : Status := .corruption ("compaction: " ++ message)

/-- `AddOutputRecord`. The outputs are kept newest first while they are built. -/
def addOutputRecord (o : Options) (r : Record) : List MemTable → Except Status (List MemTable)
  | [] => (MemTable.empty.applyRecord o.toFormatOptions r).map ([·])
  | current :: earlier =>
    if !current.isEmpty ∧ (o.compactionOutputSizeLimit < r.payloadSize ∨
        o.compactionOutputSizeLimit - r.payloadSize < current.approximateDataSize) then
      (MemTable.empty.applyRecord o.toFormatOptions r).map (· :: current :: earlier)
    else (current.applyRecord o.toFormatOptions r).map (· :: earlier)

/-- The merge loop; each round passes at least one record. -/
def buildLoop (o : Options) (mayDropTombstones : Bool) : Nat → List (Cursor Record) →
    List MemTable → CompactionBuildStats → Except Status (List MemTable × CompactionBuildStats)
  | 0, _, outputs, stats => .ok (outputs, stats)
  | n + 1, heap, outputs, stats =>
    match mergeRound Record.key Record.sequence heap with
    | none => .ok (outputs, stats)
    | some (.error ()) =>
      .error (compactionCorruption "two input records reuse one global Sequence number")
    | some (.ok (winner, runs, heap)) =>
      let stats := { stats with
        duplicateRecordsDropped := stats.duplicateRecordsDropped + (runs - 1) }
      if winner.type = .deletion ∧ mayDropTombstones then
        buildLoop o mayDropTombstones n heap outputs
          { stats with tombstonesDropped := stats.tombstonesDropped + 1 }
      else match addOutputRecord o winner outputs with
        | .error e => .error e
        | .ok outputs =>
          buildLoop o mayDropTombstones n heap outputs
            { stats with outputRecords := stats.outputRecords + 1 }

/-- The loop over the inputs: their records, and how many there are. -/
def readInputs : List Nat → Nat → List CompactionInput → Except Status (List (List Record) × Nat)
  | _, count, [] => .ok ([], count)
  | seen, count, input :: inputs =>
    let metadata := input.table.metadata
    if 1 < input.level ∨ seen.contains metadata.generation ∨ maxUInt64 < metadata.recordCount then
      .error (.invalidArgument "compaction input is invalid")
    else
      let records := input.table.records.take metadata.recordCount
      if records.length ≠ metadata.recordCount then
        .error (compactionCorruption "input record count changed while reading")
      else if maxUInt64 - records.length < count then
        .error (.invalidArgument "compaction record count overflows")
      else match readInputs (metadata.generation :: seen) (count + records.length) inputs with
        | .error e => .error e
        | .ok (sources, count) => .ok (records :: sources, count)

/-- `BuildCompactionOutputs` -/
def buildCompactionOutputs (o : Options) (mayDropTombstones : Bool)
    (inputs : List CompactionInput) : Except Status (List MemTable × CompactionBuildStats) :=
  if inputs.isEmpty ∨ o.compactionOutputSizeLimit = 0 then
    .error (.invalidArgument "compaction requires inputs and a non-zero output size limit")
  else match readInputs [] 0 inputs with
    | .error e => .error e
    | .ok (sources, count) =>
      match buildLoop o mayDropTombstones sources.flatten.length (startCursors sources) []
          { inputRecords := count } with
      | .error e => .error e
      | .ok (outputs, stats) => .ok (outputs.reverse, stats)

end MiniKV
