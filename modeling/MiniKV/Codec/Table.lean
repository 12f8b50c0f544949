import MiniKV.Codec.Wal
import MiniKV.Codec.Bloom
import MiniKV.Codec.Manifest
import MiniKV.Format

/-!
# The table codec

`table.cpp`: a header, data blocks of log records, a sparse index of their first
keys, a Bloom filter and a footer that locates the regions.
-/

namespace MiniKV

open Lib

def kTableMagic : Bytes := [77, 75, 83, 84]
def kBlockMagic : Bytes := [77, 75, 68, 66]
def kIndexMagic : Bytes := [77, 75, 73, 88]
def kFooterMagic : Bytes := [77, 75, 83, 70]
def kTableFormatVersion : Byte := 3
def kTableHeaderSize : Nat := 32
def kTableIndexHeaderSize : Nat := 20
def kTableFooterSize : Nat := 104
def kMaximumTableIndexSize : Nat := 64 * 1024 * 1024
def kIndexEntryFixedSize : Nat := 16

def tableCorruption (message : String) : Status := .corruption ("sstable: " ++ message)

/-- `ValidateTableOptions` -/
def validateTableOptions (o : FormatOptions) : Status :=
  if o.maxKeySize = 0 ∨ maxUInt32 < o.maxKeySize ∨ maxUInt32 < o.maxValueSize ∨
      o.sstableBlockSize < kTableBlockHeaderSize + kWalHeaderSize ∨
      maxUInt32 - kTableBlockHeaderSize < o.sstableBlockSize ∨
      !o.bloomFalsePositiveRate.isProbability then
    .invalidArgument "SSTable size options are invalid"
  else if maxUInt32 < kWalHeaderSize + o.maxKeySize + o.maxValueSize then
    .invalidArgument "configured record sizes exceed format limits"
  else .ok

/-- `MaximumBlockSize` -/
def maximumBlockSize (o : FormatOptions) : Nat :=
  kTableBlockHeaderSize + max o.sstableBlockSize (kWalHeaderSize + o.maxKeySize + o.maxValueSize)

structure IndexEntry where
  firstKey : Bytes
  blockOffset : Nat
  blockSize : Nat
  deriving DecidableEq, Repr

/-! ## Encoding -/

/-- What the loop of `EncodeTable` has built so far. -/
structure BlockBuilder where
  data : Bytes := []
  index : List IndexEntry := []
  payload : Bytes := []
  records : Nat := 0
  firstKey : Bytes := []

/-- The header of a block up to its checksum. -/
def blockHeader (records payloadSize : Nat) : Bytes :=
  kBlockMagic ++ (putFixed 4 (kTableBlockHeaderSize + payloadSize) ++
    (putFixed 4 records ++ putFixed 4 payloadSize))

def encodeBlock (records : Nat) (payload : Bytes) : Bytes :=
  blockHeader records payload.length ++
    (putFixed 4 (crc32c (blockHeader records payload.length ++ payload)) ++ payload)

/-- `FinishBlock` -/
def finishBlock (b : BlockBuilder) : Except Status BlockBuilder :=
  if b.records = 0 then .ok b
  else if maxUInt32 < kTableBlockHeaderSize + b.payload.length then
    .error (.invalidArgument "SSTable data block exceeds format limit")
  else if b.index.length = maxUInt32 then
    .error (.invalidArgument "SSTable block count exceeds format limit")
  else .ok {
    data := b.data ++ encodeBlock b.records b.payload
    index := b.index ++ [{
      firstKey := b.firstKey
      blockOffset := kTableHeaderSize + b.data.length
      blockSize := kTableBlockHeaderSize + b.payload.length }] }

/-- Put one record's encoding into the open block. -/
def appendToBlock (b : BlockBuilder) (key encoded : Bytes) : Except Status BlockBuilder :=
  if b.records = maxUInt32 ∨ maxUInt32 - encoded.length < b.payload.length then
    .error (.invalidArgument "SSTable data block exceeds format limit")
  else .ok { b with
    firstKey := if b.records = 0 then key else b.firstKey
    payload := b.payload ++ encoded
    records := b.records + 1 }

/-- The loop of `EncodeTable` over the records. -/
def buildBlocks (o : FormatOptions) : BlockBuilder → List Record → Except Status BlockBuilder
  | b, [] => finishBlock b
  | b, r :: rs =>
    match encodeWalRecord o r with
    | .error e => .error e
    | .ok encoded =>
      let room := kTableBlockHeaderSize + b.payload.length + encoded.length ≤ o.sstableBlockSize
      match if b.records ≠ 0 ∧ ¬ room then finishBlock b else .ok b with
      | .error e => .error e
      | .ok b =>
        match appendToBlock b r.key encoded with
        | .error e => .error e
        | .ok b => buildBlocks o b rs

def encodeIndexEntry (e : IndexEntry) : Bytes :=
  putFixed 4 e.firstKey.length ++ (putFixed 8 e.blockOffset ++ (putFixed 4 e.blockSize ++ e.firstKey))

/-- The header of the index up to its checksum. -/
def indexHeader (entries payloadSize : Nat) : Bytes :=
  kIndexMagic ++ (putFixed 4 (kTableIndexHeaderSize + payloadSize) ++
    (putFixed 4 entries ++ putFixed 4 payloadSize))

def encodeIndex (entries : List IndexEntry) : Bytes :=
  let payload := entries.flatMap encodeIndexEntry
  indexHeader entries.length payload.length ++
    (putFixed 4 (crc32c (indexHeader entries.length payload.length ++ payload)) ++ payload)

/-- Bits and hash functions for a number of keys, from `BloomFilter::Create`. -/
abbrev BloomShape := Nat → Double → Except Status (Nat × Nat)

def addKeys : BloomFilter → List Record → Except Status BloomFilter
  | f, [] => .ok f
  | f, r :: rs =>
    match f.add r.key with
    | .error e => .error e
    | .ok f => addKeys f rs

/-- The Bloom region of `EncodeTable`. -/
def buildBloom (shape : BloomShape) (o : FormatOptions) (rs : List Record) : Except Status Bytes :=
  if !o.bloomFilterEnabled then .ok []
  else match shape rs.length o.bloomFalsePositiveRate with
    | .error e => .error e
    | .ok (bitCount, hashCount) =>
      match addKeys (.ofShape bitCount hashCount) rs with
      | .error e => .error e
      | .ok f => encodeBloomFilter f

/-- The table header up to its checksum. -/
def tableHeader (generation records blocks : Nat) : Bytes :=
  kTableMagic ++ ([kTableFormatVersion] ++ ([0] ++ (putFixed 2 kTableHeaderSize ++
    (putFixed 8 generation ++ (putFixed 8 records ++ putFixed 4 blocks)))))

/-- What the footer locates. -/
structure TableFooter where
  fileSize : Nat
  generation : Nat
  recordCount : Nat
  minimumSequence : Nat
  maximumSequence : Nat
  dataOffset : Nat
  dataSize : Nat
  indexOffset : Nat
  indexSize : Nat
  bloomOffset : Nat
  bloomSize : Nat
  blockCount : Nat
  deriving DecidableEq, Repr

/-- The footer up to its checksum. -/
def TableFooter.encode (f : TableFooter) : Bytes :=
  kFooterMagic ++ ([kTableFormatVersion] ++ ([0] ++ (putFixed 2 kTableFooterSize ++
    (putFixed 8 f.fileSize ++ (putFixed 8 f.generation ++ (putFixed 8 f.recordCount ++
      (putFixed 8 f.minimumSequence ++ (putFixed 8 f.maximumSequence ++
        (putFixed 8 f.dataOffset ++ (putFixed 8 f.dataSize ++ (putFixed 8 f.indexOffset ++
          (putFixed 8 f.indexSize ++ (putFixed 8 f.bloomOffset ++ (putFixed 8 f.bloomSize ++
            putFixed 4 f.blockCount))))))))))))))

/-- A part of the file and the checksum behind it. -/
def sealed (bytes : Bytes) : Bytes := bytes ++ putFixed 4 (crc32c bytes)

/-- The footer of a table with the given regions. -/
def footerOf (generation : Nat) (rs : List Record) (blocks dataSize indexSize bloomSize : Nat) :
    TableFooter where
  fileSize := kTableHeaderSize + dataSize + indexSize + bloomSize + kTableFooterSize
  generation := generation
  recordCount := rs.length
  minimumSequence := minimumSequence rs
  maximumSequence := maximumSequence rs
  dataOffset := kTableHeaderSize
  dataSize := dataSize
  indexOffset := kTableHeaderSize + dataSize
  indexSize := indexSize
  bloomOffset := kTableHeaderSize + dataSize + indexSize
  bloomSize := bloomSize
  blockCount := blocks

/-- `EncodeTable`. A generation is a 64-bit field. -/
def encodeTable (shape : BloomShape) (o : FormatOptions) (generation : Nat) (rs : List Record) :
    Except Status Bytes :=
  let options := validateTableOptions o
  if generation = 0 ∨ rs.isEmpty ∨ maxUInt64 < generation ∨ maxUInt64 < rs.length then
    .error (.invalidArgument "SSTable requires a non-zero generation and at least one record")
  else if !options.isOk then .error options
  else match buildBlocks o {} rs with
    | .error e => .error e
    | .ok b =>
      let index := encodeIndex b.index
      if maxUInt32 < index.length ∨ kMaximumTableIndexSize < index.length then
        .error (.invalidArgument "SSTable sparse index exceeds format limit")
      else match buildBloom shape o rs with
        | .error e => .error e
        | .ok bloom =>
          let footer := footerOf generation rs b.index.length b.data.length index.length bloom.length
          if maxUInt64 < footer.fileSize then
            .error (.invalidArgument "SSTable physical size overflows")
          else .ok (sealed (tableHeader generation rs.length b.index.length) ++
            (b.data ++ (index ++ (bloom ++ sealed footer.encode))))

/-! ## Opening -/

/-- The loop of `ReadBlock` over the records of a block, from a record number on. -/
def readBlockRecords (o : FormatOptions) (number : Nat) :
    Nat → Option Bytes → Bytes → Except Status (List Record)
  | 0, _, remaining =>
    if remaining.isEmpty then .ok []
    else .error (tableCorruption "data block has trailing records or bytes")
  | n + 1, previous, remaining =>
    match decodeWalRecord o remaining with
    | .error e =>
      .error (tableCorruption ("data record " ++ toString number ++ " is invalid: " ++ e.toString))
    | .ok (consumed, r) =>
      if previous.any (fun k => r.key ≤ k) then
        .error (tableCorruption "data block keys are not strictly ordered")
      else match readBlockRecords o (number + 1) n (some r.key) (remaining.drop consumed) with
        | .error e => .error e
        | .ok rs => .ok (r :: rs)

/-- `SSTableReader::ReadBlock`, with `records->reserve(record_count)` behind its checks. -/
def blockDecoder (o : FormatOptions) (content : Bytes) (e : IndexEntry) : Decoder (List Record) :=
  let block := (content.drop e.blockOffset).take e.blockSize
  if block.length ≠ e.blockSize then
    Report.fail (tableCorruption "region reaches beyond the physical file")
  else if block.take 4 ≠ kBlockMagic then
    Report.fail (tableCorruption "data block magic does not match")
  else if fieldAt block 4 4 ≠ e.blockSize ∨ fieldAt block 8 4 = 0 ∨
      fieldAt block 12 4 ≠ block.length - kTableBlockHeaderSize ∨
      fieldAt block 12 4 / kWalHeaderSize < fieldAt block 8 4 ∨
      crc32c (block.take 16 ++ block.drop kTableBlockHeaderSize) ≠ fieldAt block 16 4 then
    Report.fail (tableCorruption "data block fields or checksum are invalid")
  else do
    Report.ask {
      count := fieldAt block 8 4
      elementSize := kWalHeaderSize
      available := (block.drop kTableBlockHeaderSize).length }
    Report.ofExcept
      (readBlockRecords o 0 (fieldAt block 8 4) none (block.drop kTableBlockHeaderSize))

/-- What `ReadBlock` returns. -/
def readBlock (o : FormatOptions) (content : Bytes) (e : IndexEntry) :
    Except Status (List Record) :=
  (blockDecoder o content e).result

theorem result_blockDecoder (o : FormatOptions) (content : Bytes) (e : IndexEntry) :
    (blockDecoder o content e).result = readBlock o content e := rfl

theorem readBlock_eq (o : FormatOptions) (content : Bytes) (e : IndexEntry) :
    readBlock o content e =
    let block := (content.drop e.blockOffset).take e.blockSize
    if block.length ≠ e.blockSize then
      .error (tableCorruption "region reaches beyond the physical file")
    else if block.take 4 ≠ kBlockMagic then
      .error (tableCorruption "data block magic does not match")
    else if fieldAt block 4 4 ≠ e.blockSize ∨ fieldAt block 8 4 = 0 ∨
        fieldAt block 12 4 ≠ block.length - kTableBlockHeaderSize ∨
        fieldAt block 12 4 / kWalHeaderSize < fieldAt block 8 4 ∨
        crc32c (block.take 16 ++ block.drop kTableBlockHeaderSize) ≠ fieldAt block 16 4 then
      .error (tableCorruption "data block fields or checksum are invalid")
    else readBlockRecords o 0 (fieldAt block 8 4) none (block.drop kTableBlockHeaderSize) := by
  simp only [readBlock, blockDecoder, Report.result_ite, Report.result_fail,
    Report.result_ask_bind, Report.result_ofExcept]

/-- The loop of `Open` over the index entries: the entries, the bytes behind them and
the offset where the next block would start. -/
def decodeIndexEntries (o : FormatOptions) (dataOffset dataSize : Nat) :
    Nat → Option Bytes → Nat → Bytes → Except Status (List IndexEntry × Bytes × Nat)
  | 0, _, expected, remaining => .ok ([], remaining, expected)
  | n + 1, previous, expected, remaining =>
    if remaining.length < kIndexEntryFixedSize then
      .error (tableCorruption "sparse index entry header is incomplete")
    else
      let keySize := fieldAt remaining 0 4
      let blockOffset := fieldAt remaining 4 8
      let blockSize := fieldAt remaining 12 4
      let keys := remaining.drop kIndexEntryFixedSize
      if keySize = 0 ∨ o.maxKeySize < keySize ∨ keys.length < keySize ∨
          blockSize < kTableBlockHeaderSize ∨ maximumBlockSize o < blockSize ∨
          blockOffset ≠ expected ∨ blockOffset < dataOffset ∨
          dataOffset + dataSize < blockOffset + blockSize then
        .error (tableCorruption "sparse index entry is out of bounds")
      else
        let key := keys.take keySize
        if previous.any (fun k => key ≤ k) then
          .error (tableCorruption "sparse index keys are not strictly ordered")
        else match decodeIndexEntries o dataOffset dataSize n (some key) (expected + blockSize)
            (keys.drop keySize) with
          | .error e => .error e
          | .ok (entries, rest, offset) =>
            .ok ({ firstKey := key, blockOffset := blockOffset, blockSize := blockSize } :: entries,
              rest, offset)

/-- The loop of `Open` that reads every block and checks it against the index and the
filter. -/
def blocksDecoder (o : FormatOptions) (content : Bytes) (filter : Option BloomFilter) :
    Option Bytes → List IndexEntry → Decoder (List Record)
  | _, [] => pure []
  | previous, e :: es => do
    let rs ← blockDecoder o content e
    if rs.isEmpty ∨ firstKey rs ≠ e.firstKey ∨ previous.any (fun k => firstKey rs ≤ k) then
      Report.fail (tableCorruption "data blocks disagree with the sparse index")
    else if !filter.all (fun f => rs.all (fun r => f.mayContain r.key)) then
      Report.fail (tableCorruption "Bloom filter has a false negative for a stored key")
    else do
      let rest ← blocksDecoder o content filter (some (lastKey rs)) es
      pure (rs ++ rest)

/-- What that loop comes to. -/
def verifyBlocks (o : FormatOptions) (content : Bytes) (filter : Option BloomFilter)
    (previous : Option Bytes) (es : List IndexEntry) : Except Status (List Record) :=
  (blocksDecoder o content filter previous es).result

theorem result_blocksDecoder (o : FormatOptions) (content : Bytes) (filter : Option BloomFilter)
    (previous : Option Bytes) (es : List IndexEntry) :
    (blocksDecoder o content filter previous es).result =
      verifyBlocks o content filter previous es := rfl

@[simp] theorem verifyBlocks_nil (o : FormatOptions) (content : Bytes)
    (filter : Option BloomFilter) (previous : Option Bytes) :
    verifyBlocks o content filter previous [] = .ok [] := rfl

theorem verifyBlocks_cons (o : FormatOptions) (content : Bytes) (filter : Option BloomFilter)
    (previous : Option Bytes) (e : IndexEntry) (es : List IndexEntry) :
    verifyBlocks o content filter previous (e :: es) =
      match readBlock o content e with
      | .error s => .error s
      | .ok rs =>
        if rs.isEmpty ∨ firstKey rs ≠ e.firstKey ∨ previous.any (fun k => firstKey rs ≤ k) then
          .error (tableCorruption "data blocks disagree with the sparse index")
        else if !filter.all (fun f => rs.all (fun r => f.mayContain r.key)) then
          .error (tableCorruption "Bloom filter has a false negative for a stored key")
        else match verifyBlocks o content filter (some (lastKey rs)) es with
          | .error s => .error s
          | .ok rest => .ok (rs ++ rest) := by
  rw [verifyBlocks, blocksDecoder, Report.result_bind, result_blockDecoder]
  cases readBlock o content e with
  | error s => rfl
  | ok rs =>
    simp only [Report.result_ite, Report.result_fail, Report.result_bind, Report.result_pure,
      result_blocksDecoder]
    split
    · rfl
    split
    · rfl
    cases verifyBlocks o content filter (some (lastKey rs)) es <;> rfl

/-- The footer's fields. -/
def decodeFooter (b : Bytes) : TableFooter where
  fileSize := fieldAt b 8 8
  generation := fieldAt b 16 8
  recordCount := fieldAt b 24 8
  minimumSequence := fieldAt b 32 8
  maximumSequence := fieldAt b 40 8
  dataOffset := fieldAt b 48 8
  dataSize := fieldAt b 56 8
  indexOffset := fieldAt b 64 8
  indexSize := fieldAt b 72 8
  bloomOffset := fieldAt b 80 8
  bloomSize := fieldAt b 88 8
  blockCount := fieldAt b 96 4

/-- The checks on the header. -/
def headerAccepted (header : Bytes) : Bool :=
  fieldAt header 6 2 = kTableHeaderSize ∧ fieldAt header 8 8 ≠ 0 ∧ fieldAt header 16 8 ≠ 0 ∧
  fieldAt header 24 4 ≠ 0 ∧ crc32c (header.take 28) = fieldAt header 28 4

/-- The checks on the footer's own fields. -/
def footerAccepted (header footer : Bytes) (fileSize : Nat) : Bool :=
  let f := decodeFooter footer
  fieldAt footer 6 2 = kTableFooterSize ∧ f.fileSize = fileSize ∧
  f.generation = fieldAt header 8 8 ∧ f.recordCount = fieldAt header 16 8 ∧
  f.blockCount = fieldAt header 24 4 ∧ f.minimumSequence ≠ 0 ∧
  f.minimumSequence ≤ f.maximumSequence ∧ crc32c (footer.take 100) = fieldAt footer 100 4

/-- The checks that the regions fill the file. -/
def regionsAccepted (f : TableFooter) (fileSize : Nat) : Bool :=
  f.dataOffset = kTableHeaderSize ∧ f.dataSize ≠ 0 ∧ kTableIndexHeaderSize ≤ f.indexSize ∧
  f.indexSize ≤ kMaximumTableIndexSize ∧
  (f.bloomSize = 0 ∨ kBloomFilterHeaderSize ≤ f.bloomSize) ∧
  f.bloomSize ≤ kBloomFilterHeaderSize + kMaximumBloomFilterSize ∧
  f.indexOffset = f.dataOffset + f.dataSize ∧ f.bloomOffset = f.indexOffset + f.indexSize ∧
  f.bloomOffset + f.bloomSize + kTableFooterSize = fileSize

/-- The checks on the header of the index. -/
def indexAccepted (f : TableFooter) (index : Bytes) : Bool :=
  fieldAt index 4 4 = f.indexSize ∧ fieldAt index 8 4 = f.blockCount ∧
  fieldAt index 12 4 = f.indexSize - kTableIndexHeaderSize ∧
  crc32c (index.take 16 ++ index.drop kTableIndexHeaderSize) = fieldAt index 16 4

/-- The filter of a table, if it has one. -/
def openBloom (f : TableFooter) (content : Bytes) : Except Status (Option BloomFilter) :=
  if f.bloomSize = 0 then .ok none
  else match decodeBloomFilter ((content.drop f.bloomOffset).take f.bloomSize) with
    | .error e => .error (tableCorruption e.toString)
    | .ok filter =>
      if filter.keyCount ≠ f.recordCount then
        .error (tableCorruption "Bloom key count disagrees with the Footer")
      else .ok (some filter)

/-- `SSTableMetadata` -/
structure SSTableMetadata extends TableMetadata where
  dataOffset : Nat
  dataSize : Nat
  indexOffset : Nat
  indexSize : Nat
  bloomOffset : Nat
  bloomSize : Nat
  bloomBitCount : Nat
  bloomHashCount : Nat
  blockCount : Nat
  deriving DecidableEq, Repr

/-- What an open `SSTableReader` keeps: besides the file itself only the metadata, the
sparse index and the filter. -/
structure TableReader where
  options : FormatOptions
  content : Bytes
  metadata : SSTableMetadata
  index : List IndexEntry
  bloomFilter : Option BloomFilter

/-- The metadata of a reader, from the footer, the filter and the records of the blocks. -/
def readerMetadata (f : TableFooter) (fileSize : Nat) (filter : Option BloomFilter)
    (rs : List Record) : SSTableMetadata where
  generation := f.generation
  fileSize := fileSize
  recordCount := f.recordCount
  minimumSequence := f.minimumSequence
  maximumSequence := f.maximumSequence
  minimumKey := firstKey rs
  maximumKey := lastKey rs
  dataOffset := f.dataOffset
  dataSize := f.dataSize
  indexOffset := f.indexOffset
  indexSize := f.indexSize
  bloomOffset := f.bloomOffset
  bloomSize := f.bloomSize
  bloomBitCount := (filter.map BloomFilter.bitCount).getD 0
  bloomHashCount := (filter.map BloomFilter.hashCount).getD 0
  blockCount := f.blockCount

/-- `SSTableReader::Open` behind the checks of the regions, from
`index_.reserve(block_count)` on: the reader, and the records that the verification of the
blocks met. -/
def regionsDecoder (o : FormatOptions) (content : Bytes) (f : TableFooter) (index : Bytes) :
    Decoder (TableReader × List Record) := do
  Report.ask {
    count := f.blockCount
    elementSize := kIndexEntryFixedSize
    available := (index.drop kTableIndexHeaderSize).length }
  let filter ← Report.ofExcept (openBloom f content)
  let decoded ← Report.ofExcept (decodeIndexEntries o f.dataOffset f.dataSize f.blockCount none
    f.dataOffset (index.drop kTableIndexHeaderSize))
  let (entries, rest, offset) := decoded
  if !rest.isEmpty ∨ offset ≠ f.indexOffset then
    Report.fail (tableCorruption "sparse index has trailing bytes or misses data")
  else do
    let rs ← blocksDecoder o content filter none entries
    if rs.length ≠ f.recordCount ∨ minimumSequence rs ≠ f.minimumSequence ∨
        maximumSequence rs ≠ f.maximumSequence then
      Report.fail (tableCorruption "Footer record or sequence summary is incorrect")
    else pure ({
      options := o
      content := content
      metadata := readerMetadata f content.length filter rs
      index := entries
      bloomFilter := filter }, rs)

/-- What `Open` returns from there. -/
def openRegions (o : FormatOptions) (content : Bytes) (f : TableFooter) (index : Bytes) :
    Except Status (TableReader × List Record) :=
  (regionsDecoder o content f index).result

theorem openRegions_eq (o : FormatOptions) (content : Bytes) (f : TableFooter) (index : Bytes) :
    openRegions o content f index =
    match openBloom f content with
    | .error e => .error e
    | .ok filter =>
      match decodeIndexEntries o f.dataOffset f.dataSize f.blockCount none f.dataOffset
          (index.drop kTableIndexHeaderSize) with
      | .error e => .error e
      | .ok (entries, rest, offset) =>
        if !rest.isEmpty ∨ offset ≠ f.indexOffset then
          .error (tableCorruption "sparse index has trailing bytes or misses data")
        else match verifyBlocks o content filter none entries with
          | .error e => .error e
          | .ok rs =>
            if rs.length ≠ f.recordCount ∨ minimumSequence rs ≠ f.minimumSequence ∨
                maximumSequence rs ≠ f.maximumSequence then
              .error (tableCorruption "Footer record or sequence summary is incorrect")
            else .ok ({
              options := o
              content := content
              metadata := readerMetadata f content.length filter rs
              index := entries
              bloomFilter := filter }, rs) := by
  simp only [openRegions, regionsDecoder, Report.result_bind, Report.result_ofExcept]
  cases openBloom f content with
  | error e => rfl
  | ok filter =>
    dsimp only
    cases decodeIndexEntries o f.dataOffset f.dataSize f.blockCount none f.dataOffset
        (index.drop kTableIndexHeaderSize) with
    | error e => rfl
    | ok decoded =>
      obtain ⟨entries, rest, offset⟩ := decoded
      simp only [Report.result_ite, Report.result_fail, Report.result_bind, Report.result_pure,
        result_blocksDecoder]
      cases verifyBlocks o content filter none entries <;> rfl

/-- `SSTableReader::Open` on the contents of a file. -/
def contentDecoder (o : FormatOptions) (content : Bytes) : Decoder (TableReader × List Record) :=
  let options := validateTableOptions o
  let header := content.take kTableHeaderSize
  let footer := content.drop (content.length - kTableFooterSize)
  let f := decodeFooter footer
  let index := (content.drop f.indexOffset).take f.indexSize
  if !options.isOk then Report.fail options
  else if content.length < kTableHeaderSize + kTableIndexHeaderSize + kTableFooterSize then
    Report.fail (tableCorruption "file is too small for required regions")
  else if header.take 4 ≠ kTableMagic ∨ header.getD 4 0 ≠ kTableFormatVersion then
    Report.fail (tableCorruption "header magic or format version is unsupported")
  else if !headerAccepted header then
    Report.fail (tableCorruption "header fields or checksum are invalid")
  else if footer.take 4 ≠ kFooterMagic ∨ footer.getD 4 0 ≠ kTableFormatVersion then
    Report.fail (tableCorruption "Footer magic or format version is unsupported")
  else if !footerAccepted header footer content.length then
    Report.fail (tableCorruption "Footer fields or checksum are invalid")
  else if !regionsAccepted f content.length then
    Report.fail (tableCorruption "Footer regions overlap, contain gaps, or escape the file")
  else if (maxUInt64 - kTableIndexHeaderSize) / (kIndexEntryFixedSize + o.maxKeySize) <
        f.blockCount ∨
      kTableIndexHeaderSize + f.blockCount * (kIndexEntryFixedSize + o.maxKeySize) <
        f.indexSize then
    Report.fail (tableCorruption "sparse index size exceeds configured limits")
  else if index.take 4 ≠ kIndexMagic then
    Report.fail (tableCorruption "sparse index magic does not match")
  else if !indexAccepted f index then
    Report.fail (tableCorruption "sparse index fields or checksum are invalid")
  else regionsDecoder o content f index

/-- What `Open` returns, where memory does not run out. -/
def openContent (o : FormatOptions) (content : Bytes) :
    Except Status (TableReader × List Record) :=
  (contentDecoder o content).result

theorem openContent_eq (o : FormatOptions) (content : Bytes) : openContent o content =
    let options := validateTableOptions o
    let header := content.take kTableHeaderSize
    let footer := content.drop (content.length - kTableFooterSize)
    let f := decodeFooter footer
    let index := (content.drop f.indexOffset).take f.indexSize
    if !options.isOk then .error options
    else if content.length < kTableHeaderSize + kTableIndexHeaderSize + kTableFooterSize then
      .error (tableCorruption "file is too small for required regions")
    else if header.take 4 ≠ kTableMagic ∨ header.getD 4 0 ≠ kTableFormatVersion then
      .error (tableCorruption "header magic or format version is unsupported")
    else if !headerAccepted header then
      .error (tableCorruption "header fields or checksum are invalid")
    else if footer.take 4 ≠ kFooterMagic ∨ footer.getD 4 0 ≠ kTableFormatVersion then
      .error (tableCorruption "Footer magic or format version is unsupported")
    else if !footerAccepted header footer content.length then
      .error (tableCorruption "Footer fields or checksum are invalid")
    else if !regionsAccepted f content.length then
      .error (tableCorruption "Footer regions overlap, contain gaps, or escape the file")
    else if (maxUInt64 - kTableIndexHeaderSize) / (kIndexEntryFixedSize + o.maxKeySize) <
          f.blockCount ∨
        kTableIndexHeaderSize + f.blockCount * (kIndexEntryFixedSize + o.maxKeySize) <
          f.indexSize then
      .error (tableCorruption "sparse index size exceeds configured limits")
    else if index.take 4 ≠ kIndexMagic then
      .error (tableCorruption "sparse index magic does not match")
    else if !indexAccepted f index then
      .error (tableCorruption "sparse index fields or checksum are invalid")
    else openRegions o content f index := by
  simp only [openContent, contentDecoder, Report.result_ite, Report.result_fail, openRegions]

/-- What the database layer uses of an opened table: the metadata that the MANIFEST
stores, and the records. -/
def openTable (o : FormatOptions) (content : Bytes) : Except Status (TableMetadata × List Record) :=
  (openContent o content).map (fun t => (t.1.metadata.toTableMetadata, t.2))

/-! ## The format -/

/-- The file formats of the source, for a way to choose the shape of Bloom filters. -/
def fileFormat (shape : BloomShape) : StorageFormat where
  encodeTable := encodeTable shape
  openTable := openTable
  encodeManifest := encodeManifest
  decodeManifest := decodeManifest
  encodeWalRecord := encodeWalRecord
  decodeWalRecordHeader := fun o input => (decodeWalHeader o input).map WalHeader.recordSize
  decodeWalRecord := fun o input => (decodeWalRecord o input).map Prod.snd

end MiniKV
