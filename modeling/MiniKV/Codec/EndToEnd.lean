import MiniKV.Codec.Reader

/-!
# Tables, end to end

What the table format promises: a file that opens is a coherent table whatever
its bytes are, a table that was encoded opens to what was encoded, and the
limits of the format decide which single record can be encoded at all.
-/

namespace MiniKV

open Lib

/-! ## The limits of the format -/

/-- A shape that `BloomFilter::Create` may come up with. -/
def BloomShape.ValidFor (shape : BloomShape) (keys : Nat) (rate : Double) : Prop :=
  ∃ bitCount hashCount, shape keys rate = .ok (bitCount, hashCount) ∧ bitCount ≠ 0 ∧
    (BloomFilter.ofShape bitCount hashCount).shapeIsValid = true

theorem buildBloom_single {shape : BloomShape} {o : FormatOptions} {r : Record}
    (h : shape.ValidFor 1 o.bloomFalsePositiveRate) :
    ∃ bloom, buildBloom shape o [r] = .ok bloom ∧
      bloom.length ≤ kBloomFilterHeaderSize + kMaximumBloomFilterSize := by
  cases hb : buildBloom shape o [r] with
  | ok bloom =>
    obtain ⟨filter, hregion⟩ := buildBloom_ok hb
    exact ⟨bloom, rfl, hregion.size_le⟩
  | error e =>
    -- an enabled filter of a valid shape takes the key and can be encoded
    exfalso
    obtain ⟨bitCount, hashCount, hs, hne, hvalid⟩ := h
    have hadd : addKeys (.ofShape bitCount hashCount) [r] =
        .ok ((BloomFilter.ofShape bitCount hashCount).insert r.key) := by
      rw [addKeys, BloomFilter.add_eq_ok.mpr ⟨hvalid, hne, by simp [BloomFilter.ofShape, maxUInt64],
        rfl⟩]
      rfl
    have hshape := (BloomFilter.insert_shapeIsValid hne r.key).trans hvalid
    have hsizes := (BloomFilter.sizes_le hshape).2.1
    simp only [kMaximumBloomFilterSize] at hsizes
    have henc := encodeBloomFilter_eq_ok.mpr ⟨hshape, by
      simp only [kBloomFilterHeaderSize, maxUInt32]; omega, by
      simp [BloomFilter.ofShape, maxUInt64], rfl⟩
    unfold buildBloom at hb
    split at hb
    · cases hb
    rw [List.length_singleton, hs] at hb
    dsimp only at hb
    rw [hadd] at hb
    dsimp only at hb
    rw [henc] at hb
    cases hb

/-- The one block of a table with one record. -/
theorem buildBlocks_single {o : FormatOptions} {r : Record} (h : r.Encodes o) :
    buildBlocks o {} [r] =
      if maxUInt32 < blockSize [r] then
        .error (.invalidArgument "SSTable data block exceeds format limit")
      else .ok { data := blockBytes [r], index := indexOf kTableHeaderSize [[r]] } := by
  have hroom : ¬ (({} : BlockBuilder).records = maxUInt32 ∨
      maxUInt32 - r.encoding.length < ({} : BlockBuilder).payload.length) := by
    simp [maxUInt32]
  have happend : appendToBlock {} r.key r.encoding =
      .ok { payload := blockPayload [r], records := 1, firstKey := r.key } := by
    rw [appendToBlock, if_neg hroom]
    simp [blockPayload]
  rw [buildBlocks, h]
  dsimp only
  rw [if_neg (by simp)]
  dsimp only
  rw [happend]
  dsimp only
  rw [buildBlocks, finishBlock, if_neg (by simp)]
  dsimp only
  rw [← blockSize]
  by_cases hsize : maxUInt32 < blockSize [r]
  · rw [if_pos hsize, if_pos hsize]
  · rw [if_neg hsize, if_neg hsize, if_neg (by simp [maxUInt32])]
    rfl

theorem Options.accepted_tableOptions {o : Options} (h : o.accepted = true) :
    (validateTableOptions o.toFormatOptions).isOk = true := by
  simp only [Options.accepted, decide_eq_true_eq] at h
  obtain ⟨-, -, -, -, -, hkey, hkeyWord, hvalueWord, hvalue, hrecord, hblock, hblockWord, hrate⟩ := h
  unfold validateTableOptions
  rw [if_neg, if_neg]
  · rfl
  · simp only [kWalHeaderSize, maxUInt32] at hvalue hrecord ⊢
    omega
  · rw [hrate]
    simp only [not_or, Bool.not_true]
    exact ⟨hkey, by omega, by omega, by omega, by omega, by simp⟩

/-- A table with one record is encoded if its block and its index entry fit. -/
theorem encodeTable_singleton {shape : BloomShape} {o : Options} (ho : o.accepted = true)
    (hshape : shape.ValidFor 1 o.bloomFalsePositiveRate) {r : Record}
    (hencode : ∃ b, encodeWalRecord o.toFormatOptions r = .ok b) {generation : Nat}
    (hgen : generation ≠ 0) (hgenle : generation ≤ maxUInt64) :
    (∃ b, encodeTable shape o.toFormatOptions generation [r] = .ok b) ↔
      kTableBlockHeaderSize + kWalHeaderSize + r.key.length + r.value.length ≤ maxUInt32 ∧
        kTableIndexHeaderSize + kIndexEntryFixedSize + r.key.length ≤ kMaximumTableIndexSize := by
  obtain ⟨b, hb⟩ := hencode
  obtain ⟨hr, -⟩ := Record.encodes_of_ok hb
  obtain ⟨bloom, hbloom, hbloomle⟩ := buildBloom_single (r := r) hshape
  have hblock : blockSize [r] =
      kTableBlockHeaderSize + kWalHeaderSize + r.key.length + r.value.length := by
    have hpayload : blockPayload [r] = r.encoding := by simp [blockPayload]
    rw [blockSize, hpayload, r.encoding_length, Record.walSize]
    omega
  have hindex : (encodeIndex (indexOf kTableHeaderSize [[r]])).length =
      kTableIndexHeaderSize + kIndexEntryFixedSize + r.key.length := by
    rw [encodeIndex_length, indexOf, indexOf, List.flatMap_singleton, encodeIndexEntry_length,
      firstKey_cons]
    dsimp only
    omega
  have hargs : ¬ (generation = 0 ∨ [r].isEmpty = true ∨ maxUInt64 < generation ∨
      maxUInt64 < [r].length) := by
    rintro (h0 | h0 | h0 | h0)
    · exact hgen h0
    · cases h0
    · omega
    · simp [maxUInt64] at h0
  rw [← hblock, ← hindex]
  unfold encodeTable
  dsimp only
  rw [if_neg hargs,
    if_neg (by rw [o.accepted_tableOptions ho]; simp), buildBlocks_single hr]
  by_cases hfit : maxUInt32 < blockSize [r]
  · rw [if_pos hfit]
    simp only [reduceCtorEq, exists_false, false_iff, not_and]
    intro hle
    omega
  rw [if_neg hfit]
  dsimp only
  by_cases hlarge : kMaximumTableIndexSize < (encodeIndex (indexOf kTableHeaderSize [[r]])).length
  · rw [if_pos (Or.inr hlarge)]
    simp only [reduceCtorEq, exists_false, false_iff, not_and]
    intro _
    omega
  have hindexWord : ¬ maxUInt32 < (encodeIndex (indexOf kTableHeaderSize [[r]])).length := by
    simp only [kMaximumTableIndexSize, maxUInt32] at hlarge ⊢
    omega
  rw [if_neg (not_or.mpr ⟨hindexWord, hlarge⟩), hbloom]
  dsimp only
  -- the regions are too small for the size of the file to overflow
  rw [if_neg]
  · simp only [Except.ok.injEq, exists_eq', true_iff]
    exact ⟨not_lt.mp hfit, not_lt.mp hlarge⟩
  · simp only [footerOf, blockBytes_length]
    simp only [maxUInt32, maxUInt64, kMaximumTableIndexSize, kBloomFilterHeaderSize,
      kMaximumBloomFilterSize, kTableHeaderSize, kTableFooterSize] at hfit hlarge hbloomle ⊢
    omega

/-- Which single write of a database can be turned into a table: its block and its index
entry have to fit, and neither limit is among those that `Write` checks. -/
theorem encodeTable_insert_iff {shape : BloomShape} {o : Options} (ho : o.accepted = true)
    (hshape : shape.ValidFor 1 o.bloomFalsePositiveRate) {r : Record}
    (hencode : ∃ b, encodeWalRecord o.toFormatOptions r = .ok b) {generation : Nat}
    (hgen : generation ≠ 0) (hgenle : generation ≤ maxUInt64) :
    (∃ b, encodeTable shape o.toFormatOptions generation (MemTable.empty.insert r).records =
        .ok b) ↔
      kTableBlockHeaderSize + kWalHeaderSize + r.key.length + r.value.length ≤ maxUInt32 ∧
        kTableIndexHeaderSize + kIndexEntryFixedSize + r.key.length ≤ kMaximumTableIndexSize :=
  encodeTable_singleton ho hshape hencode hgen hgenle

/-- A shape for filters of one byte, whatever they are to hold. -/
def byteShape : BloomShape := fun _ _ => .ok (8, 1)

theorem byteShape_validFor (keys : Nat) (rate : Double) : byteShape.ValidFor keys rate :=
  ⟨8, 1, rfl, by decide, by decide⟩

/-- A write of one byte under the default options. -/
def smallWrite : Record := { key := [1], sequence := 1, type := .value, value := [2] }

theorem smallWrite_encodes : smallWrite.Encodes ({} : Options).toFormatOptions :=
  encodeWalRecord_eq_ok.mpr ⟨validateWalRecord_isOk.mp (by decide), by decide, by decide, rfl⟩

/-- Both limits hold for such a write, and it has a table. -/
theorem encodeTable_insert_smallWrite :
    ∃ b, encodeTable byteShape ({} : Options).toFormatOptions 1
      (MemTable.empty.insert smallWrite).records = .ok b :=
  (encodeTable_insert_iff (by decide +kernel) (byteShape_validFor _ _) ⟨_, smallWrite_encodes⟩
    (by decide) (by decide)).mpr (by decide)

/-- Options under which keys may be as long as the largest index. -/
def longKeyOptions : Options := { maxKeySize := kMaximumTableIndexSize }

/-- A write of such a key. -/
def longKeyWrite : Record where
  key := List.replicate kMaximumTableIndexSize 0
  sequence := 1
  type := .value
  value := []

theorem longKeyWrite_valid : longKeyWrite.Valid longKeyOptions.toFormatOptions where
  sequence_pos := by decide
  key_pos := by rw [longKeyWrite, List.length_replicate]; decide
  key_le := by rw [longKeyWrite, List.length_replicate]; decide
  value_le := Nat.zero_le _
  key_word := by rw [longKeyWrite, List.length_replicate]; decide
  value_word := Nat.zero_le _
  deletion := fun h => by cases h

/-- A write that the log accepts and no table takes: the key alone fills the index. -/
theorem longKeyWrite_unflushable :
    longKeyOptions.accepted = true ∧
      (validateWalRecord longKeyOptions.toFormatOptions longKeyWrite).isOk = true ∧
      (∃ b, encodeWalRecord longKeyOptions.toFormatOptions longKeyWrite = .ok b) ∧
      ¬ ∃ b, encodeTable byteShape longKeyOptions.toFormatOptions 1
        (MemTable.empty.insert longKeyWrite).records = .ok b := by
  have hlen : longKeyWrite.key.length = kMaximumTableIndexSize := List.length_replicate
  have hvalue : longKeyWrite.value.length = 0 := rfl
  have hencode : ∃ b, encodeWalRecord longKeyOptions.toFormatOptions longKeyWrite = .ok b := by
    refine ⟨_, encodeWalRecord_eq_ok.mpr ⟨longKeyWrite_valid, ?_, by decide, rfl⟩⟩
    rw [Record.walSize, hlen, hvalue]
    decide
  have ho : longKeyOptions.accepted = true := by decide +kernel
  refine ⟨ho, validateWalRecord_isOk.mpr longKeyWrite_valid, hencode, fun h => ?_⟩
  have hfits := (encodeTable_singleton ho (byteShape_validFor _ _) hencode (by decide)
    (by decide)).mp h
  have hindex := hfits.2
  rw [hlen] at hindex
  exact absurd hindex (by decide)

/-! ## Files that open -/

/-- The metadata of a table says what its records are like. -/
structure TableMetadata.Summarises (md : TableMetadata) (rs : List Record) : Prop where
  recordCount : md.recordCount = rs.length
  sequences : ∀ r ∈ rs, md.minimumSequence ≤ r.sequence ∧ r.sequence ≤ md.maximumSequence
  minimumSequence : ∃ r ∈ rs, r.sequence = md.minimumSequence
  maximumSequence : ∃ r ∈ rs, r.sequence = md.maximumSequence
  minimumKey : rs.head?.map Record.key = some md.minimumKey
  maximumKey : rs.getLast?.map Record.key = some md.maximumKey

theorem minimumSequence_mem {rs : List Record} (hne : rs ≠ [])
    (hle : ∀ r ∈ rs, r.sequence ≤ maxUInt64) : ∃ r ∈ rs, r.sequence = minimumSequence rs := by
  have hfold : ∀ (rs : List Record) (m : Nat),
      rs.foldl (fun m r => min m r.sequence) m = m ∨
        ∃ r ∈ rs, r.sequence = rs.foldl (fun m r => min m r.sequence) m := by
    intro rs
    induction rs with
    | nil => exact fun m => Or.inl rfl
    | cons x xs ih =>
      intro m
      rw [List.foldl_cons]
      rcases ih (min m x.sequence) with h | ⟨r, hr, h⟩
      · rcases le_total m x.sequence with hm | hm
        · left
          omega
        · exact Or.inr ⟨x, List.mem_cons_self, by omega⟩
      · exact Or.inr ⟨r, List.mem_cons_of_mem _ hr, h⟩
  rcases hfold rs maxUInt64 with h | h
  · obtain ⟨r, hr⟩ := List.exists_mem_of_ne_nil rs hne
    have h1 := minimumSequence_le hr
    have h2 := hle r hr
    rw [minimumSequence] at h1 ⊢
    exact ⟨r, hr, by omega⟩
  · exact h

theorem tableSummary_summarises {o : FormatOptions} {generation fileSize : Nat} {rs : List Record}
    (hne : rs ≠ []) (henc : ∀ r ∈ rs, r.Encodes o) :
    (tableSummary generation fileSize rs).Summarises rs := by
  have hpos : ∀ r ∈ rs, 0 < r.sequence := fun r hr => (henc r hr).valid.sequence_pos
  have hle : ∀ r ∈ rs, r.sequence ≤ maxUInt64 :=
    fun r hr => (encodeWalRecord_eq_ok.mp (henc r hr)).2.2.1
  refine ⟨rfl, fun r hr => ⟨minimumSequence_le hr, le_maximumSequence hr⟩,
    minimumSequence_mem hne hle, maximumSequence_mem hne hpos, ?_, ?_⟩
  · obtain ⟨x, xs, rfl⟩ := List.exists_cons_of_ne_nil hne
    rfl
  · obtain ⟨ys, y, rfl⟩ := (List.eq_nil_or_concat rs).resolve_left hne
    simp [tableSummary, lastKey]

theorem TableReader.Opened.summarises {t : TableReader} {gs : List (List Record)}
    (h : t.Opened gs) : t.metadata.toTableMetadata.Summarises gs.flatten := by
  rw [h.summary]
  exact tableSummary_summarises h.ne_nil h.encodes

theorem TableReader.openFile_ok {o : FormatOptions} {content : Bytes} {t : TableReader}
    (h : TableReader.openFile o content = .ok t) :
    ∃ gs, t.options = o ∧ t.content = content ∧ t.Opened gs := by
  unfold TableReader.openFile at h
  cases ho : openContent o content with
  | error e =>
    rw [ho] at h
    cases h
  | ok p =>
    rw [ho] at h
    obtain rfl := Except.ok.inj h
    obtain ⟨gs, -, h1, h2, h3⟩ := openContent_ok ho
    exact ⟨gs, h1, h2, h3⟩

/-- Whether lookups consult the filter does not decide what fits the format. -/
theorem TableFits.consulting {o : FormatOptions} {generation : Nat} {gs : List (List Record)}
    {bloom : Bytes} (h : TableFits o generation gs bloom) (consult : Bool) :
    TableFits { o with bloomFilterEnabled := consult } generation gs bloom where
  options := h.options
  generation_ne := h.generation_ne
  generation_le := h.generation_le
  ne_nil := h.ne_nil
  count_le := h.count_le
  fits := fun g hg => ⟨(h.fits g hg).ne_nil, (h.fits g hg).encodes, (h.fits g hg).size_le,
    (h.fits g hg).size_le_maximum⟩
  blocks_le := h.blocks_le
  index_le := h.index_le
  file_le := h.file_le

/-- The file of a table that was encoded opens to the records of the table. -/
theorem encodeTable_opened {shape : BloomShape} {o : FormatOptions} {generation : Nat}
    {m : MemTable} {b : Bytes} (h : encodeTable shape o generation m.records = .ok b)
    (consult : Bool) :
    ∃ t gs, TableReader.openFile { o with bloomFilterEnabled := consult } b = .ok t ∧
      t.Opened gs ∧ gs.flatten = m.records ∧ t.metadata.generation = generation ∧
      t.content = b ∧ t.options.maxKeySize = o.maxKeySize := by
  obtain ⟨gs, bloom, hflat, hbloom, hfits, rfl⟩ := encodeTable_ok h
  rw [← hflat] at hbloom
  obtain ⟨filter, hregion⟩ := buildBloom_ok hbloom
  have hasc : Ascending gs.flatten := by
    rw [hflat]
    exact m.ascending
  have hopen := openContent_tableBytes (hfits.consulting consult) hasc hregion
  obtain ⟨hs, heq, hoptions, hcontent, hopened⟩ := openContent_ok hopen
  refine ⟨_, hs, by rw [TableReader.openFile, hopen]; rfl, hopened, by rw [← heq, hflat], rfl,
    hcontent, by rw [hoptions]⟩

/-- Whatever `SSTableReader::Open` accepts is a coherent table: every block can be read
and lies in the data region, the blocks fill that region without gap or overlap, their
records are strictly ascending with the summaries of the metadata, and a lookup reports
exactly the record of its key from one block at most. -/
theorem openFile_coherent {o : FormatOptions} {content : Bytes} {t : TableReader}
    (h : TableReader.openFile o content = .ok t) :
    ∃ gs : List (List Record), gs.length = t.index.length ∧
      (∀ i < t.index.length, ∃ e g, t.index[i]? = some e ∧ gs[i]? = some g ∧
        (∀ stats, t.readBlock i stats = (.ok g, stats.countBlock e)) ∧
        e.Within t.metadata.dataOffset t.metadata.dataSize) ∧
      Contiguous t.metadata.dataOffset t.index (t.metadata.dataOffset + t.metadata.dataSize) ∧
      Ascending gs.flatten ∧ (∀ r ∈ gs.flatten, r.sequence ≠ 0) ∧
      t.metadata.toTableMetadata.Summarises gs.flatten ∧
      t.metadata.fileSize = content.length ∧
      ∀ key : Bytes, key ≠ [] → key.length ≤ o.maxKeySize →
        (t.get key).1.Reports (findKey gs.flatten key) ∧ (t.get key).2.dataBlocksRead ≤ 1 := by
  obtain ⟨gs, rfl, rfl, hopen⟩ := TableReader.openFile_ok h
  have hlen := hopen.blocks.length_eq
  refine ⟨gs, hlen.symm, fun i hi => ?_, hopen.contiguous, hopen.ascending, ?_,
    hopen.summarises, congrArg TableMetadata.fileSize hopen.summary,
    fun key hne hle => hopen.get_reports hne hle⟩
  · have hi' : i < gs.length := by omega
    obtain ⟨e, he, hblock⟩ := hopen.readBlock_eq (List.getElem?_eq_getElem hi')
    exact ⟨e, _, he, List.getElem?_eq_getElem hi', TableReader.readBlock_at he hblock,
      hopen.within e (List.mem_of_getElem? he)⟩
  · intro r hr
    exact (hopen.encodes r hr).valid.sequence_pos.ne'

/-- Options under which no block has room for two small records. -/
def shortBlocks : FormatOptions := { sstableBlockSize := 60 }

def twoRecords : MemTable :=
  (MemTable.empty.insert ⟨[1], 1, .value, [5]⟩).insert ⟨[2], 2, .value, [6]⟩

/-- The table of two records in two blocks. -/
def twoBlocks : Bytes := (encodeTable byteShape shortBlocks 1 twoRecords.records).toOption.getD []

theorem encodeTable_twoBlocks :
    encodeTable byteShape shortBlocks 1 twoRecords.records = .ok twoBlocks := by
  decide +kernel

theorem openFile_twoBlocks {t : TableReader} {consult : Bool}
    (h : TableReader.openFile { shortBlocks with bloomFilterEnabled := consult } twoBlocks = .ok t) :
    t.index.map IndexEntry.firstKey = [[1], [2]] := by
  have hindex : ∀ consult, ((TableReader.openFile { shortBlocks with bloomFilterEnabled := consult }
      twoBlocks).toOption.map fun t => t.index.map IndexEntry.firstKey) = some [[1], [2]] := by
    decide +kernel
  have hrun := hindex consult
  rw [h] at hrun
  exact Option.some.inj hrun

/-- The file of two blocks is accepted: the second block can be read, and a lookup of its key
reads no other. -/
theorem openFile_coherent_twoBlocks : ∃ t gs g,
    TableReader.openFile { shortBlocks with bloomFilterEnabled := true } twoBlocks = .ok t ∧
      t.index.map IndexEntry.firstKey = [[1], [2]] ∧ List.length gs = 2 ∧ gs[1]? = some g ∧
      (t.readBlock 1 {}).1 = .ok g ∧ Ascending gs.flatten ∧
      (t.get [2]).1.Reports (findKey gs.flatten [2]) ∧ (t.get [2]).2.dataBlocksRead ≤ 1 := by
  obtain ⟨t, -, hopen, -⟩ := encodeTable_opened encodeTable_twoBlocks true
  obtain ⟨gs, hlen, hblocks, -, hasc, -, -, -, hget⟩ := openFile_coherent hopen
  have hkeys := openFile_twoBlocks hopen
  have htwo : t.index.length = 2 := by
    rw [← List.length_map IndexEntry.firstKey, hkeys]
    rfl
  obtain ⟨e, g, -, hg, hread, -⟩ := hblocks 1 (by rw [htwo]; decide)
  exact ⟨t, gs, g, hopen, hkeys, hlen.trans htwo, hg, by rw [hread], hasc,
    hget [2] (by decide) (by decide)⟩

/-! ## Round trips -/

/-- Two lookups tell a client the same: only the texts of their statuses may differ. -/
structure LookupResult.Agrees (a b : LookupResult) : Prop where
  code : a.status.code = b.status.code
  sequence : a.sequence = b.sequence
  type : a.type = b.type
  value : a.value = b.value

theorem LookupResult.Reports.agrees_lookup {o : FormatOptions} {m : MemTable} {key : Bytes}
    {result : LookupResult} (h : result.Reports (findKey m.records key)) (hne : key ≠ [])
    (hlen : key.length ≤ o.maxKeySize) : result.Agrees (m.lookup o key) := by
  have hval : (MemTable.validate o key []).isOk = true :=
    MemTable.validate_isOk.mpr ⟨hne, hlen, Nat.zero_le _⟩
  rw [MemTable.records_eq] at h
  unfold MemTable.lookup
  rw [if_neg (by rw [hval]; simp)]
  cases hf : findKey m.entries key with
  | none =>
    rw [hf] at h
    obtain ⟨message, rfl⟩ := h
    exact ⟨rfl, rfl, rfl, rfl⟩
  | some r =>
    rw [hf] at h
    obtain rfl := h
    exact ⟨rfl, rfl, rfl, rfl⟩

/-- A table that was encoded opens, and to what was encoded: all records, the metadata,
and for every key the answer of the MemTable, whether or not the table has a filter and
whether or not lookups consult it. -/
theorem openFile_encodeTable {shape : BloomShape} {o : FormatOptions} {generation : Nat}
    {m : MemTable} {b : Bytes} (h : encodeTable shape o generation m.records = .ok b)
    (consult : Bool) :
    ∃ t, TableReader.openFile { o with bloomFilterEnabled := consult } b = .ok t ∧
      (∀ limit, m.records.length ≤ limit → t.readRecords limit = .ok m.records) ∧
      t.metadata.generation = generation ∧
      t.metadata.toTableMetadata.Summarises m.records ∧ t.metadata.fileSize = b.length ∧
      t.metadata.dataOffset = kTableHeaderSize ∧
      t.metadata.indexOffset = t.metadata.dataOffset + t.metadata.dataSize ∧
      t.metadata.bloomOffset = t.metadata.indexOffset + t.metadata.indexSize ∧
      t.metadata.fileSize = t.metadata.bloomOffset + t.metadata.bloomSize + kTableFooterSize ∧
      ∀ key : Bytes, key ≠ [] → key.length ≤ o.maxKeySize →
        (t.get key).1.Agrees (m.lookup o key) := by
  obtain ⟨t, gs, hopen, hopened, hflat, hgen, rfl, hmax⟩ := encodeTable_opened h consult
  have hsummary := hopened.summarises
  have hfile := congrArg TableMetadata.fileSize hopened.summary
  rw [hflat] at hsummary
  refine ⟨t, hopen, fun limit hl => ?_, hgen, hsummary, hfile, hopened.dataOffset_eq,
    hopened.indexOffset_eq, hopened.bloomOffset_eq, ?_, fun key hne hl => ?_⟩
  · rw [hopened.readRecords_eq, hflat, List.take_of_length_le hl]
  · rw [hopened.fileSize_eq]
    exact hfile
  · have hreports := (hopened.get_reports hne (by rw [hmax]; exact hl)).1
    rw [hflat] at hreports
    exact hreports.agrees_lookup hne hl

/-- The table of two blocks opens to both records. -/
theorem openFile_encodeTable_twoBlocks :
    ∃ t, encodeTable byteShape shortBlocks 1 twoRecords.records = .ok twoBlocks ∧
      TableReader.openFile { shortBlocks with bloomFilterEnabled := true } twoBlocks = .ok t ∧
      t.index.length = 2 ∧ t.readRecords 2 = .ok twoRecords.records ∧
      (t.get [2]).1.Agrees (twoRecords.lookup shortBlocks [2]) := by
  obtain ⟨t, hopen, hread, -, -, -, -, -, -, -, hget⟩ := openFile_encodeTable encodeTable_twoBlocks true
  have hindex := congrArg List.length (openFile_twoBlocks hopen)
  rw [List.length_map] at hindex
  exact ⟨t, encodeTable_twoBlocks, hopen, hindex, hread 2 (by decide), hget [2] (by decide) (by decide)⟩

end MiniKV
