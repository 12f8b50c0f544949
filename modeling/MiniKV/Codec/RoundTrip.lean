import MiniKV.Codec.Regions
import MiniKV.Tables

/-!
# Tables that were encoded

`EncodeTable` followed by `SSTableReader::Open`: the layout that the encoder
writes passes every check of the reader, and the reader ends up with the
records, the metadata and the filter of the table.
-/

namespace MiniKV

/-! ## The filter -/

theorem addKeys_ok {f g : BloomFilter} {rs : List Record} (h : addKeys f rs = .ok g) :
    g.bitCount = f.bitCount ∧ g.keyCount = f.keyCount + rs.length ∧
      (∀ r ∈ rs, g.mayContain r.key = true) ∧
      ∀ k, f.mayContain k = true → g.mayContain k = true := by
  induction rs generalizing f with
  | nil =>
    rw [addKeys] at h
    rw [← Except.ok.inj h]
    exact ⟨rfl, rfl, by simp, fun k hk => hk⟩
  | cons r rs ih =>
    rw [addKeys] at h
    split at h
    · cases h
    rename_i f' hf'
    obtain ⟨hs, hb, -, rfl⟩ := BloomFilter.add_eq_ok.mp hf'
    obtain ⟨h1, h2, h3, h4⟩ := ih h
    refine ⟨h1, ?_, ?_, fun k hk => h4 k (BloomFilter.mayContain_insert_of hs hb hk)⟩
    · rw [h2, BloomFilter.insert_keyCount, List.length_cons]
      omega
    · intro x hx
      rcases List.mem_cons.mp hx with rfl | hx
      · exact h4 _ (BloomFilter.mayContain_insert_self hs hb _)
      · exact h3 x hx

/-- A region that holds a filter for the records, or nothing. -/
structure BloomRegion (rs : List Record) (bloom : Bytes) (filter : Option BloomFilter) : Prop where
  covers : FilterCovers filter rs
  size_le : bloom.length ≤ kBloomFilterHeaderSize + kMaximumBloomFilterSize
  read : (filter = none ∧ bloom = []) ∨ ∃ f, filter = some f ∧ f.keyCount = rs.length ∧
    kBloomFilterHeaderSize ≤ bloom.length ∧ decodeBloomFilter bloom = .ok f

theorem buildBloom_ok {shape : BloomShape} {o : FormatOptions} {rs : List Record} {bloom : Bytes}
    (h : buildBloom shape o rs = .ok bloom) : ∃ filter, BloomRegion rs bloom filter := by
  unfold buildBloom at h
  split at h
  · rw [← Except.ok.inj h]
    exact ⟨none, ⟨(fun f hf => by cases hf), by simp, Or.inl ⟨rfl, rfl⟩⟩⟩
  split at h
  · cases h
  split at h
  · cases h
  rename_i f hf
  obtain ⟨-, hcount, hall, -⟩ := addKeys_ok hf
  obtain ⟨hs, -, -, hb⟩ := encodeBloomFilter_eq_ok.mp h
  have hsizes := (BloomFilter.sizes_le hs).2.1
  have hlen : bloom.length = kBloomFilterHeaderSize + f.bits.length := by
    simp only [hb, List.length_append, BloomFilter.header_length, putFixed_length,
      kBloomFilterHeaderSize]
    omega
  refine ⟨some f, ⟨?_, by omega, Or.inr ⟨f, rfl, ?_, by omega, decodeBloomFilter_encode h⟩⟩⟩
  · intro f' hf' r hr
    rw [← Option.some.inj hf']
    exact hall r hr
  · rw [hcount]
    simp [BloomFilter.ofShape]

theorem BloomRegion.openBloom_eq {rs : List Record} {bloom : Bytes} {filter : Option BloomFilter}
    (h : BloomRegion rs bloom filter) {f : TableFooter} {content : Bytes}
    (hsize : f.bloomSize = bloom.length) (hcount : f.recordCount = rs.length)
    (hcontent : (content.drop f.bloomOffset).take f.bloomSize = bloom) :
    openBloom f content = .ok filter := by
  unfold openBloom
  rw [hcontent, hsize]
  rcases h.read with ⟨rfl, rfl⟩ | ⟨x, rfl, hx, hlen, hd⟩
  · rfl
  · have hne : ¬ bloom.length = 0 := by
      simp only [kBloomFilterHeaderSize] at hlen
      omega
    rw [if_neg hne, hd]
    dsimp only
    rw [if_neg (by rw [hx, hcount]; simp)]

/-! ## The layout of a table -/

/-- The file of a table with the given blocks and Bloom region. -/
def tableBytes (generation : Nat) (gs : List (List Record)) (bloom : Bytes) : Bytes :=
  sealed (tableHeader generation gs.flatten.length gs.length) ++ (gs.flatMap blockBytes ++
    (encodeIndex (indexOf kTableHeaderSize gs) ++ (bloom ++
      sealed (footerOf generation gs.flatten gs.length (gs.flatMap blockBytes).length
        (encodeIndex (indexOf kTableHeaderSize gs)).length bloom.length).encode)))

/-- What `EncodeTable` makes sure of. -/
structure TableFits (o : FormatOptions) (generation : Nat) (gs : List (List Record))
    (bloom : Bytes) : Prop where
  options : (validateTableOptions o).isOk = true
  generation_ne : generation ≠ 0
  generation_le : generation ≤ maxUInt64
  ne_nil : gs.flatten ≠ []
  count_le : gs.flatten.length ≤ maxUInt64
  fits : ∀ g ∈ gs, BlockFits o g
  blocks_le : gs.length ≤ maxUInt32
  index_le : (encodeIndex (indexOf kTableHeaderSize gs)).length ≤ kMaximumTableIndexSize
  file_le : kTableHeaderSize + (gs.flatMap blockBytes).length +
    (encodeIndex (indexOf kTableHeaderSize gs)).length + bloom.length + kTableFooterSize ≤ maxUInt64

/-- The blocks that `EncodeTable` has cut, and the file it has made of them. -/
theorem encodeTable_blocks {shape : BloomShape} {o : FormatOptions} {generation : Nat}
    {rs : List Record} {b : Bytes} (h : encodeTable shape o generation rs = .ok b) :
    ∃ gs bloom builder, gs.flatten = rs ∧ buildBloom shape o rs = .ok bloom ∧
      TableFits o generation gs bloom ∧ b = tableBytes generation gs bloom ∧
      buildBlocks o {} rs = .ok builder ∧ builder.index = indexOf kTableHeaderSize gs := by
  unfold encodeTable at h
  dsimp only at h
  obtain ⟨hargs, h⟩ := ite_error_eq_ok.mp h
  obtain ⟨hoptions, h⟩ := ite_error_eq_ok.mp h
  split at h
  · cases h
  rename_i builder hbuilder
  obtain ⟨hindex, h⟩ := ite_error_eq_ok.mp h
  split at h
  · cases h
  rename_i bloom hbloom
  split at h
  · cases h
  rename_i hfile
  obtain ⟨gs, hflat, hb⟩ := buildBlocks_ok (Builds.start o) hbuilder
  rw [List.flatten_nil, List.nil_append, List.nil_append] at hflat
  simp only [not_or, not_lt, List.isEmpty_iff] at hargs
  obtain ⟨hgen, hne, hgenle, hcount⟩ := hargs
  rw [hb.index] at hindex
  rw [hb.index, hb.data] at hfile
  have hlen : builder.index.length = gs.length := by rw [hb.index, indexOf_length]
  subst hflat
  refine ⟨gs, bloom, builder, rfl, hbloom, ⟨by simpa using hoptions, hgen, hgenle, hne, hcount,
    hb.fits, hb.blocks, by omega, not_lt.mp hfile⟩, ?_, hbuilder, hb.index⟩
  rw [← Except.ok.inj h, hlen, hb.index, hb.data]
  rfl

theorem encodeTable_ok {shape : BloomShape} {o : FormatOptions} {generation : Nat}
    {rs : List Record} {b : Bytes} (h : encodeTable shape o generation rs = .ok b) :
    ∃ gs bloom, gs.flatten = rs ∧ buildBloom shape o rs = .ok bloom ∧
      TableFits o generation gs bloom ∧ b = tableBytes generation gs bloom := by
  obtain ⟨gs, bloom, -, hflat, hbloom, hfits, hb, -⟩ := encodeTable_blocks h
  exact ⟨gs, bloom, hflat, hbloom, hfits, hb⟩

@[simp] theorem sealed_length (b : Bytes) : (sealed b).length = b.length + 4 := by
  simp [sealed]

@[simp] theorem tableHeader_length (generation records blocks : Nat) :
    (tableHeader generation records blocks).length = 28 := by
  simp [tableHeader, kTableMagic]

@[simp] theorem TableFooter.encode_length (f : TableFooter) : f.encode.length = 100 := by
  simp [TableFooter.encode, kFooterMagic]

@[simp] theorem indexHeader_length (entries payloadSize : Nat) :
    (indexHeader entries payloadSize).length = 16 := by
  simp [indexHeader, kIndexMagic]

theorem encodeIndex_length (entries : List IndexEntry) :
    (encodeIndex entries).length =
      kTableIndexHeaderSize + (entries.flatMap encodeIndexEntry).length := by
  simp only [encodeIndex, List.length_append, indexHeader_length, putFixed_length,
    kTableIndexHeaderSize]
  omega

/-- The fields of a footer fit their widths. -/
structure TableFooter.Representable (f : TableFooter) : Prop where
  fileSize : f.fileSize ≤ maxUInt64
  generation : f.generation ≤ maxUInt64
  recordCount : f.recordCount ≤ maxUInt64
  minimumSequence : f.minimumSequence ≤ maxUInt64
  maximumSequence : f.maximumSequence ≤ maxUInt64
  dataOffset : f.dataOffset ≤ maxUInt64
  dataSize : f.dataSize ≤ maxUInt64
  indexOffset : f.indexOffset ≤ maxUInt64
  indexSize : f.indexSize ≤ maxUInt64
  bloomOffset : f.bloomOffset ≤ maxUInt64
  bloomSize : f.bloomSize ≤ maxUInt64
  blockCount : f.blockCount ≤ maxUInt32

theorem lt_word64 {n : Nat} (h : n ≤ maxUInt64) : n < 256 ^ 8 := by
  simp only [maxUInt64] at h
  omega

theorem lt_word32 {n : Nat} (h : n ≤ maxUInt32) : n < 256 ^ 4 := by
  simp only [maxUInt32] at h
  omega

/-- The fields of a footer are read back. -/
theorem decodeFooter_encode {f : TableFooter} (h : f.Representable) (s : Bytes) :
    decodeFooter (f.encode ++ s) = f ∧ fieldAt (f.encode ++ s) 6 2 = kTableFooterSize := by
  have h1 := lt_word64 h.fileSize
  have h2 := lt_word64 h.generation
  have h3 := lt_word64 h.recordCount
  have h4 := lt_word64 h.minimumSequence
  have h5 := lt_word64 h.maximumSequence
  have h6 := lt_word64 h.dataOffset
  have h7 := lt_word64 h.dataSize
  have h8 := lt_word64 h.indexOffset
  have h9 := lt_word64 h.indexSize
  have h10 := lt_word64 h.bloomOffset
  have h11 := lt_word64 h.bloomSize
  have h12 := lt_word32 h.blockCount
  have h13 : kTableFooterSize < 256 ^ 2 := by decide
  have hm : kFooterMagic.length = 4 := rfl
  simp only [decodeFooter, TableFooter.encode, List.append_assoc]
  simp (disch := first | assumption | simp [hm]) only [fieldAt_append, fieldAt_zero, hm,
    putFixed_length, List.length_singleton, Nat.reduceSub, Nat.sub_self, and_self]

/-! ## The checks of the reader -/

theorem mem_indexOf {offset : Nat} {gs : List (List Record)} {e : IndexEntry}
    (h : e ∈ indexOf offset gs) : ∃ g ∈ gs, e.firstKey = firstKey g ∧ e.blockSize = blockSize g ∧
      offset ≤ e.blockOffset ∧
      e.blockOffset + e.blockSize ≤ offset + (gs.flatMap blockBytes).length := by
  induction gs generalizing offset with
  | nil => cases h
  | cons g gs ih =>
    rw [List.flatMap_cons, List.length_append, blockBytes_length]
    rcases List.mem_cons.mp h with rfl | h
    · exact ⟨g, List.mem_cons_self, rfl, rfl, le_refl _, by dsimp only; omega⟩
    · obtain ⟨x, hx, h1, h2, h3, h4⟩ := ih h
      exact ⟨x, List.mem_cons_of_mem _ hx, h1, h2, by omega, by omega⟩

theorem indexOf_ascending {o : FormatOptions} {offset : Nat} {gs : List (List Record)}
    (hfits : ∀ g ∈ gs, BlockFits o g) (hasc : Ascending gs.flatten) :
    (indexOf offset gs).Pairwise (fun a b => a.firstKey < b.firstKey) := by
  induction gs generalizing offset with
  | nil => exact List.Pairwise.nil
  | cons g gs ih =>
    rw [List.flatten_cons] at hasc
    obtain ⟨-, hasc', hcross⟩ := List.pairwise_append.mp hasc
    refine List.pairwise_cons.mpr ⟨fun e he => ?_,
      ih (fun x hx => hfits x (List.mem_cons_of_mem _ hx)) hasc'⟩
    obtain ⟨x, hx, hkey, -⟩ := mem_indexOf he
    obtain ⟨r, hr, hrkey⟩ := firstKey_mem (hfits g List.mem_cons_self).ne_nil
    obtain ⟨r', hr', hrkey'⟩ := firstKey_mem (hfits x (List.mem_cons_of_mem _ hx)).ne_nil
    rw [hkey, ← hrkey, ← hrkey']
    exact hcross r hr r' (List.mem_flatten.mpr ⟨x, hx, hr'⟩)

theorem validateTableOptions_isOk {o : FormatOptions} (h : (validateTableOptions o).isOk = true) :
    kWalHeaderSize + o.maxKeySize + o.maxValueSize ≤ maxUInt32 := by
  unfold validateTableOptions at h
  split at h
  · simp at h
  split at h
  · simp at h
  · omega

theorem TableFits.records {o : FormatOptions} {generation : Nat} {gs : List (List Record)}
    {bloom : Bytes} (h : TableFits o generation gs bloom) :
    ∀ r ∈ gs.flatten, r.Encodes o := by
  intro r hr
  obtain ⟨g, hg, hr⟩ := List.mem_flatten.mp hr
  exact (h.fits g hg).encodes r hr

/-- The entries of a table's index pass the checks of the reader. -/
theorem TableFits.entries {o : FormatOptions} {generation : Nat} {gs : List (List Record)}
    {bloom : Bytes} (h : TableFits o generation gs bloom) :
    ∀ e ∈ indexOf kTableHeaderSize gs,
      e.Accepted o kTableHeaderSize (gs.flatMap blockBytes).length := by
  intro e he
  obtain ⟨g, hg, hkey, hsize, hlow, hhigh⟩ := mem_indexOf he
  have hf := h.fits g hg
  obtain ⟨r, hr, hrkey⟩ := firstKey_mem hf.ne_nil
  have hvalid := (hf.encodes r hr).valid
  have hfile := h.file_le
  rw [← hrkey] at hkey
  refine ⟨⟨?_, hlow, hhigh⟩, ?_, ?_, ?_, ?_, ?_, by omega⟩
  · rw [hsize, blockSize]
    omega
  · rw [hkey]
    exact hvalid.key_pos
  · rw [hkey]
    exact hvalid.key_le
  · rw [hkey]
    exact hvalid.key_word
  · rw [hsize]
    exact hf.size_le_maximum
  · rw [hsize]
    exact hf.size_le

theorem length_flatMap_encodeIndexEntry_le {o : FormatOptions} {es : List IndexEntry}
    (h : ∀ e ∈ es, e.firstKey.length ≤ o.maxKeySize) :
    (es.flatMap encodeIndexEntry).length ≤ es.length * (kIndexEntryFixedSize + o.maxKeySize) := by
  induction es with
  | nil => simp
  | cons e es ih =>
    have he := h e List.mem_cons_self
    have hes := ih (fun x hx => h x (List.mem_cons_of_mem _ hx))
    rw [List.flatMap_cons, List.length_append, encodeIndexEntry_length, List.length_cons,
      Nat.add_mul]
    omega

/-- The footer of a table that fits. -/
abbrev footerFor (generation : Nat) (gs : List (List Record)) (bloom : Bytes) : TableFooter :=
  footerOf generation gs.flatten gs.length (gs.flatMap blockBytes).length
    (encodeIndex (indexOf kTableHeaderSize gs)).length bloom.length

theorem TableFits.footer_representable {o : FormatOptions} {generation : Nat}
    {gs : List (List Record)} {bloom : Bytes} (h : TableFits o generation gs bloom) :
    (footerFor generation gs bloom).Representable := by
  have hfile := h.file_le
  have hmin : minimumSequence gs.flatten ≤ maxUInt64 := by
    obtain ⟨r, hr⟩ := List.exists_mem_of_ne_nil _ h.ne_nil
    exact (minimumSequence_le hr).trans (encodeWalRecord_eq_ok.mp (h.records r hr)).2.2.1
  have hmax : maximumSequence gs.flatten ≤ maxUInt64 :=
    maximumSequence_le (fun r hr => (encodeWalRecord_eq_ok.mp (h.records r hr)).2.2.1)
  have hcount := h.count_le
  constructor <;> simp only [footerOf]
  · exact hfile
  · exact h.generation_le
  · exact hcount
  · exact hmin
  · exact hmax
  · omega
  · omega
  · omega
  · omega
  · omega
  · omega
  · exact h.blocks_le

theorem tableBytes_length (generation : Nat) (gs : List (List Record)) (bloom : Bytes) :
    (tableBytes generation gs bloom).length = (footerFor generation gs bloom).fileSize := by
  simp only [tableBytes, List.length_append, sealed_length, tableHeader_length,
    TableFooter.encode_length, footerOf, kTableHeaderSize, kTableFooterSize]
  omega

/-- The header passes its checks. -/
theorem headerAccepted_sealed {generation records blocks : Nat} (h1 : generation ≠ 0)
    (h2 : generation ≤ maxUInt64) (h3 : records ≠ 0) (h4 : records ≤ maxUInt64) (h5 : blocks ≠ 0)
    (h6 : blocks ≤ maxUInt32) :
    headerAccepted (sealed (tableHeader generation records blocks)) = true ∧
      (sealed (tableHeader generation records blocks)).take 4 = kTableMagic ∧
      (sealed (tableHeader generation records blocks)).getD 4 0 = kTableFormatVersion ∧
      fieldAt (sealed (tableHeader generation records blocks)) 8 8 = generation ∧
      fieldAt (sealed (tableHeader generation records blocks)) 16 8 = records ∧
      fieldAt (sealed (tableHeader generation records blocks)) 24 4 = blocks := by
  have hc := crc32c_lt (tableHeader generation records blocks)
  have hg := lt_word64 h2
  have hr := lt_word64 h4
  have hb := lt_word32 h6
  have hs : kTableHeaderSize < 256 ^ 2 := by decide
  have hm : kTableMagic.length = 4 := rfl
  have htake : (sealed (tableHeader generation records blocks)).take 28 =
      tableHeader generation records blocks := List.take_left' (by simp)
  have hcrc : fieldAt (sealed (tableHeader generation records blocks)) 28 4 =
      crc32c (tableHeader generation records blocks) := by
    rw [sealed, fieldAt_append (by simp), tableHeader_length, ← List.append_nil (putFixed 4 _)]
    exact fieldAt_zero hc
  have hread : fieldAt (sealed (tableHeader generation records blocks)) 6 2 = kTableHeaderSize ∧
      fieldAt (sealed (tableHeader generation records blocks)) 8 8 = generation ∧
      fieldAt (sealed (tableHeader generation records blocks)) 16 8 = records ∧
      fieldAt (sealed (tableHeader generation records blocks)) 24 4 = blocks := by
    generalize crc32c (tableHeader generation records blocks) = checksum at hc
    simp only [sealed, tableHeader, List.append_assoc]
    simp (disch := first | assumption | simp [hm]) only [fieldAt_append, fieldAt_zero, hm,
      putFixed_length, List.length_singleton, Nat.reduceSub, Nat.sub_self, and_self]
  obtain ⟨r1, r2, r3, r4⟩ := hread
  refine ⟨?_, ?_, ?_, r2, r3, r4⟩
  · simp only [headerAccepted, r1, r2, r3, r4, htake, hcrc, decide_eq_true_eq]
    exact ⟨trivial, h1, h3, h5, trivial⟩
  · simp [sealed, tableHeader, kTableMagic]
  · simp [sealed, tableHeader, kTableMagic]

theorem TableFits.blocks_ne {o : FormatOptions} {generation : Nat} {gs : List (List Record)}
    {bloom : Bytes} (h : TableFits o generation gs bloom) : gs.length ≠ 0 := by
  intro h0
  have hne := h.ne_nil
  rw [List.length_eq_zero_iff.mp h0] at hne
  exact hne rfl

/-- The footer passes its checks. -/
theorem TableFits.footerAccepted_sealed {o : FormatOptions} {generation : Nat}
    {gs : List (List Record)} {bloom : Bytes} (h : TableFits o generation gs bloom) :
    decodeFooter (sealed (footerFor generation gs bloom).encode) = footerFor generation gs bloom ∧
      (sealed (footerFor generation gs bloom).encode).take 4 = kFooterMagic ∧
      (sealed (footerFor generation gs bloom).encode).getD 4 0 = kTableFormatVersion ∧
      footerAccepted (sealed (tableHeader generation gs.flatten.length gs.length))
        (sealed (footerFor generation gs bloom).encode)
        (footerFor generation gs bloom).fileSize = true := by
  obtain ⟨hd, h6⟩ := decodeFooter_encode h.footer_representable
    (putFixed 4 (crc32c (footerFor generation gs bloom).encode))
  rw [← sealed] at hd h6
  have htake : (sealed (footerFor generation gs bloom).encode).take 100 =
      (footerFor generation gs bloom).encode := List.take_left' (by simp)
  have hcrc : fieldAt (sealed (footerFor generation gs bloom).encode) 100 4 =
      crc32c (footerFor generation gs bloom).encode := by
    rw [sealed, fieldAt_append (by simp), TableFooter.encode_length,
      ← List.append_nil (putFixed 4 _)]
    exact fieldAt_zero (crc32c_lt _)
  have hne : gs.flatten.length ≠ 0 := by
    rw [ne_eq, List.length_eq_zero_iff]
    exact h.ne_nil
  obtain ⟨-, -, -, r1, r2, r3⟩ := headerAccepted_sealed h.generation_ne h.generation_le hne
    h.count_le h.blocks_ne h.blocks_le
  refine ⟨hd, by simp [sealed, TableFooter.encode, kFooterMagic],
    by simp [sealed, TableFooter.encode, kFooterMagic], ?_⟩
  have hpos : ∀ r ∈ gs.flatten, 0 < r.sequence := fun r hr => (h.records r hr).valid.sequence_pos
  obtain ⟨r, hr⟩ := List.exists_mem_of_ne_nil _ h.ne_nil
  have hmin := minimumSequence_le hr
  have hmax := le_maximumSequence hr
  have hminpos := minimumSequence_pos hpos
  unfold footerAccepted
  dsimp only
  rw [hd, h6, htake, hcrc, r1, r2, r3]
  exact decide_eq_true ⟨rfl, rfl, rfl, rfl, rfl, hminpos.ne', hmin.trans hmax, rfl⟩

/-- The index passes its checks, and its payload is the list of entries. -/
theorem indexAccepted_encode {f : TableFooter} {entries : List IndexEntry}
    (hsize : f.indexSize = (encodeIndex entries).length) (hcount : f.blockCount = entries.length)
    (hle : (encodeIndex entries).length ≤ maxUInt32) (hlen : entries.length ≤ maxUInt32) :
    (encodeIndex entries).take 4 = kIndexMagic ∧ indexAccepted f (encodeIndex entries) = true ∧
      (encodeIndex entries).drop kTableIndexHeaderSize = entries.flatMap encodeIndexEntry := by
  have hl := encodeIndex_length entries
  generalize hp : entries.flatMap encodeIndexEntry = payload at hl
  generalize hc : crc32c (indexHeader entries.length payload.length ++ payload) = checksum
  have hc4 : checksum < 256 ^ 4 := hc ▸ crc32c_lt _
  have hi : encodeIndex entries = indexHeader entries.length payload.length ++
      (putFixed 4 checksum ++ payload) := by
    rw [encodeIndex, hp, hc]
  have htake : (encodeIndex entries).take 16 = indexHeader entries.length payload.length := by
    rw [hi]
    exact List.take_left' (by simp)
  have hdrop : (encodeIndex entries).drop kTableIndexHeaderSize = payload := by
    rw [hi, drop_past (by simp [kTableIndexHeaderSize]), drop_past (by simp [kTableIndexHeaderSize])]
    simp [kTableIndexHeaderSize]
  have h1 : kTableIndexHeaderSize + payload.length < 256 ^ 4 := lt_word32 (by omega)
  have h2 : entries.length < 256 ^ 4 := lt_word32 hlen
  have h3 : payload.length < 256 ^ 4 := lt_word32 (by omega)
  have hm : kIndexMagic.length = 4 := rfl
  have hread : fieldAt (encodeIndex entries) 4 4 = kTableIndexHeaderSize + payload.length ∧
      fieldAt (encodeIndex entries) 8 4 = entries.length ∧
      fieldAt (encodeIndex entries) 12 4 = payload.length ∧
      fieldAt (encodeIndex entries) 16 4 = checksum := by
    rw [hi, indexHeader]
    simp only [List.append_assoc]
    simp (disch := first | assumption | simp [hm]) only [fieldAt_append, fieldAt_zero, hm,
      putFixed_length, Nat.reduceSub, Nat.sub_self, and_self]
  obtain ⟨r1, r2, r3, r4⟩ := hread
  refine ⟨?_, ?_, hdrop⟩
  · rw [hi, indexHeader, List.append_assoc]
    exact List.take_left' rfl
  · simp only [indexAccepted, r1, r2, r3, r4, htake, hdrop, hc, hsize, hcount, hl,
      decide_eq_true_eq]
    exact ⟨trivial, trivial, by omega, trivial⟩

theorem TableFits.regionsAccepted {o : FormatOptions} {generation : Nat}
    {gs : List (List Record)} {bloom : Bytes} {filter : Option BloomFilter}
    (h : TableFits o generation gs bloom) (hbloom : BloomRegion gs.flatten bloom filter) :
    regionsAccepted (footerFor generation gs bloom) (footerFor generation gs bloom).fileSize =
      true := by
  have hi := encodeIndex_length (indexOf kTableHeaderSize gs)
  have hindex := h.index_le
  have hsize := hbloom.size_le
  have hdata : (gs.flatMap blockBytes).length ≠ 0 := by
    obtain ⟨g, gs', rfl⟩ := List.exists_cons_of_ne_nil
      (fun h0 => h.blocks_ne (List.length_eq_zero_iff.mpr h0))
    rw [List.flatMap_cons, List.length_append, blockBytes_length, blockSize]
    simp only [kTableBlockHeaderSize]
    omega
  have hregion : bloom.length = 0 ∨ kBloomFilterHeaderSize ≤ bloom.length := by
    rcases hbloom.read with ⟨-, rfl⟩ | ⟨f, -, -, hle, -⟩
    · exact Or.inl rfl
    · exact Or.inr hle
  simp only [MiniKV.regionsAccepted, footerOf, decide_eq_true_eq]
  exact ⟨trivial, hdata, by omega, hindex, hregion, hsize, trivial, trivial, trivial⟩

/-- The limits on the size of the index hold for what was written. -/
theorem TableFits.index_limits {o : FormatOptions} {generation : Nat}
    {gs : List (List Record)} {bloom : Bytes} (h : TableFits o generation gs bloom) :
    gs.length ≤ (maxUInt64 - kTableIndexHeaderSize) / (kIndexEntryFixedSize + o.maxKeySize) ∧
      (encodeIndex (indexOf kTableHeaderSize gs)).length ≤
        kTableIndexHeaderSize + gs.length * (kIndexEntryFixedSize + o.maxKeySize) := by
  have hoptions := validateTableOptions_isOk h.options
  have hblocks := h.blocks_le
  have hentries := length_flatMap_encodeIndexEntry_le
    (fun e he => (h.entries e he).key_le)
  rw [indexOf_length] at hentries
  refine ⟨?_, by rw [encodeIndex_length]; omega⟩
  rw [Nat.le_div_iff_mul_le (by simp [kIndexEntryFixedSize])]
  have hmul : gs.length * (kIndexEntryFixedSize + o.maxKeySize) ≤ maxUInt32 * maxUInt32 := by
    refine Nat.mul_le_mul hblocks ?_
    simp only [kIndexEntryFixedSize, kWalHeaderSize, maxUInt32] at hoptions ⊢
    omega
  refine hmul.trans ?_
  decide

/-- The reader of a table that was encoded. -/
def encodedReader (o : FormatOptions) (generation : Nat) (gs : List (List Record)) (bloom : Bytes)
    (filter : Option BloomFilter) : TableReader where
  options := o
  content := tableBytes generation gs bloom
  metadata := readerMetadata (footerFor generation gs bloom)
    (tableBytes generation gs bloom).length filter gs.flatten
  index := indexOf kTableHeaderSize gs
  bloomFilter := filter

/-- What was encoded can be opened. -/
theorem openContent_tableBytes {o : FormatOptions} {generation : Nat} {gs : List (List Record)}
    {bloom : Bytes} {filter : Option BloomFilter} (h : TableFits o generation gs bloom)
    (hasc : Ascending gs.flatten) (hbloom : BloomRegion gs.flatten bloom filter) :
    openContent o (tableBytes generation gs bloom) =
      .ok (encodedReader o generation gs bloom filter, gs.flatten) := by
  have hlen := tableBytes_length generation gs bloom
  have hi := encodeIndex_length (indexOf kTableHeaderSize gs)
  have hne : gs.flatten.length ≠ 0 := by
    rw [ne_eq, List.length_eq_zero_iff]
    exact h.ne_nil
  obtain ⟨hhead, hmagic, hversion, -⟩ := headerAccepted_sealed h.generation_ne h.generation_le hne
    h.count_le h.blocks_ne h.blocks_le
  obtain ⟨hfooter, hfmagic, hfversion, hfaccepted⟩ := h.footerAccepted_sealed
  have hregions := h.regionsAccepted hbloom
  obtain ⟨hlimit1, hlimit2⟩ := h.index_limits
  have hindexLe := h.index_le
  have hcount : (footerFor generation gs bloom).blockCount =
      (indexOf kTableHeaderSize gs).length := (indexOf_length _ _).symm
  obtain ⟨himagic, hiaccepted, hipayload⟩ := indexAccepted_encode
    (f := footerFor generation gs bloom) rfl hcount (hindexLe.trans (by decide))
    (by rw [indexOf_length]; exact h.blocks_le)
  have htake : (tableBytes generation gs bloom).take kTableHeaderSize =
      sealed (tableHeader generation gs.flatten.length gs.length) :=
    List.take_left' (by simp [kTableHeaderSize])
  have hdata : (tableBytes generation gs bloom).drop kTableHeaderSize = gs.flatMap blockBytes ++
      (encodeIndex (indexOf kTableHeaderSize gs) ++ (bloom ++
        sealed (footerFor generation gs bloom).encode)) :=
    List.drop_left' (by simp [kTableHeaderSize])
  have hindex : (tableBytes generation gs bloom).drop
      (kTableHeaderSize + (gs.flatMap blockBytes).length) =
        encodeIndex (indexOf kTableHeaderSize gs) ++ (bloom ++
          sealed (footerFor generation gs bloom).encode) := by
    rw [← List.drop_drop, hdata, List.drop_left]
  have hbloomDrop : (tableBytes generation gs bloom).drop
      (kTableHeaderSize + (gs.flatMap blockBytes).length +
        (encodeIndex (indexOf kTableHeaderSize gs)).length) =
          bloom ++ sealed (footerFor generation gs bloom).encode := by
    rw [← List.drop_drop, hindex, List.drop_left]
  have hfooterDrop : (tableBytes generation gs bloom).drop
      ((tableBytes generation gs bloom).length - kTableFooterSize) =
        sealed (footerFor generation gs bloom).encode := by
    have hoff : (tableBytes generation gs bloom).length - kTableFooterSize =
        kTableHeaderSize + (gs.flatMap blockBytes).length +
          (encodeIndex (indexOf kTableHeaderSize gs)).length + bloom.length := by
      rw [hlen]
      simp only [footerOf]
      omega
    rw [hoff, ← List.drop_drop, hbloomDrop, List.drop_left]
  have hindexTake : ((tableBytes generation gs bloom).drop
      (footerFor generation gs bloom).indexOffset).take (footerFor generation gs bloom).indexSize =
        encodeIndex (indexOf kTableHeaderSize gs) := by
    simp only [footerOf]
    rw [hindex, List.take_left]
  rw [openContent_eq]
  dsimp only
  rw [hfooterDrop, hfooter, htake, hindexTake, if_neg (by simp [h.options]), if_neg,
    if_neg (by rw [hmagic, hversion]; simp), if_neg (by rw [hhead]; simp),
    if_neg (by rw [hfmagic, hfversion]; simp), hlen, if_neg (by rw [hfaccepted]; simp),
    if_neg (by rw [hregions]; simp), if_neg, if_neg (by rw [himagic]; simp), if_neg (by rw [hiaccepted]; simp)]
  · rw [openRegions_eq]
    have hopen : openBloom (footerFor generation gs bloom) (tableBytes generation gs bloom) =
        .ok filter := by
      refine hbloom.openBloom_eq rfl rfl ?_
      simp only [footerOf]
      rw [hbloomDrop, List.take_left]
    have hkeys : ∀ k ∈ (none : Option Bytes), ∀ e ∈ indexOf kTableHeaderSize gs,
        k < e.firstKey := by simp
    have hrecords : ∀ k ∈ (none : Option Bytes), ∀ r ∈ gs.flatten, k < r.key := by simp
    have hentries := decodeIndexEntries_indexOf (s := []) h.entries
      (indexOf_ascending h.fits hasc) hkeys
    have hverify := verifyBlocks_layout h.fits hasc hbloom.covers hrecords hdata
    rw [List.append_nil] at hentries
    rw [hopen, hipayload]
    simp only [footerOf]
    rw [hentries]
    dsimp only
    rw [if_neg (by simp), hverify]
    dsimp only
    rw [if_neg (by simp)]
    rfl
  · simp only [footerOf]
    omega
  · rw [hlen]
    simp only [footerOf]
    omega

end MiniKV
