import MiniKV.Codec.EndToEnd

/-!
# The file formats are lawful

The codecs of the source satisfy what the storage protocol relies on, and the
table reader that the protocol works with is the one that reads single blocks.
-/

namespace MiniKV

/-! ## Tables -/

theorem openTable_ok {o : FormatOptions} {b : Bytes} {md : TableMetadata} {rs : List Record}
    (h : openTable o b = .ok (md, rs)) : ∃ (t : TableReader) (gs : List (List Record)),
      t.options = o ∧ t.content = b ∧ t.Opened gs ∧ md = t.metadata.toTableMetadata ∧
        rs = gs.flatten := by
  unfold openTable at h
  cases ho : openContent o b with
  | error e =>
    rw [ho] at h
    cases h
  | ok p =>
    rw [ho] at h
    obtain ⟨hmd, hrs⟩ := Prod.mk.inj (Except.ok.inj h)
    obtain ⟨gs, hflat, h1, h2, h3⟩ := openContent_ok ho
    exact ⟨p.1, gs, h1, h2, h3, hmd.symm, by rw [← hrs, hflat]⟩

theorem openTable_encodeTable {shape : BloomShape} {o : FormatOptions} {generation : Nat}
    {rs : List Record} {b : Bytes} (hasc : Ascending rs)
    (h : encodeTable shape o generation rs = .ok b) :
    openTable o b = .ok (tableSummary generation b.length rs, rs) := by
  obtain ⟨gs, bloom, rfl, hbloom, hfits, rfl⟩ := encodeTable_ok h
  obtain ⟨filter, hregion⟩ := buildBloom_ok hbloom
  rw [openTable, openContent_tableBytes hfits hasc hregion]
  rfl

/-- The blocks of a region have no more records than the region has bytes. -/
theorem Contiguous.length_le {o : FormatOptions} {content : Bytes} {offset last : Nat}
    {es : List IndexEntry} {gs : List (List Record)} (h : Contiguous offset es last)
    (hb : List.Forall₂ (BlockAt o content) es gs) : offset + gs.flatten.length ≤ last := by
  induction hb generalizing offset with
  | nil => exact le_of_eq h
  | cons hg _ ih =>
    rename_i e g es gs _
    obtain ⟨-, hrest⟩ := h
    have hle := ih hrest
    have hsize := (readBlock_ok hg.read).2.1
    have hmany := length_le_blockPayload g
    simp only [kWalHeaderSize] at hmany
    rw [blockSize] at hsize
    rw [List.flatten_cons, List.length_append]
    omega

theorem TableReader.Opened.length_le {t : TableReader} {gs : List (List Record)}
    (h : t.Opened gs) : gs.flatten.length ≤ t.content.length := by
  have hle := h.contiguous.length_le h.blocks
  have h1 := h.indexOffset_eq
  have h2 := h.bloomOffset_eq
  have h3 := h.fileSize_eq
  omega

/-! ## The format -/

theorem fileFormat_lawful (shape : BloomShape) : (fileFormat shape).Lawful where
  openTable_encodeTable := fun hasc h => openTable_encodeTable hasc h
  openTable_ascending := by
    intro o b md rs h
    obtain ⟨t, gs, -, -, hopen, -, rfl⟩ := openTable_ok h
    exact hopen.ascending
  openTable_ne_nil := by
    intro o b md rs h
    obtain ⟨t, gs, -, -, hopen, -, rfl⟩ := openTable_ok h
    exact hopen.ne_nil
  openTable_valid := by
    intro o b md rs h r hr
    obtain ⟨t, gs, rfl, -, hopen, -, rfl⟩ := openTable_ok h
    exact (hopen.encodes r hr).valid
  openTable_summary := by
    intro o b md rs h
    obtain ⟨t, gs, -, rfl, hopen, rfl, rfl⟩ := openTable_ok h
    exact hopen.summary
  openTable_size := by
    intro o b md rs h
    obtain ⟨t, gs, -, rfl, hopen, -, rfl⟩ := openTable_ok h
    exact hopen.length_le
  decodeManifest_encodeManifest := fun h => decodeManifest_encodeManifest h
  encodeManifest_length := fun h => encodeManifest_length h
  encodeManifest_newDatabase := fun h => encodeManifest_newDatabase h
  decodeManifest_valid := fun h => decodeManifest_valid h
  encodeWalRecord_valid := fun h => (encodeWalRecord_eq_ok.mp h).1
  encodeWalRecord_length := fun h => encodeWalRecord_length h
  decodeWalRecordHeader_encode := by
    intro o r b h
    have hd := decodeWalHeader_encode h []
    rw [List.append_nil] at hd
    have hsize : r.walHeader.recordSize = b.length := by
      rw [encodeWalRecord_length h, r.walHeader_recordSize]
    show (decodeWalHeader o (b.take kWalHeaderSize)).map WalHeader.recordSize = _
    rw [decodeWalHeader_take.mpr hd, ← hsize]
    rfl
  decodeWalRecord_encode := by
    intro o r b h
    have hd := decodeWalRecord_encode h []
    rw [List.append_nil] at hd
    show (decodeWalRecord o b).map Prod.snd = _
    rw [hd]
    rfl
  decodeWalRecordHeader_size := by
    intro o b n h
    change (decodeWalHeader o b).map WalHeader.recordSize = .ok n at h
    cases hd : decodeWalHeader o b with
    | error e =>
      rw [hd] at h
      cases h
    | ok header =>
      rw [hd] at h
      obtain rfl : header.recordSize = n := Except.ok.inj h
      exact (decodeWalHeader_ok hd).1.header_le.le
  encodeWalRecord_decode := by
    intro o r b n hh hn hd
    change (decodeWalHeader o (b.take kWalHeaderSize)).map WalHeader.recordSize = .ok n at hh
    change (decodeWalRecord o b).map Prod.snd = .ok r at hd
    cases hrec : decodeWalRecord o b with
    | error e =>
      rw [hrec] at hd
      cases hd
    | ok p =>
      rw [hrec] at hd
      obtain rfl : p.2 = r := Except.ok.inj hd
      obtain ⟨henc, hle⟩ := decodeWalRecord_ok (n := p.1) (r := p.2) hrec
      obtain ⟨h, hheader, hsize⟩ := decodeWalRecord_header (n := p.1) (r := p.2) hrec
      rw [decodeWalHeader_take.mpr hheader] at hh
      obtain rfl : h.recordSize = n := Except.ok.inj hh
      rw [← hsize, ← hn, List.take_length] at henc
      exact henc

/-- The protocol's lookup in an open table is the one that reads a single block. -/
theorem SSTableReader.get_agrees {t : TableReader} {gs : List (List Record)} (h : t.Opened gs)
    (path : FileName) (key : Bytes) :
    (SSTableReader.get t.options
      { path := path, metadata := t.metadata.toTableMetadata, records := gs.flatten } key).Agrees
        (t.get key).1 := by
  unfold SSTableReader.get
  by_cases hne : key.isEmpty = true
  · rw [if_pos hne, TableReader.get, if_pos hne]
    exact ⟨rfl, rfl, rfl, rfl⟩
  by_cases hlen : t.options.maxKeySize < key.length
  · rw [if_neg hne, if_pos hlen, TableReader.get, if_neg hne, if_pos hlen]
    exact ⟨rfl, rfl, rfl, rfl⟩
  rw [if_neg hne, if_neg hlen]
  have hreports := (h.get_reports (by simpa using hne) (not_lt.mp hlen)).1
  split
  · rename_i hrange
    rw [TableReader.get, if_neg hne, if_neg hlen, if_pos hrange]
    exact ⟨rfl, rfl, rfl, rfl⟩
  · dsimp only
    cases hf : findKey gs.flatten key with
    | none =>
      rw [hf] at hreports
      obtain ⟨message, hm⟩ := hreports
      rw [hm]
      exact ⟨rfl, rfl, rfl, rfl⟩
    | some r =>
      rw [hf] at hreports
      rw [hreports]
      exact ⟨rfl, rfl, rfl, rfl⟩

/-! ## Refusals -/

/-- `BloomFilter::Create` refuses with `InvalidArgument`. -/
def BloomShape.Plain (shape : BloomShape) : Prop :=
  ∀ keys rate e, shape keys rate = .error e → e.code = .invalidArgument

theorem finishBlock_error {b : BlockBuilder} {e : Status} (h : finishBlock b = .error e) :
    e.code = .invalidArgument := by
  unfold finishBlock at h
  split at h
  · cases h
  refine of_ite_error h rfl (fun _ h => ?_)
  refine of_ite_error h rfl (fun _ h => ?_)
  · cases h

theorem appendToBlock_error {b : BlockBuilder} {key encoded : Bytes} {e : Status}
    (h : appendToBlock b key encoded = .error e) : e.code = .invalidArgument := by
  unfold appendToBlock at h
  refine of_ite_error h rfl (fun _ h => ?_)
  · cases h

theorem buildBlocks_error {o : FormatOptions} {b : BlockBuilder} {rs : List Record} {e : Status}
    (h : buildBlocks o b rs = .error e) : e.code = .invalidArgument := by
  induction rs generalizing b with
  | nil => exact finishBlock_error h
  | cons r rs ih =>
    unfold buildBlocks at h
    split at h
    · rename_i henc
      rw [← Except.error.inj h]
      exact encodeWalRecord_error henc
    dsimp only at h
    split at h
    · rename_i hfinish
      rw [← Except.error.inj h]
      split at hfinish
      · exact finishBlock_error hfinish
      · cases hfinish
    split at h
    · rename_i happend
      rw [← Except.error.inj h]
      exact appendToBlock_error happend
    · exact ih h

theorem addKeys_error {f : BloomFilter} {rs : List Record} {e : Status}
    (h : addKeys f rs = .error e) : e.code = .invalidArgument := by
  induction rs generalizing f with
  | nil => cases h
  | cons r rs ih =>
    unfold addKeys at h
    split at h
    · rename_i hadd
      rw [← Except.error.inj h]
      unfold BloomFilter.add at hadd
      refine of_ite_error hadd rfl (fun _ hadd => ?_)
      refine of_ite_error hadd rfl (fun _ hadd => ?_)
      · cases hadd
    · exact ih h

theorem buildBloom_error {shape : BloomShape} (hshape : shape.Plain) {o : FormatOptions}
    {rs : List Record} {e : Status} (h : buildBloom shape o rs = .error e) :
    e.code = .invalidArgument := by
  unfold buildBloom at h
  split at h
  · cases h
  split at h
  · rename_i hcreate
    rw [← Except.error.inj h]
    exact hshape _ _ _ hcreate
  split at h
  · rename_i hadd
    rw [← Except.error.inj h]
    exact addKeys_error hadd
  unfold encodeBloomFilter at h
  refine of_ite_error h rfl (fun _ h => ?_)
  refine of_ite_error h rfl (fun _ h => ?_)
  · cases h

theorem validateTableOptions_code (o : FormatOptions) :
    (validateTableOptions o).isOk = true ∨ (validateTableOptions o).code = .invalidArgument := by
  unfold validateTableOptions
  split
  · exact Or.inr rfl
  split
  · exact Or.inr rfl
  · exact Or.inl rfl

theorem encodeTable_error {shape : BloomShape} (hshape : shape.Plain) {o : FormatOptions}
    {generation : Nat} {rs : List Record} {e : Status}
    (h : encodeTable shape o generation rs = .error e) : e.code = .invalidArgument := by
  unfold encodeTable at h
  dsimp only at h
  refine of_ite_error h rfl (fun _ h => ?_)
  split at h
  · rename_i hbad
    rw [← Except.error.inj h]
    exact (validateTableOptions_code o).resolve_left (by simpa using hbad)
  split at h
  · rename_i hblocks
    rw [← Except.error.inj h]
    exact buildBlocks_error hblocks
  refine of_ite_error h rfl (fun _ h => ?_)
  split at h
  · rename_i hbloom
    rw [← Except.error.inj h]
    exact buildBloom_error hshape hbloom
  refine of_ite_error h rfl (fun _ h => ?_)
  · cases h

theorem manifestPayload_error {payload : Bytes} {ts : List VersionTable} {e : Status}
    (h : manifestPayload payload ts = .error e) : e.code = .invalidArgument := by
  induction ts generalizing payload with
  | nil => cases h
  | cons t ts ih =>
    unfold manifestPayload at h
    refine of_ite_error h rfl (fun _ h => ?_)
    dsimp only at h
    refine of_ite_error h rfl (fun _ h => ?_)
    · exact ih h

theorem encodeManifest_error {o : FormatOptions} {v : Version} {e : Status} (hv : v.Valid o)
    (h : encodeManifest o v = .error e) : e.code = .invalidArgument := by
  unfold encodeManifest at h
  dsimp only at h
  split at h
  · rename_i hbad
    rw [validateVersion_isOk.mpr hv] at hbad
    cases hbad
  refine of_ite_error h rfl (fun _ h => ?_)
  refine of_ite_error h rfl (fun _ h => ?_)
  split at h
  · rename_i hpayload
    rw [← Except.error.inj h]
    exact manifestPayload_error hpayload
  refine of_ite_error h rfl (fun _ h => ?_)
  · cases h

theorem fileFormat_plain {shape : BloomShape} (hshape : shape.Plain) : (fileFormat shape).Plain where
  encodeTable_error := encodeTable_error hshape
  encodeManifest_error := encodeManifest_error
  encodeWalRecord_error := encodeWalRecord_error

end MiniKV
