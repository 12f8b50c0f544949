import MiniKV.Codec.Checksum
import MiniKV.Recovery
import MiniKV.Scan.Token

/-!
# Damage

What every reader makes of bytes that were written and then damaged: one byte is
another one, or the end is missing. Everything that is accepted is an encoding,
and no two encodings differ in one byte.
-/

namespace MiniKV

open Lib

/-! ## Log records -/

/-- Two headers that differ in one byte at most announce the same record size, which
stands in a header twice: in its own field and as the sum of the lengths. -/
theorem WalHeader.Accepted.recordSize_eq {o : FormatOptions} {g h : WalHeader}
    (hg : g.Accepted o) (hh : h.Accepted o) (hbytes : g.bytes = h.bytes ∨ Altered g.bytes h.bytes) :
    h.recordSize = g.recordSize := by
  have hword : ∀ x : WalHeader, x.Accepted o →
      x.recordSize < 256 ^ 4 ∧ x.keySize < 256 ^ 4 ∧ x.valueSize < 256 ^ 4 := by
    intro x hx
    have hsize := hx.size_eq
    have hle := hx.size_le
    simp only [maxUInt32] at hle
    omega
  have hsplit : ∀ x : WalHeader, x.bytes = (kWalMagic ++ ([kWalFormatVersion] ++
      ([x.type.toByte] ++ putFixed 2 kWalHeaderSize))) ++ (putFixed 4 x.recordSize ++
        (putFixed 8 x.sequence ++ (putFixed 4 x.keySize ++ putFixed 4 x.valueSize))) := by
    intro x
    simp [WalHeader.bytes]
  obtain ⟨hr, hk, hv⟩ := hword g hg
  obtain ⟨hr', hk', hv'⟩ := hword h hh
  have hfield : putFixed 4 g.recordSize = putFixed 4 h.recordSize →
      h.recordSize = g.recordSize := fun he => (putFixed_inj hr hr' he).symm
  have hlengths : putFixed 8 g.sequence ++ (putFixed 4 g.keySize ++ putFixed 4 g.valueSize) =
      putFixed 8 h.sequence ++ (putFixed 4 h.keySize ++ putFixed 4 h.valueSize) →
      h.recordSize = g.recordSize := by
    intro he
    obtain ⟨-, he⟩ := List.append_inj he (by simp)
    obtain ⟨hkey, hvalue⟩ := List.append_inj he (by simp)
    rw [hg.size_eq, hh.size_eq, putFixed_inj hk hk' hkey, putFixed_inj hv hv' hvalue]
  rw [hsplit g, hsplit h] at hbytes
  rcases hbytes with he | ha
  · obtain ⟨-, he⟩ := List.append_inj he (by simp)
    exact hfield (List.append_inj he (by simp)).1
  · rcases ha.append_inv (by simp) with ⟨-, he⟩ | ⟨-, ha⟩
    · exact hfield (List.append_inj he (by simp)).1
    · rcases ha.append_inv (by simp) with ⟨-, he⟩ | ⟨he, -⟩
      · exact hlengths he
      · exact hfield he

/-- The header of an encoding in which one byte is another one still announces the length
of the encoding, if it is accepted at all. -/
theorem decodeWalHeader_altered {o : FormatOptions} {r : Record} {e s : Bytes} {h : WalHeader}
    (hr : r.Encodes o) (ha : Altered r.encoding e) (hd : decodeWalHeader o (e ++ s) = .ok h) :
    h.recordSize = e.length := by
  obtain ⟨hh, hbytes⟩ := decodeWalHeader_ok hd
  have hlen : e.length = r.walHeader.recordSize := by
    rw [ha.length_eq, r.encoding_length, r.walHeader_recordSize]
  have hheader := header_le_walSize r
  rw [← r.walHeader_recordSize, ← hlen, kWalHeaderSize] at hheader
  have hstart : e.take 28 = h.bytes := by
    have hfront : (e ++ s).take 28 = e.take 28 := List.take_append_of_le_length (by omega)
    rw [← hfront, hbytes]
    exact List.take_left' (by simp)
  rw [hlen]
  refine (encodeWalRecord_accepted hr).recordSize_eq hh ?_
  rw [← List.take_append_drop 28 e, hstart] at ha
  rcases ha.append_inv (by simp) with ⟨ha, -⟩ | ⟨he, -⟩
  · exact Or.inr ha
  · exact Or.inl he

/-- No encodings of two records differ in one byte. -/
theorem encoding_not_altered (r x : Record) : ¬ Altered r.encoding x.encoding :=
  checksummed_not_altered [] (by simp)

/-- Bytes that begin with a damaged record are no log. -/
theorem reading_altered {o : FormatOptions} {r : Record} {rs : List Record} {e b t : Bytes}
    (hr : r.Encodes o) (ha : Altered r.encoding e) (hrs : ∀ x ∈ rs, x.Encodes o)
    (ht : IncompleteTail o t) : e ++ b ≠ rs.flatMap Record.encoding ++ t := by
  intro h
  have hlen := ha.length_eq
  have hheader := header_le_walSize r
  have hpos : 0 < kWalHeaderSize := by decide
  rw [r.encoding_length] at hlen
  cases rs with
  | nil =>
    -- the tail would be incomplete, but its header announces bytes that are there
    rw [List.flatMap_nil, List.nil_append] at h
    have htail : e.length ≤ t.length := by
      rw [← h, List.length_append]
      omega
    rcases ht with rfl | hshort | ⟨header, hd, hlt⟩
    · rw [List.length_nil] at htail
      omega
    · omega
    · rw [← h] at hd
      rw [decodeWalHeader_altered hr ha hd] at hlt
      omega
  | cons x xs =>
    rw [List.flatMap_cons, List.append_assoc] at h
    have hd := decodeWalHeader_encode (hrs x List.mem_cons_self) (xs.flatMap Record.encoding ++ t)
    rw [← h] at hd
    have hsize := decodeWalHeader_altered hr ha hd
    rw [x.walHeader_recordSize, ← x.encoding_length] at hsize
    obtain ⟨rfl, -⟩ := List.append_inj h hsize.symm
    exact encoding_not_altered r x ha

namespace RecoveryFile

/-- One damaged byte in any complete record of a log, whatever follows the records, is
corruption: recovery reports it, cuts nothing off and leaves its outputs alone. -/
theorem recoverWal_altered {o : FormatOptions} {f : RecoveryFile} {rs : List Record}
    {damaged rest : Bytes} (hrs : ∀ r ∈ rs, r.Encodes o)
    (ha : Altered (rs.flatMap Record.encoding) damaged) (hf : f.content = damaged ++ rest)
    (m : MemTable) (result : WalRecoveryResult) : (f.recoverWal o m result).Refuses f m result := by
  refine recoverWal_refuses ?_ m result
  rintro ⟨xs, t, hg⟩
  obtain ⟨before, r, after, e, rfl, he, rfl⟩ := ha.flatMap_cases
  have hbytes := hg.bytes
  rw [hf, List.append_assoc] at hbytes
  obtain ⟨ys, rfl, hrest⟩ := reading_append
    (fun x hx => hrs x (List.mem_append_left _ hx)) hg.encodes hg.tail hbytes
  rw [List.append_assoc] at hrest
  exact reading_altered (hrs r (List.mem_append_right _ List.mem_cons_self)) he
    (fun x hx => hg.encodes x (List.mem_append_right _ hx)) hg.tail hrest

theorem recoverWal_altered_flipped :
    Altered ([smallWrite, laterWrite].flatMap Record.encoding) (flipped ++ laterWrite.encoding) ∧
      ((twoWrites flipped (by decide)).recoverWal ({} : Options).toFormatOptions .empty
        {}).Refuses (twoWrites flipped (by decide)) .empty {} := by
  have ha : Altered ([smallWrite, laterWrite].flatMap Record.encoding)
      (flipped ++ laterWrite.encoding) := by
    have hflip : Altered smallWrite.encoding flipped := altered_set (by decide) (by decide)
    simpa using hflip.append_right laterWrite.encoding
  have hcontent : (twoWrites flipped (by decide)).content =
      (flipped ++ laterWrite.encoding) ++ [] := (List.append_nil _).symm
  refine ⟨ha, recoverWal_altered ?_ ha hcontent .empty {}⟩
  intro r hr
  simp only [List.mem_cons, List.not_mem_nil, or_false] at hr
  rcases hr with rfl | rfl
  · exact smallWrite_encodes
  · exact laterWrite_encodes

end RecoveryFile

/-! ## MANIFESTs, filters and tokens -/

/-- Bytes in which one byte is another one, or whose end is missing. -/
def Spoiled (b b' : Bytes) : Prop := Altered b b' ∨ (b' <+: b ∧ b' ≠ b)

theorem decodeManifest_spoiled {o o' : FormatOptions} {v : Version} {b b' : Bytes}
    (h : encodeManifest o v = .ok b) (hb : Spoiled b b') :
    ∃ e, decodeManifest o' b' = .error e ∧ e.isOk = false := by
  cases hd : decodeManifest o' b' with
  | error e => exact ⟨e, rfl, decodeManifest_error hd⟩
  | ok v' =>
    exfalso
    rcases hb with ha | ⟨hp, hne⟩
    · obtain ⟨-, -, -, -, -, rfl⟩ := encodeManifest_ok h
      obtain ⟨-, -, -, -, -, rfl⟩ := encodeManifest_ok (decodeManifest_ok hd)
      exact checksummed_not_altered (putFixed 4 0) (by simp) ha
    · obtain ⟨hlen, hsize⟩ := decodeManifest_size hd
      rw [kManifestHeaderSize] at hlen
      exact hne (eq_of_size_field hp (by omega) hsize
        (decodeManifest_size (decodeManifest_encodeManifest h)).2)

theorem decodeBloomFilter_spoiled {f : BloomFilter} {b b' : Bytes}
    (h : encodeBloomFilter f = .ok b) (hb : Spoiled b b') :
    ∃ e, decodeBloomFilter b' = .error e ∧ e.isOk = false := by
  cases hd : decodeBloomFilter b' with
  | error e => exact ⟨e, rfl, decodeBloomFilter_error hd⟩
  | ok f' =>
    exfalso
    rcases hb with ha | ⟨hp, hne⟩
    · obtain ⟨-, -, -, rfl⟩ := encodeBloomFilter_eq_ok.mp h
      obtain ⟨-, -, -, rfl⟩ := encodeBloomFilter_eq_ok.mp (decodeBloomFilter_ok hd)
      exact checksummed_not_altered [] (by simp) ha
    · obtain ⟨hlen, hsize⟩ := decodeBloomFilter_size hd
      rw [kBloomFilterHeaderSize] at hlen
      exact hne (eq_of_size_field hp (by omega) hsize
        (decodeBloomFilter_size (decodeBloomFilter_encode h)).2)

theorem decodeScanToken_spoiled {bounds : ScanBounds} {versionId lastSequence : Nat}
    {lastKey b b' : Bytes} {o : Options}
    (h : encodeScanToken bounds versionId lastSequence lastKey = .ok b) (hb : Spoiled b b') :
    ∃ e, decodeScanToken b' bounds o versionId lastSequence = .error e ∧ e.isOk = false := by
  cases hd : decodeScanToken b' bounds o versionId lastSequence with
  | error e => exact ⟨e, rfl, decodeScanToken_error hd⟩
  | ok key =>
    exfalso
    obtain ⟨hlen, hsize, hcrc, -, -⟩ := decodeScanToken_checked hd
    obtain ⟨hfits, rfl⟩ := encodeScanToken_ok h
    rcases hb with ha | ⟨hp, hne⟩
    · have hwrong := checksum_altered ha
      rw [scanTokenPrefix_length] at hwrong
      exact hwrong hcrc
    · rw [kScanTokenHeaderSize] at hlen
      refine hne (eq_of_size_field hp (by omega) hsize ?_)
      rw [scanTokenBytes_size hfits, scanTokenBytes_length]

/-- No change of one byte and no cut of a MANIFEST, a filter or a token goes unnoticed. -/
theorem images_reject_damage :
    (∀ o o' v b b', encodeManifest o v = .ok b → Spoiled b b' →
      ∃ e, decodeManifest o' b' = .error e ∧ e.isOk = false) ∧
    (∀ f b b', encodeBloomFilter f = .ok b → Spoiled b b' →
      ∃ e, decodeBloomFilter b' = .error e ∧ e.isOk = false) ∧
    (∀ bounds versionId lastSequence lastKey o b b',
      encodeScanToken bounds versionId lastSequence lastKey = .ok b → Spoiled b b' →
      ∃ e, decodeScanToken b' bounds o versionId lastSequence = .error e ∧ e.isOk = false) :=
  ⟨fun _ _ _ _ _ h hb => decodeManifest_spoiled h hb,
    fun _ _ _ h hb => decodeBloomFilter_spoiled h hb,
    fun _ _ _ _ _ _ _ h hb => decodeScanToken_spoiled h hb⟩

/-! ## Tables -/

theorem sealed_altered {p x : Bytes} (h : Altered (sealed p) x) :
    crc32c (x.take p.length) ≠ fieldAt x p.length 4 := by
  have hwhole : Altered (p ++ (putFixed 4 (crc32c (p ++ [])) ++ [])) x := by
    simpa [sealed] using h
  have hwrong := checksum_altered hwhole
  have hnil : x.drop (p.length + 4) = [] :=
    List.drop_eq_nil_of_le (by rw [h.length_eq, sealed_length])
  rwa [hnil, List.append_nil] at hwrong

theorem headerAccepted_altered {generation records blocks : Nat} {header : Bytes}
    (h : Altered (sealed (tableHeader generation records blocks)) header) :
    headerAccepted header = false := by
  have hwrong := sealed_altered h
  rw [tableHeader_length] at hwrong
  refine decide_eq_false (fun hacc => hwrong hacc.2.2.2.2)

theorem footerAccepted_altered {f : TableFooter} {header footer : Bytes} (fileSize : Nat)
    (h : Altered (sealed f.encode) footer) : footerAccepted header footer fileSize = false := by
  have hwrong := sealed_altered h
  rw [TableFooter.encode_length] at hwrong
  refine decide_eq_false (fun hacc => hwrong hacc.2.2.2.2.2.2.2)

theorem indexAccepted_altered {f : TableFooter} {entries : List IndexEntry} {index : Bytes}
    (h : Altered (encodeIndex entries) index) : indexAccepted f index = false := by
  have hwrong := checksum_altered h
  rw [indexHeader_length] at hwrong
  refine decide_eq_false (fun hacc => hwrong hacc.2.2.2)

theorem readBlock_altered {o : FormatOptions} {content block : Bytes} {e : IndexEntry}
    {g rs : List Record} (h : Altered (blockBytes g) block)
    (hblock : (content.drop e.blockOffset).take e.blockSize = block) :
    readBlock o content e ≠ .ok rs := by
  intro hread
  have hwrong := checksum_altered h
  rw [blockHeader_length] at hwrong
  obtain ⟨-, -, -, -, -, -, hcrc⟩ := of_decide_eq_true (blockChecks_of_ok hread)
  rw [blockIn, hblock] at hcrc
  exact hwrong hcrc

/-- The entry of a block among others. -/
theorem mem_indexOf_split (offset : Nat) (before : List (List Record)) (g : List Record)
    (after : List (List Record)) :
    { firstKey := firstKey g, blockOffset := offset + (before.flatMap blockBytes).length,
      blockSize := blockSize g } ∈ indexOf offset (before ++ g :: after) := by
  induction before generalizing offset with
  | nil => exact List.mem_cons_self
  | cons x before ih =>
    have hmem := ih (offset + blockSize x)
    rw [List.flatMap_cons, List.length_append, blockBytes_length, ← Nat.add_assoc]
    exact List.mem_cons_of_mem _ hmem

theorem region_eq (a b c : Bytes) : ((a ++ (b ++ c)).drop a.length).take b.length = b := by
  rw [List.drop_left, List.take_left]

theorem footerBytes_append {a footer : Bytes} (h : footer.length = kTableFooterSize) :
    footerBytes (a ++ footer) = footer := by
  rw [footerBytes, List.length_append, h, Nat.add_sub_cancel, List.drop_left]

section

variable {o : FormatOptions} {generation : Nat} {gs : List (List Record)} {bloom : Bytes}
  {filter : Option BloomFilter} {p : TableReader × List Record}

/-- What `Open` has to do with a file whose footer is that of a table. -/
theorem TableFits.opened_regions (h : TableFits o generation gs bloom) {content : Bytes}
    (body : Bytes) (hcontent : content = body ++ sealed (footerFor generation gs bloom).encode)
    (hopen : openContent o content = .ok p) :
    ∃ index, index = (content.drop (footerFor generation gs bloom).indexOffset).take
        (footerFor generation gs bloom).indexSize ∧
      indexAccepted (footerFor generation gs bloom) index = true ∧
      openRegions o content (footerFor generation gs bloom) index = .ok p := by
  obtain ⟨f, index, hf, hindex, hchecked, hregions⟩ := openContent_checked hopen
  have hfooter : footerBytes content = sealed (footerFor generation gs bloom).encode := by
    rw [hcontent]
    exact footerBytes_append (by simp [kTableFooterSize])
  rw [hfooter, h.footerAccepted_sealed.1] at hf
  subst hf
  exact ⟨index, hindex, hchecked.index, hregions⟩

theorem TableFits.header_altered {header rest : Bytes}
    (ha : Altered (sealed (tableHeader generation gs.flatten.length gs.length)) header) :
    openContent o (header ++ rest) ≠ .ok p := by
  intro hopen
  obtain ⟨f, index, -, -, hchecked, -⟩ := openContent_checked hopen
  have haccepted := hchecked.header
  have hlen : header.length = kTableHeaderSize := by
    rw [ha.length_eq]
    simp [kTableHeaderSize]
  rw [List.take_left' hlen, headerAccepted_altered ha] at haccepted
  cases haccepted

theorem TableFits.footer_altered {body footer : Bytes}
    (ha : Altered (sealed (footerFor generation gs bloom).encode) footer) :
    openContent o (body ++ footer) ≠ .ok p := by
  intro hopen
  obtain ⟨f, index, -, -, hchecked, -⟩ := openContent_checked hopen
  have haccepted := hchecked.footer
  have hlen : footer.length = kTableFooterSize := by
    rw [ha.length_eq]
    simp [kTableFooterSize]
  rw [footerBytes_append hlen, footerAccepted_altered _ ha] at haccepted
  cases haccepted

theorem TableFits.index_altered (h : TableFits o generation gs bloom) {index : Bytes}
    (ha : Altered (encodeIndex (indexOf kTableHeaderSize gs)) index) :
    openContent o (sealed (tableHeader generation gs.flatten.length gs.length) ++
      (gs.flatMap blockBytes ++ (index ++ (bloom ++
        sealed (footerFor generation gs bloom).encode)))) ≠ .ok p := by
  intro hopen
  obtain ⟨index', hindex, haccepted, -⟩ := h.opened_regions
    (sealed (tableHeader generation gs.flatten.length gs.length) ++
      (gs.flatMap blockBytes ++ (index ++ bloom))) (by simp only [List.append_assoc]) hopen
  have hregion : index' = index := by
    have hlen := ha.length_eq
    have hregion := region_eq (sealed (tableHeader generation gs.flatten.length gs.length) ++
      gs.flatMap blockBytes) index (bloom ++ sealed (footerFor generation gs bloom).encode)
    rw [List.append_assoc, List.length_append, sealed_length, tableHeader_length, hlen] at hregion
    rw [hindex]
    exact hregion
  rw [hregion, indexAccepted_altered ha] at haccepted
  cases haccepted

theorem TableFits.bloom_altered (h : TableFits o generation gs bloom)
    (hbloom : BloomRegion gs.flatten bloom filter) {bloom' : Bytes} (ha : Altered bloom bloom') :
    openContent o (sealed (tableHeader generation gs.flatten.length gs.length) ++
      (gs.flatMap blockBytes ++ (encodeIndex (indexOf kTableHeaderSize gs) ++ (bloom' ++
        sealed (footerFor generation gs bloom).encode)))) ≠ .ok p := by
  intro hopen
  obtain ⟨t, rs⟩ := p
  obtain ⟨index, -, -, hregions⟩ := h.opened_regions
    (sealed (tableHeader generation gs.flatten.length gs.length) ++
      (gs.flatMap blockBytes ++ (encodeIndex (indexOf kTableHeaderSize gs) ++ bloom')))
    (by simp only [List.append_assoc]) hopen
  obtain ⟨found, entries, hopenBloom, -⟩ := openRegions_ok hregions
  have hregion := region_eq (sealed (tableHeader generation gs.flatten.length gs.length) ++
    (gs.flatMap blockBytes ++ encodeIndex (indexOf kTableHeaderSize gs))) bloom'
    (sealed (footerFor generation gs bloom).encode)
  rw [List.append_assoc, List.append_assoc, List.length_append, List.length_append, sealed_length,
    tableHeader_length, ha.length_eq, ← Nat.add_assoc] at hregion
  rcases hbloom.read with ⟨-, rfl⟩ | ⟨x, -, -, hlen, hd⟩
  · cases ha
  · obtain ⟨e, hrefused, -⟩ := decodeBloomFilter_spoiled (decodeBloomFilter_ok hd) (Or.inl ha)
    have hne : ¬ (footerFor generation gs bloom).bloomSize = 0 := by
      simp only [footerOf]
      simp only [kBloomFilterHeaderSize] at hlen
      omega
    unfold openBloom at hopenBloom
    rw [if_neg hne] at hopenBloom
    have hbytes : ((sealed (tableHeader generation gs.flatten.length gs.length) ++
        (gs.flatMap blockBytes ++ (encodeIndex (indexOf kTableHeaderSize gs) ++ (bloom' ++
          sealed (footerFor generation gs bloom).encode)))).drop
            (footerFor generation gs bloom).bloomOffset).take
              (footerFor generation gs bloom).bloomSize = bloom' := hregion
    rw [hbytes, hrefused] at hopenBloom
    cases hopenBloom

theorem TableFits.data_altered (h : TableFits o generation gs bloom) (hasc : Ascending gs.flatten)
    {data : Bytes} (ha : Altered (gs.flatMap blockBytes) data) :
    openContent o (sealed (tableHeader generation gs.flatten.length gs.length) ++
      (data ++ (encodeIndex (indexOf kTableHeaderSize gs) ++ (bloom ++
        sealed (footerFor generation gs bloom).encode)))) ≠ .ok p := by
  intro hopen
  obtain ⟨t, rs⟩ := p
  obtain ⟨index, hindex, -, hregions⟩ := h.opened_regions
    (sealed (tableHeader generation gs.flatten.length gs.length) ++
      (data ++ (encodeIndex (indexOf kTableHeaderSize gs) ++ bloom)))
    (by simp only [List.append_assoc]) hopen
  obtain ⟨found, entries, -, hentries, hverify, -⟩ := openRegions_ok hregions
  -- the index is the one that was written, so it leads to the damaged block
  have hregion : index = encodeIndex (indexOf kTableHeaderSize gs) := by
    have hregion := region_eq (sealed (tableHeader generation gs.flatten.length gs.length) ++ data)
      (encodeIndex (indexOf kTableHeaderSize gs))
      (bloom ++ sealed (footerFor generation gs bloom).encode)
    rw [List.append_assoc, List.length_append, sealed_length, tableHeader_length,
      ha.length_eq] at hregion
    rw [hindex]
    exact hregion
  have hcount : (footerFor generation gs bloom).blockCount =
      (indexOf kTableHeaderSize gs).length := (indexOf_length _ _).symm
  obtain ⟨-, -, hpayload⟩ := indexAccepted_encode (f := footerFor generation gs bloom) rfl hcount
    (h.index_le.trans (by decide)) (by rw [indexOf_length]; exact h.blocks_le)
  have hkeys : ∀ k ∈ (none : Option Bytes), ∀ e ∈ indexOf kTableHeaderSize gs,
      k < e.firstKey := by simp
  have hwritten := decodeIndexEntries_indexOf (s := []) h.entries
    (indexOf_ascending h.fits hasc) hkeys
  rw [hregion, hpayload] at hentries
  rw [List.append_nil] at hwritten
  simp only [footerOf] at hentries
  rw [hwritten] at hentries
  obtain ⟨rfl, -⟩ := Prod.mk.inj (Except.ok.inj hentries)
  obtain ⟨before, g, after, block, rfl, hblock, rfl⟩ := ha.flatMap_cases
  obtain ⟨hs, -, hblocks, -⟩ := verifyBlocks_ok hverify
  obtain ⟨read, -, hat⟩ := forall₂_right (List.Forall₂.flip (R := flip (BlockAt o _)) hblocks)
    (mem_indexOf_split kTableHeaderSize before g after)
  refine readBlock_altered hblock ?_ hat.read
  have hlen := hblock.length_eq
  rw [blockBytes_length] at hlen
  have hregion := region_eq (sealed (tableHeader generation
    (before ++ g :: after).flatten.length (before ++ g :: after).length) ++
      before.flatMap blockBytes) block (after.flatMap blockBytes ++
        (encodeIndex (indexOf kTableHeaderSize (before ++ g :: after)) ++ (bloom ++
          sealed (footerFor generation (before ++ g :: after) bloom).encode)))
  rw [List.append_assoc, List.length_append, sealed_length, tableHeader_length, hlen] at hregion
  simp only [List.append_assoc]
  exact hregion

/-- No change of one byte of a table's file is accepted: each of its regions is under a
checksum, and the regions before a check are what was written. -/
theorem TableFits.altered (h : TableFits o generation gs bloom) (hasc : Ascending gs.flatten)
    (hbloom : BloomRegion gs.flatten bloom filter) {content : Bytes}
    (ha : Altered (tableBytes generation gs bloom) content) : openContent o content ≠ .ok p := by
  rcases ha.append_cases with ⟨header, hheader, rfl⟩ | ⟨rest, hrest, rfl⟩
  · exact TableFits.header_altered hheader
  rcases hrest.append_cases with ⟨data, hdata, rfl⟩ | ⟨regions, hregions, rfl⟩
  · exact h.data_altered hasc hdata
  rcases hregions.append_cases with ⟨index, hindex, rfl⟩ | ⟨ending, hending, rfl⟩
  · exact h.index_altered hindex
  rcases hending.append_cases with ⟨bloom', hbloom', rfl⟩ | ⟨footer, hfooter, rfl⟩
  · exact h.bloom_altered hbloom hbloom'
  · rw [← List.append_assoc, ← List.append_assoc, ← List.append_assoc]
    exact TableFits.footer_altered hfooter

end

/-- Whatever byte of a table's file is another one, `Open` reports corruption and gives no
reader. -/
theorem openFile_altered {shape : BloomShape} {o : FormatOptions} {generation : Nat}
    {m : MemTable} {b b' : Bytes} (h : encodeTable shape o generation m.records = .ok b)
    (ha : Altered b b') :
    ∃ e, TableReader.openFile o b' = .error e ∧ e.code = .corruption := by
  obtain ⟨gs, bloom, hflat, hbloom, hfits, rfl⟩ := encodeTable_ok h
  rw [← hflat] at hbloom
  obtain ⟨filter, hregion⟩ := buildBloom_ok hbloom
  have hasc : Ascending gs.flatten := by
    rw [hflat]
    exact m.ascending
  cases hopen : openContent o b' with
  | ok p => exact absurd hopen (hfits.altered hasc hregion ha)
  | error e =>
    refine ⟨e, ?_, openContent_error hfits.options hopen⟩
    rw [TableReader.openFile, hopen]
    rfl

/-- One byte of the second block of a table is another one. -/
theorem openFile_altered_twoBlocks :
    ∃ e, encodeTable byteShape shortBlocks 1 twoRecords.records = .ok twoBlocks ∧
      Altered twoBlocks (twoBlocks.set 139 9) ∧
      TableReader.openFile shortBlocks (twoBlocks.set 139 9) = .error e ∧ e.code = .corruption := by
  have ha : Altered twoBlocks (twoBlocks.set 139 9) :=
    altered_set (by decide +kernel) (by decide +kernel)
  obtain ⟨e, he, hcode⟩ := openFile_altered encodeTable_twoBlocks ha
  exact ⟨e, encodeTable_twoBlocks, ha, he, hcode⟩

end MiniKV
