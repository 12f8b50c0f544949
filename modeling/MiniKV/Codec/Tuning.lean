import MiniKV.Codec.Portable

/-!
# Tables under other options

The options that a table is built with also bound what is read back: `Open` takes
no block that is longer than its own options would let it become. Everything
else that tunes the engine makes no difference to a reader.
-/

namespace MiniKV

/-- The sizes of the blocks that `EncodeTable` cuts the records into. -/
def tableBlockSizes (o : FormatOptions) (rs : List Record) : List Nat :=
  match buildBlocks o {} rs with
  | .error _ => []
  | .ok b => b.index.map IndexEntry.blockSize

theorem map_blockSize_indexOf (offset : Nat) (gs : List (List Record)) :
    (indexOf offset gs).map IndexEntry.blockSize = gs.map blockSize := by
  induction gs generalizing offset with
  | nil => rfl
  | cons g gs ih => rw [indexOf, List.map_cons, List.map_cons, ih]

/-- No block is longer than the options let it become. -/
theorem tableBlockSizes_le {o : FormatOptions} {rs : List Record} :
    ∀ n ∈ tableBlockSizes o rs, n ≤ maximumBlockSize o := by
  unfold tableBlockSizes
  split
  · exact List.forall_mem_nil _
  · rename_i b hb
    obtain ⟨gs, -, hbuilds⟩ := buildBlocks_ok (Builds.start o) hb
    rw [hbuilds.index, map_blockSize_indexOf]
    intro n hn
    obtain ⟨g, hg, rfl⟩ := List.mem_map.mp hn
    exact (hbuilds.fits g hg).size_le_maximum

/-- An index that is accepted has no block beyond the limit. -/
theorem decodeIndexEntries_sizes {o : FormatOptions} {dataOffset dataSize n expected last : Nat}
    {previous : Option Bytes} {b rest : Bytes} {entries : List IndexEntry}
    (h : decodeIndexEntries o dataOffset dataSize n previous expected b =
      .ok (entries, rest, last)) : ∀ e ∈ entries, e.blockSize ≤ maximumBlockSize o := by
  induction n generalizing previous expected b entries rest last with
  | zero =>
    rw [decodeIndexEntries] at h
    rw [← (Prod.mk.inj (Except.ok.inj h)).1]
    intro e he
    cases he
  | succ n ih =>
    obtain ⟨e, es, rfl, he, hes⟩ := decodeIndexEntries_succ_ok h
    intro x hx
    rcases List.mem_cons.mp hx with rfl | hx
    · exact he.size_le
    · exact ih hes x hx

/-- The limit holds for every block of a file that is accepted, whoever wrote it. -/
theorem openContent_sizes {o : FormatOptions} {content : Bytes} {p : TableReader × List Record}
    (h : openContent o content = .ok p) : ∀ e ∈ p.1.index, e.blockSize ≤ maximumBlockSize o := by
  obtain ⟨t, rs⟩ := p
  obtain ⟨f, index, -, -, -, hregions⟩ := openContent_checked h
  obtain ⟨filter, entries, -, hentries, -, -, -, -, rfl⟩ := openRegions_ok hregions
  exact decodeIndexEntries_sizes hentries

/-- Two readers of one file have one index. -/
theorem openContent_index_agree {o o' : FormatOptions} {content : Bytes}
    {p p' : TableReader × List Record} (h : openContent o content = .ok p)
    (h' : openContent o' content = .ok p') : p.1.index = p'.1.index := by
  obtain ⟨t, rs⟩ := p
  obtain ⟨t', rs'⟩ := p'
  obtain ⟨f, index, hf, hindex, -, hregions⟩ := openContent_checked h
  obtain ⟨f', index', hf', hindex', -, hregions'⟩ := openContent_checked h'
  obtain rfl : f = f' := hf.trans hf'.symm
  obtain rfl : index = index' := hindex.trans hindex'.symm
  obtain ⟨filter, entries, -, hentries, -, -, -, -, rfl⟩ := openRegions_ok hregions
  obtain ⟨filter', entries', -, hentries', -, -, -, -, rfl⟩ := openRegions_ok hregions'
  exact (Prod.mk.inj (decodeIndexEntries_agree hentries hentries')).1

section

variable {o₁ o₂ : FormatOptions} (hkey : o₁.maxKeySize = o₂.maxKeySize)
  (hvalue : o₁.maxValueSize = o₂.maxValueSize)

include hkey hvalue

/-- What fits one configuration fits another with the same limits on keys and values, if
its blocks are within the other's limit. -/
theorem TableFits.tuned {generation : Nat} {gs : List (List Record)} {bloom : Bytes}
    (h : TableFits o₁ generation gs bloom) (ho : (validateTableOptions o₂).isOk = true)
    (hsizes : ∀ g ∈ gs, blockSize g ≤ maximumBlockSize o₂) : TableFits o₂ generation gs bloom :=
  { h with
    options := ho
    fits := fun g hg =>
      { h.fits g hg with
        encodes := fun r hr => encodeWalRecord_mono ((h.fits g hg).encodes r hr)
          ⟨hkey.le, hvalue.le⟩
        size_le_maximum := hsizes g hg } }

end

/-- Readers with the same records and the same limit on keys answer alike. -/
theorem TableReader.Opened.get_agrees {t t' : TableReader} {gs gs' : List (List Record)}
    (h : t.Opened gs) (h' : t'.Opened gs') (hrecords : gs.flatten = gs'.flatten)
    (hkey : t.options.maxKeySize = t'.options.maxKeySize) (key : Bytes) :
    (t.get key).1.Agrees (t'.get key).1 := by
  by_cases hne : key = []
  · subst hne
    exact ⟨rfl, rfl, rfl, rfl⟩
  by_cases hlong : t.options.maxKeySize < key.length
  · have hempty : key.isEmpty = false := by simpa using hne
    unfold TableReader.get
    dsimp only
    rw [hempty, if_neg Bool.false_ne_true, if_neg Bool.false_ne_true, if_pos hlong,
      if_pos (hkey ▸ hlong)]
    exact ⟨rfl, rfl, rfl, rfl⟩
  have hr := (h.get_reports hne (not_lt.mp hlong)).1
  have hr' := (h'.get_reports hne (hkey ▸ not_lt.mp hlong)).1
  rw [← hrecords] at hr'
  cases hf : findKey gs.flatten key with
  | none =>
    rw [hf] at hr hr'
    obtain ⟨message, hm⟩ := hr
    obtain ⟨message', hm'⟩ := hr'
    rw [hm, hm']
    exact ⟨rfl, rfl, rfl, rfl⟩
  | some r =>
    rw [hf] at hr hr'
    rw [LookupResult.Reports] at hr hr'
    rw [hr, hr']
    exact ⟨rfl, rfl, rfl, rfl⟩

/-- A table that was built under some options is read alike under all others with the same
limits on keys and values, if none of its blocks is longer than theirs may be; this is so if its
options ask for no longer blocks. -/
theorem openFile_tuned_iff {shape : BloomShape} {o₁ o₂ : Options}
    (hkey : o₁.maxKeySize = o₂.maxKeySize) (hvalue : o₁.maxValueSize = o₂.maxValueSize)
    (ho : (validateTableOptions o₂.toFormatOptions).isOk = true) {generation : Nat} {m : MemTable}
    {b : Bytes} (h : encodeTable shape o₁.toFormatOptions generation m.records = .ok b) :
    ∃ t₁, TableReader.openFile o₁.toFormatOptions b = .ok t₁ ∧
      ((∃ t₂, TableReader.openFile o₂.toFormatOptions b = .ok t₂ ∧
          (∀ limit, t₂.readRecords limit = t₁.readRecords limit) ∧
          ∀ key, (t₂.get key).1.Agrees (t₁.get key).1) ↔
        ∀ n ∈ tableBlockSizes o₁.toFormatOptions m.records,
          n ≤ maximumBlockSize o₂.toFormatOptions) ∧
      (o₁.sstableBlockSize ≤
          max o₂.sstableBlockSize (kWalHeaderSize + o₂.maxKeySize + o₂.maxValueSize) →
        ∀ n ∈ tableBlockSizes o₁.toFormatOptions m.records,
          n ≤ maximumBlockSize o₂.toFormatOptions) := by
  obtain ⟨gs, bloom, builder, hflat, hbloom, hfits, rfl, hbuilder, hindex⟩ := encodeTable_blocks h
  rw [← hflat] at hbloom
  obtain ⟨filter, hregion⟩ := buildBloom_ok hbloom
  have hasc : Ascending gs.flatten := by
    rw [hflat]
    exact m.ascending
  have hopen := openContent_tableBytes hfits hasc hregion
  obtain ⟨hs, heq, hoptions, -, hopened⟩ := openContent_ok hopen
  have hsizes : tableBlockSizes o₁.toFormatOptions m.records = gs.map blockSize := by
    rw [tableBlockSizes, hbuilder]
    dsimp only
    rw [hindex, map_blockSize_indexOf]
  refine ⟨_, by rw [TableReader.openFile, hopen]; rfl, ?_, fun hle n hn => ?_⟩
  swap
  · refine (tableBlockSizes_le n hn).trans ?_
    simp only [maximumBlockSize, hkey, hvalue]
    omega
  rw [hsizes]
  constructor
  · rintro ⟨t₂, ht₂, -⟩
    rw [TableReader.openFile] at ht₂
    cases hopen₂ : openContent o₂.toFormatOptions (tableBytes generation gs bloom) with
    | error e =>
      rw [hopen₂] at ht₂
      cases ht₂
    | ok p =>
      have hsame := openContent_index_agree hopen₂ hopen
      have hle := openContent_sizes hopen₂
      rw [hsame] at hle
      intro n hn
      rw [← map_blockSize_indexOf kTableHeaderSize] at hn
      obtain ⟨e, he, rfl⟩ := List.mem_map.mp hn
      exact hle e he
  · intro hall
    have hfits₂ := hfits.tuned hkey hvalue ho
      (fun g hg => hall _ (List.mem_map_of_mem hg))
    have hopen₂ := openContent_tableBytes hfits₂ hasc hregion
    obtain ⟨hs₂, heq₂, hoptions₂, -, hopened₂⟩ := openContent_ok hopen₂
    refine ⟨_, by rw [TableReader.openFile, hopen₂]; rfl, fun limit => ?_, fun key => ?_⟩
    · rw [hopened₂.readRecords_eq, hopened.readRecords_eq, ← heq, ← heq₂]
    · refine hopened₂.get_agrees hopened (heq₂.symm.trans heq) ?_ key
      rw [hoptions, hoptions₂, hkey]

/-- Small records, and blocks that take many of them. -/
def wideBlocks : Options :=
  { maxKeySize := 16, maxValueSize := 16, sstableBlockSize := 1000 }

/-- The same limits, and blocks as short as they may be. -/
def narrowBlocks : Options := { wideBlocks with sstableBlockSize := 52 }

/-- The table of both records. -/
def twoRecordsTable : Bytes :=
  (encodeTable byteShape wideBlocks.toFormatOptions 1 twoRecords.records).toOption.getD []

theorem encodeTable_twoRecords : encodeTable byteShape wideBlocks.toFormatOptions 1
    twoRecords.records = .ok twoRecordsTable := by
  decide +kernel

/-- Longer blocks, and lookups that do not consult the filter. -/
def longBlocks : Options := { wideBlocks with sstableBlockSize := 4096, bloomFilterEnabled := false }

theorem openFile_tuned_longBlocks :
    ∃ t₁ t₂, TableReader.openFile wideBlocks.toFormatOptions twoRecordsTable = .ok t₁ ∧
      TableReader.openFile longBlocks.toFormatOptions twoRecordsTable = .ok t₂ ∧
      t₂.readRecords 2 = t₁.readRecords 2 := by
  have hkey : wideBlocks.maxKeySize = longBlocks.maxKeySize := rfl
  have hvalue : wideBlocks.maxValueSize = longBlocks.maxValueSize := rfl
  have hvalid : (validateTableOptions longBlocks.toFormatOptions).isOk = true := by decide +kernel
  obtain ⟨t₁, ht₁, hiff, hshorter⟩ := openFile_tuned_iff hkey hvalue hvalid encodeTable_twoRecords
  obtain ⟨t₂, ht₂, hread, -⟩ := hiff.mpr (hshorter (by decide))
  exact ⟨t₁, t₂, ht₁, ht₂, hread 2⟩

/-- Both records are in one block of 88 bytes; under the other options a block has 84 bytes
at most, and the intact file is called corrupt. -/
theorem openFile_narrowBlocks : wideBlocks.accepted = true ∧ narrowBlocks.accepted = true ∧
    encodeTable byteShape wideBlocks.toFormatOptions 1 twoRecords.records = .ok twoRecordsTable ∧
    TableReader.openFile narrowBlocks.toFormatOptions twoRecordsTable =
      .error (tableCorruption "sparse index entry is out of bounds") := by
  refine ⟨by decide +kernel, by decide +kernel, encodeTable_twoRecords, ?_⟩
  have hcheck : (match TableReader.openFile narrowBlocks.toFormatOptions twoRecordsTable with
      | .error e => decide (e = tableCorruption "sparse index entry is out of bounds")
      | .ok _ => false) = true := by
    decide +kernel
  split at hcheck
  · rename_i e he
    rw [he, of_decide_eq_true hcheck]
  · cases hcheck

end MiniKV
