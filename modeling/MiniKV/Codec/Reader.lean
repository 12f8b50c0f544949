import MiniKV.Codec.RoundTrip
import MiniKV.Lib.Search

/-!
# Reading an open table

`SSTableReader` keeps the metadata, the sparse index and the filter of a table
and reads single blocks on demand. A point lookup trusts all of them; that it
may, for every file that `Open` accepts, is `TableReader.Opened`.
-/

namespace MiniKV

open Lib

structure SSTableReadStats where
  tablesConsidered : Nat := 0
  rangeRejections : Nat := 0
  bloomFilterChecks : Nat := 0
  bloomFilterRejections : Nat := 0
  bloomFalsePositives : Nat := 0
  dataBlocksRead : Nat := 0
  bytesRead : Nat := 0
  deriving DecidableEq, Repr

/-- The counters after one more block has been read. -/
def SSTableReadStats.countBlock (stats : SSTableReadStats) (e : IndexEntry) : SSTableReadStats :=
  { stats with
    dataBlocksRead := stats.dataBlocksRead + 1
    bytesRead := stats.bytesRead + e.blockSize }

namespace TableReader

/-- `SSTableReader::Open` on a file with the given contents. -/
def openFile (o : FormatOptions) (content : Bytes) : Except Status TableReader :=
  (openContent o content).map Prod.fst

/-- `SSTableReader::ReadBlock` -/
def readBlock (t : TableReader) (index : Nat) (stats : SSTableReadStats) :
    Except Status (List Record) × SSTableReadStats :=
  match t.index[index]? with
  | none => (.error (.invalidArgument "SSTable block read arguments are invalid"), stats)
  | some e => (MiniKV.readBlock t.options t.content e, stats.countBlock e)

/-- The search of `Get` in the block that may hold the key. -/
def getInBlock (t : TableReader) (block : Nat) (key : Bytes) (bloomChecked : Bool)
    (stats : SSTableReadStats) : LookupResult × SSTableReadStats :=
  match t.readBlock block stats with
  | (.error status, stats) => ({ status := status }, stats)
  | (.ok records, stats) =>
    let missing : LookupResult × SSTableReadStats :=
      ({ status := .notFound "key does not exist in candidate block" },
        { stats with
          bloomFalsePositives := stats.bloomFalsePositives + if bloomChecked then 1 else 0 })
    match records[lowerBound (fun r : Record => r.key < key) records]? with
    | none => missing
    | some r =>
      if r.key ≠ key then missing
      else ({ status := .ok, sequence := r.sequence, type := r.type, value := r.value }, stats)

/-- `SSTableReader::Get` -/
def get (t : TableReader) (key : Bytes) : LookupResult × SSTableReadStats :=
  let stats : SSTableReadStats := { tablesConsidered := 1 }
  if key.isEmpty then ({ status := .invalidArgument "key must not be empty" }, stats)
  else if t.options.maxKeySize < key.length then
    ({ status := .invalidArgument "key exceeds configured maximum size" }, stats)
  else if key < t.metadata.minimumKey ∨ t.metadata.maximumKey < key then
    ({ status := .notFound "key is outside table range" }, { stats with rangeRejections := 1 })
  else
    let bloomChecked := t.options.bloomFilterEnabled && t.bloomFilter.isSome
    let stats := { stats with bloomFilterChecks := if bloomChecked then 1 else 0 }
    if bloomChecked ∧ !t.bloomFilter.all (fun f => f.mayContain key) then
      ({ status := .notFound "Bloom filter excludes key" }, { stats with bloomFilterRejections := 1 })
    else
      let upper := upperBound (fun e : IndexEntry => key < e.firstKey) t.index
      if upper = 0 then ({ status := .notFound "key precedes sparse index" }, stats)
      else t.getInBlock (upper - 1) key bloomChecked stats

/-- The loop of `ReadRecords` over the blocks. -/
def readRecordsFrom (t : TableReader) (limit : Nat) :
    List Nat → List Record → Except Status (List Record)
  | [], records => .ok records
  | block :: blocks, records =>
    match (t.readBlock block {}).1 with
    | .error status => .error status
    | .ok more =>
      if limit ≤ (records ++ more).length then .ok ((records ++ more).take limit)
      else readRecordsFrom t limit blocks (records ++ more)

/-- `SSTableReader::ReadRecords` -/
def readRecords (t : TableReader) (limit : Nat) : Except Status (List Record) :=
  if limit = 0 then .ok [] else t.readRecordsFrom limit (List.range t.index.length) []

/-- What `Open` has established about a reader and the blocks of its file. -/
structure Opened (t : TableReader) (gs : List (List Record)) : Prop where
  blocks : List.Forall₂ (BlockAt t.options t.content) t.index gs
  contiguous : Contiguous t.metadata.dataOffset t.index
    (t.metadata.dataOffset + t.metadata.dataSize)
  within : ∀ e ∈ t.index, e.Within t.metadata.dataOffset t.metadata.dataSize
  keys : t.index.Pairwise (fun a b => a.firstKey < b.firstKey)
  ascending : Ascending gs.flatten
  encodes : ∀ r ∈ gs.flatten, r.Encodes t.options
  covers : FilterCovers t.bloomFilter gs.flatten
  ne_nil : gs.flatten ≠ []
  summary : t.metadata.toTableMetadata =
    tableSummary t.metadata.generation t.content.length gs.flatten
  dataOffset_eq : t.metadata.dataOffset = kTableHeaderSize
  indexOffset_eq : t.metadata.indexOffset = t.metadata.dataOffset + t.metadata.dataSize
  bloomOffset_eq : t.metadata.bloomOffset = t.metadata.indexOffset + t.metadata.indexSize
  fileSize_eq : t.metadata.bloomOffset + t.metadata.bloomSize + kTableFooterSize = t.content.length
  blockCount_eq : t.metadata.blockCount = t.index.length

end TableReader

/-- The footer of a file, the last thing in it. -/
def footerBytes (content : Bytes) : Bytes := content.drop (content.length - kTableFooterSize)

/-- The footer that `Open` reads. -/
def footerIn (content : Bytes) : TableFooter :=
  decodeFooter (content.drop (content.length - kTableFooterSize))

/-- The index that `Open` reads. -/
def indexIn (content : Bytes) : Bytes :=
  (content.drop (footerIn content).indexOffset).take (footerIn content).indexSize

/-- The checks of `Open` in front of `index_.reserve`. -/
def openChecks (o : FormatOptions) (content : Bytes) : Bool :=
  let header := content.take kTableHeaderSize
  let footer := content.drop (content.length - kTableFooterSize)
  let f := footerIn content
  (validateTableOptions o).isOk ∧
  kTableHeaderSize + kTableIndexHeaderSize + kTableFooterSize ≤ content.length ∧
  (header.take 4 = kTableMagic ∧ header.getD 4 0 = kTableFormatVersion) ∧
  headerAccepted header ∧
  (footer.take 4 = kFooterMagic ∧ footer.getD 4 0 = kTableFormatVersion) ∧
  footerAccepted header footer content.length ∧
  regionsAccepted f content.length ∧
  (f.blockCount ≤ (maxUInt64 - kTableIndexHeaderSize) / (kIndexEntryFixedSize + o.maxKeySize) ∧
    f.indexSize ≤ kTableIndexHeaderSize + f.blockCount * (kIndexEntryFixedSize + o.maxKeySize)) ∧
  (indexIn content).take 4 = kIndexMagic ∧
  indexAccepted f (indexIn content)

/-- Behind its checks `Open` goes on to the regions. -/
theorem contentDecoder_of_checks {o : FormatOptions} {content : Bytes}
    (h : openChecks o content = true) :
    contentDecoder o content = regionsDecoder o content (footerIn content) (indexIn content) := by
  obtain ⟨h1, h2, h3, h4, h5, h6, h7, h8, h9, h10⟩ := of_decide_eq_true h
  unfold footerIn at h7 h8
  unfold indexIn footerIn at h9 h10
  unfold contentDecoder footerIn indexIn footerIn
  dsimp only
  rw [if_neg (by rw [h1]; simp), if_neg (not_lt.mpr h2), if_neg (by rw [h3.1, h3.2]; simp),
    if_neg (by rw [h4]; simp), if_neg (by rw [h5.1, h5.2]; simp), if_neg (by rw [h6]; simp),
    if_neg (by rw [h7]; simp), if_neg (by rw [not_or, not_lt, not_lt]; exact h8),
    if_neg (by rw [h9]; simp), if_neg (by rw [h10]; simp)]

/-- What `Open` asks for, it asks for behind its checks. -/
theorem contentDecoder_asks {o : FormatOptions} {content : Bytes} {P : Reservation → Prop}
    (h : openChecks o content = true → Lib.Report.Asks P
      (regionsDecoder o content (footerIn content) (indexIn content))) :
    Lib.Report.Asks P (contentDecoder o content) := by
  refine Lib.Report.Asks.ite (fun _ => .fail _) (fun h1 => .ite (fun _ => .fail _) (fun h2 =>
    .ite (fun _ => .fail _) (fun h3 => .ite (fun _ => .fail _) (fun h4 => .ite (fun _ => .fail _)
    (fun h5 => .ite (fun _ => .fail _) (fun h6 => .ite (fun _ => .fail _) (fun h7 =>
    .ite (fun _ => .fail _) (fun h8 => .ite (fun _ => .fail _) (fun h9 => .ite (fun _ => .fail _)
    (fun h10 => h ?_))))))))))
  simp only [Bool.not_eq_true', Bool.not_eq_false] at h1 h4 h6 h7 h10
  simp only [not_or, not_not, not_lt] at h2 h3 h5 h8 h9
  exact decide_eq_true ⟨h1, h2, h3, h4, h5, h6, h7, h8, h9, h10⟩

theorem openContent_of_checks {o : FormatOptions} {content : Bytes}
    (h : openChecks o content = true) :
    openContent o content = openRegions o content (footerIn content) (indexIn content) :=
  congrArg Lib.Report.result (contentDecoder_of_checks h)

/-- A file that is accepted has passed the checks. -/
theorem openChecks_of_ok {o : FormatOptions} {content : Bytes} {p : TableReader × List Record}
    (h : openContent o content = .ok p) : openChecks o content = true := by
  rw [openContent_eq] at h
  dsimp only at h
  obtain ⟨h1, h⟩ := ite_error_eq_ok.mp h
  obtain ⟨h2, h⟩ := ite_error_eq_ok.mp h
  obtain ⟨h3, h⟩ := ite_error_eq_ok.mp h
  obtain ⟨h4, h⟩ := ite_error_eq_ok.mp h
  obtain ⟨h5, h⟩ := ite_error_eq_ok.mp h
  obtain ⟨h6, h⟩ := ite_error_eq_ok.mp h
  obtain ⟨h7, h⟩ := ite_error_eq_ok.mp h
  obtain ⟨h8, h⟩ := ite_error_eq_ok.mp h
  obtain ⟨h9, h⟩ := ite_error_eq_ok.mp h
  obtain ⟨h10, h⟩ := ite_error_eq_ok.mp h
  simp only [Bool.not_eq_true', Bool.not_eq_false] at h1 h4 h6 h7 h10
  simp only [not_or, not_not, not_lt] at h2 h3 h5 h8 h9
  exact decide_eq_true ⟨h1, h2, h3, h4, h5, h6, h7, h8, h9, h10⟩

/-- The checks of `Open` on the regions of a file. -/
structure RegionsChecked (content : Bytes) (f : TableFooter) (index : Bytes) : Prop where
  header : headerAccepted (content.take kTableHeaderSize) = true
  footer : footerAccepted (content.take kTableHeaderSize) (footerBytes content) content.length =
    true
  regions : regionsAccepted f content.length = true
  index : indexAccepted f index = true

theorem openContent_checked {o : FormatOptions} {content : Bytes} {p : TableReader × List Record}
    (h : openContent o content = .ok p) : ∃ f index, f = decodeFooter (footerBytes content) ∧
      index = (content.drop f.indexOffset).take f.indexSize ∧ RegionsChecked content f index ∧
      openRegions o content f index = .ok p := by
  have hc := openChecks_of_ok h
  rw [openContent_of_checks hc] at h
  obtain ⟨-, -, -, hheader, -, hfooter, hregions, -, -, hindex⟩ := of_decide_eq_true hc
  exact ⟨_, _, rfl, rfl, ⟨hheader, hfooter, hregions, hindex⟩, h⟩

/-- What `Open` finds in the regions. -/
theorem openRegions_ok {o : FormatOptions} {content index : Bytes} {f : TableFooter}
    {t : TableReader} {rs : List Record} (h : openRegions o content f index = .ok (t, rs)) :
    ∃ filter entries, openBloom f content = .ok filter ∧
      decodeIndexEntries o f.dataOffset f.dataSize f.blockCount none f.dataOffset
        (index.drop kTableIndexHeaderSize) = .ok (entries, [], f.indexOffset) ∧
      verifyBlocks o content filter none entries = .ok rs ∧
      rs.length = f.recordCount ∧ minimumSequence rs = f.minimumSequence ∧
      maximumSequence rs = f.maximumSequence ∧
      t = { options := o, content := content, index := entries, bloomFilter := filter,
            metadata := readerMetadata f content.length filter rs } := by
  rw [openRegions_eq] at h
  split at h
  · cases h
  rename_i filter hfilter
  split at h
  · cases h
  rename_i entries rest offset hentries
  obtain ⟨hrest, h⟩ := ite_error_eq_ok.mp h
  split at h
  · cases h
  rename_i records hverify
  split at h
  · cases h
  rename_i hsummary
  obtain ⟨rfl, rfl⟩ := Prod.mk.inj (Except.ok.inj h)
  simp only [not_or, not_not] at hsummary hrest
  have hnil : rest = [] := by simpa using hrest.1
  rw [hnil, hrest.2] at hentries
  exact ⟨filter, entries, hfilter, hentries, hverify, hsummary.1, hsummary.2.1, hsummary.2.2, rfl⟩

/-- Whatever `Open` accepts is a coherent table. -/
theorem openContent_ok {o : FormatOptions} {content : Bytes} {t : TableReader} {rs : List Record}
    (h : openContent o content = .ok (t, rs)) :
    ∃ gs, rs = gs.flatten ∧ t.options = o ∧ t.content = content ∧ t.Opened gs := by
  obtain ⟨f, index, hf, -, hchecked, hopen⟩ := openContent_checked h
  have hheader := hchecked.header
  have hfooter := hchecked.footer
  have hregions := hchecked.regions
  have hrecords : f.recordCount ≠ 0 := by
    simp only [footerAccepted, headerAccepted, decide_eq_true_eq] at hfooter hheader
    rw [hf, hfooter.2.2.2.1]
    exact hheader.2.2.1
  obtain ⟨filter, entries, -, hentries, hverify, hcount, hmin, hmax, rfl⟩ := openRegions_ok hopen
  simp only [regionsAccepted, decide_eq_true_eq] at hregions
  obtain ⟨hdata, -, -, -, -, -, hindexOffset, hbloomOffset, hfileSize⟩ := hregions
  obtain ⟨hlen, hcont, hwithin, hkeys, -⟩ := decodeIndexEntries_ok hentries
  obtain ⟨gs, rfl, hblocks, hasc, henc, hcovers, -⟩ := verifyBlocks_ok hverify
  rw [hindexOffset] at hcont
  have hne : gs.flatten ≠ [] := by
    intro hnil
    rw [hnil] at hcount
    exact hrecords hcount.symm
  refine ⟨gs, rfl, rfl, rfl, ⟨hblocks, hcont, hwithin, hkeys, hasc, henc, hcovers, hne, ?_, hdata,
    hindexOffset, hbloomOffset, hfileSize, hlen.symm⟩⟩
  simp only [readerMetadata, tableSummary, ← hcount, ← hmin, ← hmax]

/-! ## Refusals -/

theorem readBlockRecords_error {o : FormatOptions} {n number : Nat} {previous : Option Bytes}
    {b : Bytes} {e : Status} (h : readBlockRecords o number n previous b = .error e) :
    e.code = .corruption := by
  induction n generalizing number previous b with
  | zero =>
    rw [readBlockRecords] at h
    split at h
    · cases h
    · rw [← Except.error.inj h]
      rfl
  | succ n ih =>
    rw [readBlockRecords] at h
    split at h
    · rw [← Except.error.inj h]
      rfl
    refine of_ite_error h rfl (fun _ h => ?_)
    split at h
    · rename_i hrest
      obtain rfl := Except.error.inj h
      exact ih hrest
    · cases h

theorem readBlock_error {o : FormatOptions} {content : Bytes} {entry : IndexEntry} {e : Status}
    (h : MiniKV.readBlock o content entry = .error e) : e.code = .corruption := by
  rw [readBlock_eq] at h
  dsimp only at h
  refine of_ite_error h rfl (fun _ h => ?_)
  refine of_ite_error h rfl (fun _ h => ?_)
  refine of_ite_error h rfl (fun _ h => ?_)
  exact readBlockRecords_error h

theorem decodeIndexEntries_error {o : FormatOptions} {dataOffset dataSize n expected : Nat}
    {previous : Option Bytes} {b : Bytes} {e : Status}
    (h : decodeIndexEntries o dataOffset dataSize n previous expected b = .error e) :
    e.code = .corruption := by
  induction n generalizing expected previous b with
  | zero => cases h
  | succ n ih =>
    rw [decodeIndexEntries] at h
    refine of_ite_error h rfl (fun _ h => ?_)
    dsimp only at h
    refine of_ite_error h rfl (fun _ h => ?_)
    refine of_ite_error h rfl (fun _ h => ?_)
    split at h
    · rename_i hrest
      obtain rfl := Except.error.inj h
      exact ih hrest
    · cases h

theorem verifyBlocks_error {o : FormatOptions} {content : Bytes} {filter : Option BloomFilter}
    {previous : Option Bytes} {entries : List IndexEntry} {e : Status}
    (h : verifyBlocks o content filter previous entries = .error e) : e.code = .corruption := by
  induction entries generalizing previous with
  | nil => cases h
  | cons entry entries ih =>
    rw [verifyBlocks_cons] at h
    split at h
    · rename_i hread
      obtain rfl := Except.error.inj h
      exact readBlock_error hread
    refine of_ite_error h rfl (fun _ h => ?_)
    refine of_ite_error h rfl (fun _ h => ?_)
    split at h
    · rename_i hrest
      obtain rfl := Except.error.inj h
      exact ih hrest
    · cases h

theorem openBloom_error {f : TableFooter} {content : Bytes} {e : Status}
    (h : openBloom f content = .error e) : e.code = .corruption := by
  unfold openBloom at h
  split at h
  · cases h
  split at h
  · rw [← Except.error.inj h]
    rfl
  refine of_ite_error h rfl (fun _ h => ?_)
  · cases h

theorem openRegions_error {o : FormatOptions} {content index : Bytes} {f : TableFooter}
    {e : Status} (h : openRegions o content f index = .error e) : e.code = .corruption := by
  rw [openRegions_eq] at h
  split at h
  · rename_i hbloom
    obtain rfl := Except.error.inj h
    exact openBloom_error hbloom
  split at h
  · rename_i hentries
    obtain rfl := Except.error.inj h
    exact decodeIndexEntries_error hentries
  refine of_ite_error h rfl (fun _ h => ?_)
  split at h
  · rename_i hverify
    obtain rfl := Except.error.inj h
    exact verifyBlocks_error hverify
  refine of_ite_error h rfl (fun _ h => ?_)
  · cases h

/-- With valid options, whatever `Open` refuses it calls corrupt. -/
theorem openContent_error {o : FormatOptions} {content : Bytes} {e : Status}
    (ho : (validateTableOptions o).isOk = true) (h : openContent o content = .error e) :
    e.code = .corruption := by
  rw [openContent_eq] at h
  dsimp only at h
  rw [if_neg (by rw [ho]; simp)] at h
  refine of_ite_error h rfl (fun _ h => ?_)
  refine of_ite_error h rfl (fun _ h => ?_)
  refine of_ite_error h rfl (fun _ h => ?_)
  refine of_ite_error h rfl (fun _ h => ?_)
  refine of_ite_error h rfl (fun _ h => ?_)
  refine of_ite_error h rfl (fun _ h => ?_)
  refine of_ite_error h rfl (fun _ h => ?_)
  refine of_ite_error h rfl (fun _ h => ?_)
  refine of_ite_error h rfl (fun _ h => ?_)
  exact openRegions_error h

/-! ## Point lookups -/

theorem forall₂_split {α β : Type} {R : α → β → Prop} {xs : List α} {y : α} {ys : List α}
    {gs : List β} (h : List.Forall₂ R (xs ++ y :: ys) gs) :
    ∃ fs g hs, gs = fs ++ g :: hs ∧ List.Forall₂ R xs fs ∧ R y g ∧ List.Forall₂ R ys hs := by
  induction xs generalizing gs with
  | nil =>
    cases h with
    | cons hy hys => exact ⟨[], _, _, rfl, List.Forall₂.nil, hy, hys⟩
  | cons x xs ih =>
    cases h with
    | cons hx hrest =>
      obtain ⟨fs, g, hs, rfl, h1, h2, h3⟩ := ih hrest
      exact ⟨_ :: fs, g, hs, rfl, List.Forall₂.cons hx h1, h2, h3⟩

theorem forall₂_right {α β : Type} {R : α → β → Prop} {xs : List α} {gs : List β}
    (h : List.Forall₂ R xs gs) {g : β} (hg : g ∈ gs) : ∃ x ∈ xs, R x g := by
  induction h with
  | nil => cases hg
  | cons hx _ ih =>
    rcases List.mem_cons.mp hg with rfl | hg
    · exact ⟨_, List.mem_cons_self, hx⟩
    · obtain ⟨x, hm, hr⟩ := ih hg
      exact ⟨x, List.mem_cons_of_mem _ hm, hr⟩

/-- The search in a block finds the record of a key, if there is one. -/
theorem getElem?_lowerBound {g : List Record} (hasc : Ascending g) (key : Bytes) :
    (g[lowerBound (fun r : Record => r.key < key) g]?).filter (fun r => r.key = key) =
      findKey g key := by
  have hp : g.Pairwise (fun a b => decide (b.key < key) = true → decide (a.key < key) = true) :=
    hasc.imp (fun hab hb => decide_eq_true (hab.trans (of_decide_eq_true hb)))
  obtain ⟨ys, zs, rfl, hy, hz⟩ := exists_partition hp
  have hlower : lowerBound (fun r : Record => r.key < key) (ys ++ zs) = ys.length :=
    partitionPoint_append hy hz
  have hfront : findKey ys key = none :=
    findKey_eq_none.mpr (fun r hr => (of_decide_eq_true (hy r hr)).ne)
  rw [hlower, List.getElem?_append_right (le_refl _), Nat.sub_self, findKey_append, hfront,
    Option.none_or]
  cases zs with
  | nil => rfl
  | cons z zs =>
    have hle : key ≤ z.key := not_lt.mp (of_decide_eq_false (hz z List.mem_cons_self))
    have hrest : ∀ r ∈ zs, z.key < r.key := fun r hr =>
      List.rel_of_pairwise_cons (List.pairwise_append.mp hasc).2.1 hr
    rw [findKey_cons, List.getElem?_cons_zero]
    by_cases hk : z.key = key
    · simp [hk]
    · have hnone : findKey zs key = none :=
        findKey_eq_none.mpr (fun r hr => (lt_of_le_of_lt hle (hrest r hr)).ne')
      simp [hk, hnone]

/-- What a lookup reports of the record of a key. -/
def LookupResult.Reports (result : LookupResult) : Option Record → Prop
  | some r => result = { status := .ok, sequence := r.sequence, type := r.type, value := r.value }
  | none => ∃ message, result = { status := .notFound message }

namespace TableReader

theorem readBlock_at {t : TableReader} {block : Nat} {e : IndexEntry} {g : List Record}
    (he : t.index[block]? = some e) (hg : BlockAt t.options t.content e g)
    (stats : SSTableReadStats) : t.readBlock block stats = (.ok g, stats.countBlock e) := by
  rw [readBlock, he]
  exact congrArg (·, stats.countBlock e) hg.read

/-- The search in one block reports the record of a key in it, and reads that block only. -/
theorem getInBlock_reports {t : TableReader} {block : Nat} {e : IndexEntry} {g : List Record}
    (he : t.index[block]? = some e) (hg : BlockAt t.options t.content e g) (hasc : Ascending g)
    (key : Bytes) (bloomChecked : Bool) (stats : SSTableReadStats) :
    (t.getInBlock block key bloomChecked stats).1.Reports (findKey g key) ∧
      (t.getInBlock block key bloomChecked stats).2.dataBlocksRead = stats.dataBlocksRead + 1 := by
  have hfind := getElem?_lowerBound hasc key
  unfold getInBlock
  rw [readBlock_at he hg]
  dsimp only
  cases hr : g[lowerBound (fun r : Record => r.key < key) g]? with
  | none =>
    rw [hr] at hfind
    rw [← hfind]
    exact ⟨⟨_, rfl⟩, rfl⟩
  | some r =>
    rw [hr] at hfind
    dsimp only
    by_cases hk : r.key = key
    · have hfound : findKey g key = some r := by rw [← hfind]; simp [hk]
      rw [if_neg (not_not.mpr hk), hfound]
      exact ⟨rfl, rfl⟩
    · have hmissing : findKey g key = none := by rw [← hfind]; simp [hk]
      rw [if_pos hk, hmissing]
      exact ⟨⟨_, rfl⟩, rfl⟩

/-- The blocks of a reader, by their number. -/
theorem Opened.readBlock_eq {t : TableReader} {gs : List (List Record)} (h : t.Opened gs)
    {i : Nat} {g : List Record} (hg : gs[i]? = some g) :
    ∃ e, t.index[i]? = some e ∧ BlockAt t.options t.content e g := by
  have hlen := h.blocks.length_eq
  obtain ⟨hi, hget⟩ := List.getElem?_eq_some_iff.mp hg
  have hi' : i < t.index.length := by omega
  refine ⟨t.index[i], List.getElem?_eq_getElem hi', ?_⟩
  rw [← hget]
  exact h.blocks.get hi' hi

/-- The records before a block, in it and behind it. -/
theorem flatten_eq_of_getElem? {gs : List (List Record)} {i : Nat} {g : List Record}
    (h : gs[i]? = some g) :
    gs.flatten = (gs.take i).flatten ++ (g ++ (gs.drop (i + 1)).flatten) := by
  obtain ⟨hlt, hget⟩ := List.getElem?_eq_some_iff.mp h
  rw [← hget, ← List.flatten_cons, ← List.drop_eq_getElem_cons hlt, ← List.flatten_append,
    List.take_append_drop]

/-- The search of the sparse index ends at a block with everything smaller than the key
in front of it, or in it. -/
theorem Opened.seek {t : TableReader} {gs : List (List Record)} (h : t.Opened gs)
    (key : Bytes) :
    ∃ g, gs[upperBound (fun e : IndexEntry => key < e.firstKey) t.index - 1]? = some g ∧
      (∀ r ∈ (gs.take (upperBound (fun e : IndexEntry => key < e.firstKey) t.index - 1)).flatten,
        r.key < key) ∧
      (∀ r ∈ (gs.drop (upperBound (fun e : IndexEntry => key < e.firstKey) t.index - 1 + 1)).flatten,
        key < r.key) ∧
      (upperBound (fun e : IndexEntry => key < e.firstKey) t.index = 0 → ∀ r ∈ g, key < r.key) := by
  have hp : t.index.Pairwise (fun a b => (!decide (key < b.firstKey)) = true →
      (!decide (key < a.firstKey)) = true) := by
    refine h.keys.imp (fun hab hb => ?_)
    simp only [Bool.not_eq_true', decide_eq_false_iff_not, not_lt] at hb ⊢
    exact hab.le.trans hb
  obtain ⟨ys, zs, hsplit, hy, hz⟩ := exists_partition hp
  have hupper : upperBound (fun e : IndexEntry => key < e.firstKey) t.index = ys.length := by
    rw [hsplit]
    exact partitionPoint_append hy hz
  have hblocks := h.blocks
  have hasc := h.ascending
  -- blocks behind the boundary start above the key
  have habove : ∀ {es : List IndexEntry} {hs : List (List Record)}, (∀ e ∈ es, e ∈ zs) →
      List.Forall₂ (BlockAt t.options t.content) es hs → ∀ r ∈ hs.flatten, key < r.key := by
    intro es hs hsub hlater r hr
    obtain ⟨g', hg', hr⟩ := List.mem_flatten.mp hr
    obtain ⟨e', he', hblock⟩ := forall₂_right hlater hg'
    obtain ⟨-, -, -, hascg'⟩ := readBlock_ok hblock.read
    have hlt := hz e' (hsub e' he')
    simp only [Bool.not_eq_false', decide_eq_true_eq] at hlt
    have hle := firstKey_le hascg' hr
    rw [hblock.firstKey_eq] at hle
    exact lt_of_lt_of_le hlt hle
  rw [hupper]
  rcases List.eq_nil_or_concat ys with rfl | ⟨ys', e, rfl⟩
  · rw [List.nil_append] at hsplit
    cases hgs : gs with
    | nil => exact absurd (by rw [hgs]; rfl) h.ne_nil
    | cons g gs' =>
      rw [hgs] at hblocks
      cases hi : t.index with
      | nil =>
        rw [hi] at hblocks
        cases hblocks
      | cons e es =>
        rw [hi] at hblocks hsplit
        cases hblocks with
        | cons hg hlater =>
          have hall := habove (fun x hx => hsplit ▸ hx) (List.Forall₂.cons hg hlater)
          rw [List.flatten_cons] at hall
          exact ⟨g, rfl, by simp, fun r hr => hall r (List.mem_append_right _ hr),
            fun _ r hr => hall r (List.mem_append_left _ hr)⟩
  · rw [List.concat_eq_append] at hsplit hy ⊢
    rw [hsplit, List.append_assoc] at hblocks
    obtain ⟨fs, g, hs, rfl, hfront, hg, hlater⟩ := forall₂_split hblocks
    have hlen : fs.length = (ys' ++ [e]).length - 1 := by
      rw [← hfront.length_eq, List.length_append, List.length_singleton, Nat.add_sub_cancel]
    rw [← hlen]
    refine ⟨g, ?_, ?_, ?_, fun h0 => absurd h0 (by simp)⟩
    · rw [List.getElem?_append_right (le_refl _), Nat.sub_self]
      rfl
    · rw [List.take_left]
      intro r hr
      rw [List.flatten_append, List.flatten_cons] at hasc
      obtain ⟨x, hx, hxkey⟩ := firstKey_mem hg.ne_nil
      have hlt := (List.pairwise_append.mp hasc).2.2 r hr x (List.mem_append_left _ hx)
      rw [hxkey, hg.firstKey_eq] at hlt
      have hele : e.firstKey ≤ key := by
        have := hy e (by simp)
        simpa using this
      exact lt_of_lt_of_le hlt hele
    · rw [← List.drop_drop, List.drop_left]
      exact habove (fun x hx => hx) hlater

/-- The entry that the search of the sparse index ends at leads to the only block that may
hold the key. -/
theorem Opened.candidate {t : TableReader} {gs : List (List Record)} (h : t.Opened gs)
    {key : Bytes} (hlow : t.metadata.minimumKey ≤ key) :
    ∃ e g, upperBound (fun e : IndexEntry => key < e.firstKey) t.index ≠ 0 ∧
      t.index[upperBound (fun e : IndexEntry => key < e.firstKey) t.index - 1]? = some e ∧
      BlockAt t.options t.content e g ∧ Ascending g ∧ findKey gs.flatten key = findKey g key := by
  obtain ⟨g, hg, hbefore, hafter, hzero⟩ := h.seek key
  obtain ⟨e, he, hblock⟩ := h.readBlock_eq hg
  obtain ⟨-, -, -, hascg⟩ := readBlock_ok hblock.read
  have hsplit := flatten_eq_of_getElem? hg
  refine ⟨e, g, fun h0 => ?_, he, hblock, hascg, ?_⟩
  · -- the block would be the first one, and its first key the smallest
    obtain ⟨x, hx, hxkey⟩ := firstKey_mem h.ne_nil
    have hmin : t.metadata.minimumKey = firstKey gs.flatten :=
      congrArg TableMetadata.minimumKey h.summary
    rw [hmin, ← hxkey] at hlow
    rw [hsplit, h0] at hx
    rcases List.mem_append.mp hx with hx | hx
    · simp at hx
    · rcases List.mem_append.mp hx with hx | hx
      · exact absurd hlow (not_le.mpr (hzero h0 x hx))
      · rw [h0] at hafter
        exact absurd hlow (not_le.mpr (hafter x hx))
  · have hfront : findKey (gs.take (upperBound (fun e : IndexEntry => key < e.firstKey)
        t.index - 1)).flatten key = none :=
      findKey_eq_none.mpr (fun r hr => (hbefore r hr).ne)
    have hback : findKey (gs.drop (upperBound (fun e : IndexEntry => key < e.firstKey)
        t.index - 1 + 1)).flatten key = none :=
      findKey_eq_none.mpr (fun r hr => (hafter r hr).ne')
    rw [hsplit, findKey_append, findKey_append, hfront, hback, Option.none_or, Option.or_none]

/-- `Get` reports the record of a key, and reads one block at most. -/
theorem Opened.get_reports {t : TableReader} {gs : List (List Record)} (h : t.Opened gs)
    {key : Bytes} (hne : key ≠ []) (hlen : key.length ≤ t.options.maxKeySize) :
    (t.get key).1.Reports (findKey gs.flatten key) ∧ (t.get key).2.dataBlocksRead ≤ 1 := by
  have hmin : t.metadata.minimumKey = firstKey gs.flatten :=
    congrArg TableMetadata.minimumKey h.summary
  have hmax : t.metadata.maximumKey = lastKey gs.flatten :=
    congrArg TableMetadata.maximumKey h.summary
  unfold get
  dsimp only
  rw [if_neg (by simpa using hne), if_neg (not_lt.mpr hlen)]
  split
  · rename_i hrange
    have hnone : findKey gs.flatten key = none := by
      refine findKey_eq_none.mpr (fun r hr hk => ?_)
      have h1 := firstKey_le h.ascending hr
      have h2 := le_lastKey h.ascending hr
      rw [← hmin, hk] at h1
      rw [← hmax, hk] at h2
      rcases hrange with hlt | hlt
      · exact absurd h1 (not_le.mpr hlt)
      · exact absurd h2 (not_le.mpr hlt)
    rw [hnone]
    exact ⟨⟨_, rfl⟩, by simp⟩
  rename_i hrange
  rw [not_or, not_lt, not_lt] at hrange
  split
  · rename_i hbloom
    have hnone : findKey gs.flatten key = none := by
      refine findKey_eq_none.mpr (fun r hr hk => ?_)
      have hall : t.bloomFilter.all (fun f => f.mayContain key) = true := by
        rw [Option.all_eq_true]
        intro f hf
        rw [← hk]
        exact h.covers f hf r hr
      rw [hall] at hbloom
      simp at hbloom
    rw [hnone]
    exact ⟨⟨_, rfl⟩, by simp⟩
  · obtain ⟨e, g, hupper, he, hg, hasc, hfind⟩ := h.candidate hrange.1
    rw [if_neg hupper, hfind]
    obtain ⟨hreports, hreads⟩ := getInBlock_reports he hg hasc key
      (t.options.bloomFilterEnabled && t.bloomFilter.isSome)
      { tablesConsidered := 1
        bloomFilterChecks := if t.options.bloomFilterEnabled && t.bloomFilter.isSome then 1 else 0 }
    exact ⟨hreports, hreads.le⟩

/-! ## All records -/

theorem readRecordsFrom_eq {t : TableReader} {gs : List (List Record)} (h : t.Opened gs)
    {limit n : Nat} {records : List Record} (hr : records.length < limit) (hn : n ≤ gs.length) :
    t.readRecordsFrom limit (List.range' n (gs.length - n)) records =
      .ok ((records ++ (gs.drop n).flatten).take limit) := by
  induction hk : gs.length - n generalizing n records with
  | zero =>
    have hnil : gs.drop n = [] := List.drop_eq_nil_of_le (by omega)
    rw [hnil, List.range'_zero, readRecordsFrom, List.flatten_nil, List.append_nil,
      List.take_of_length_le hr.le]
  | succ k ih =>
    have hlt : n < gs.length := by omega
    obtain ⟨e, he, hblock⟩ := h.readBlock_eq (List.getElem?_eq_getElem hlt)
    rw [List.range'_succ, readRecordsFrom, readBlock_at he hblock]
    dsimp only
    rw [List.drop_eq_getElem_cons hlt, List.flatten_cons, ← List.append_assoc]
    split
    · rename_i hfull
      rw [List.take_append_of_le_length hfull]
    · rename_i hroom
      exact ih (not_le.mp hroom) hlt (by omega)

/-- `ReadRecords` returns the records up to its limit. -/
theorem Opened.readRecords_eq {t : TableReader} {gs : List (List Record)} (h : t.Opened gs)
    (limit : Nat) : t.readRecords limit = .ok (gs.flatten.take limit) := by
  unfold readRecords
  split
  · rename_i h0
    rw [h0, List.take_zero]
  · rename_i h0
    have hpos : ([] : List Record).length < limit := Nat.pos_of_ne_zero h0
    have hrun := readRecordsFrom_eq h hpos (Nat.zero_le _)
    rw [Nat.sub_zero, List.drop_zero, List.nil_append, ← List.range_eq_range',
      ← h.blocks.length_eq] at hrun
    exact hrun

end TableReader

end MiniKV
