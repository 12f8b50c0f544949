import MiniKV.Codec.Reader

/-!
# What the decoders reserve

`SSTableReader::Open`, `ReadBlock` and `DecodeManifest` each read a number of
elements and reserve a container for that many before they decode the first one.
A reservation is bounded if the elements, at the smallest encoding they can have,
fit into the bytes that they are decoded from.
-/

namespace MiniKV

open Lib

/-! ## Blocks and the MANIFEST -/

theorem blockDecoder_bounded (o : FormatOptions) (content : Bytes) (e : IndexEntry) :
    Report.Asks Reservation.Bounded (blockDecoder o content e) := by
  refine Report.Asks.ite (fun _ => .fail _) (fun _ => .ite (fun _ => .fail _)
    (fun _ => .ite (fun _ => .fail _) (fun hfields => ?_)))
  refine Report.Asks.bind (.ask ?_) (fun _ _ => .ofExcept _)
  simp only [not_or, not_not, not_lt] at hfields
  obtain ⟨-, -, hpayload, hcount, -⟩ := hfields
  rw [hpayload, Nat.le_div_iff_mul_le (by decide)] at hcount
  simpa only [Reservation.Bounded, List.length_drop] using hcount

theorem blocksDecoder_bounded (o : FormatOptions) (content : Bytes) (filter : Option BloomFilter)
    (previous : Option Bytes) (es : List IndexEntry) :
    Report.Asks Reservation.Bounded (blocksDecoder o content filter previous es) := by
  induction es generalizing previous with
  | nil => exact .pure _
  | cons e es ih =>
    refine Report.Asks.bind (blockDecoder_bounded o content e) (fun rs _ => ?_)
    refine Report.Asks.ite (fun _ => .fail _) (fun _ => .ite (fun _ => .fail _) (fun _ => ?_))
    exact Report.Asks.bind (ih _) (fun _ _ => .pure _)

theorem manifestDecoder_bounded (o : FormatOptions) (encoded : Bytes) :
    Report.Asks Reservation.Bounded (manifestDecoder o encoded) := by
  refine Report.Asks.ite (fun _ => .fail _) (fun _ => .ite (fun _ => .fail _)
    (fun _ => .ite (fun _ => .fail _) (fun _ => .ite (fun _ => .fail _) (fun hfields =>
      .ite (fun _ => .fail _) (fun _ => ?_)))))
  refine Report.Asks.bind (.ask ?_) (fun _ _ => .ofExcept _)
  simp only [not_or, not_not, not_lt] at hfields
  obtain ⟨-, -, hpayload, -, -, -, hcount⟩ := hfields
  rw [hpayload, Nat.le_div_iff_mul_le (by decide)] at hcount
  simpa only [Reservation.Bounded, List.length_drop] using hcount

/-! ## The sparse index -/

/-- The payload of the sparse index begins with as many entries as the footer announces. -/
def HoldsEntries (content : Bytes) : Prop :=
  ∃ (entries : List IndexEntry) (rest : Bytes),
    (indexIn content).drop kTableIndexHeaderSize = entries.flatMap encodeIndexEntry ++ rest ∧
      entries.length = (footerIn content).blockCount

/-- An encoded entry takes its fixed size at least. -/
theorem length_flatMap_encodeIndexEntry_ge (entries : List IndexEntry) :
    entries.length * kIndexEntryFixedSize ≤ (entries.flatMap encodeIndexEntry).length := by
  induction entries with
  | nil => simp
  | cons e entries ih =>
    rw [List.flatMap_cons, List.length_append, encodeIndexEntry_length, List.length_cons,
      Nat.add_mul]
    omega

theorem regionsDecoder_bounded (o : FormatOptions) {content : Bytes} (h : HoldsEntries content) :
    Report.Asks Reservation.Bounded
      (regionsDecoder o content (footerIn content) (indexIn content)) := by
  obtain ⟨entries, rest, hpayload, hcount⟩ := h
  refine Report.Asks.bind (.ask ?_) (fun _ _ => ?_)
  · rw [Reservation.Bounded, hpayload, ← hcount, List.length_append]
    exact (length_flatMap_encodeIndexEntry_ge entries).trans (Nat.le_add_right _ _)
  refine Report.Asks.bind (.ofExcept _) (fun filter _ => .bind (.ofExcept _) (fun decoded _ => ?_))
  obtain ⟨es, left, offset⟩ := decoded
  refine Report.Asks.ite (fun _ => .fail _) (fun _ => ?_)
  refine Report.Asks.bind (blocksDecoder_bounded o content filter none es) (fun rs _ => ?_)
  exact Report.Asks.ite (fun _ => .fail _) (fun _ => .pure _)

/-- An index that is accepted is a list of encoded entries. -/
theorem decodeIndexEntries_bytes {o : FormatOptions} {dataOffset dataSize n expected last : Nat}
    {previous : Option Bytes} {b rest : Bytes} {entries : List IndexEntry}
    (h : decodeIndexEntries o dataOffset dataSize n previous expected b =
      .ok (entries, rest, last)) : b = entries.flatMap encodeIndexEntry ++ rest := by
  induction n generalizing previous expected b entries rest last with
  | zero =>
    rw [decodeIndexEntries] at h
    obtain ⟨rfl, rfl, -⟩ := Prod.mk.inj (Except.ok.inj h)
    rfl
  | succ n ih =>
    obtain ⟨e, es, rfl, he, hes⟩ := decodeIndexEntries_succ_ok h
    rw [List.flatMap_cons, List.append_assoc, ← ih hes]
    exact he.bytes

theorem holdsEntries_of_ok {o : FormatOptions} {content : Bytes} {t : TableReader}
    (h : TableReader.openFile o content = .ok t) : HoldsEntries content := by
  cases hp : openContent o content with
  | error e =>
    rw [TableReader.openFile, hp] at h
    cases h
  | ok p =>
    have hc := openChecks_of_ok hp
    rw [openContent_of_checks hc] at hp
    obtain ⟨filter, entries, -, hentries, -⟩ := openRegions_ok hp
    exact ⟨entries, [], decodeIndexEntries_bytes hentries, (decodeIndexEntries_ok hentries).1⟩

/-- What `ReadBlock` and `DecodeManifest` reserve is bounded, and so is what `Open` reserves
for a file that it has given up before the index or whose index holds the entries that its
footer announces, as that of every accepted file does. `Open` does not check this before
`index_.reserve`. -/
theorem reservations_bounded (o : FormatOptions) (content : Bytes) :
    (openChecks o content = false ∨ HoldsEntries content →
      ∀ r ∈ (contentDecoder o content).asked, r.Bounded) ∧
    (∀ t, TableReader.openFile o content = .ok t → HoldsEntries content) ∧
    (∀ e, ∀ r ∈ (blockDecoder o content e).asked, r.Bounded) ∧
    ∀ r ∈ (manifestDecoder o content).asked, r.Bounded := by
  refine ⟨fun hinput => contentDecoder_asks (fun hc => ?_), fun t ht => holdsEntries_of_ok ht,
    fun e => blockDecoder_bounded o content e, manifestDecoder_bounded o content⟩
  rcases hinput with hno | hentries
  · rw [hc] at hno
    cases hno
  · exact regionsDecoder_bounded o hentries

/-- A table of two records in two blocks. -/
def twoBlockTable : Bytes := tableBytes 1 [[⟨[1], 1, .value, [5]⟩], [⟨[2], 2, .value, [6]⟩]] []

/-- A MANIFEST that names it. -/
def oneTableManifest : Bytes :=
  (encodeManifest {} { id := 2, nextFileNumber := 2, lastSequence := 2, tables := [{
    level := 0
    metadata := tableSummary 1 twoBlockTable.length
      [⟨[1], 1, .value, [5]⟩, ⟨[2], 2, .value, [6]⟩] }] }).toOption.getD []

theorem reservations_bounded_twoBlocks :
    HoldsEntries twoBlockTable ∧
    ((contentDecoder {} twoBlockTable).asked = [⟨2, 16, 34⟩, ⟨1, 32, 34⟩, ⟨1, 32, 34⟩] ∧
      ∀ r ∈ (contentDecoder {} twoBlockTable).asked, r.Bounded) ∧
    ((blockDecoder {} twoBlockTable ⟨[2], 86, 54⟩).asked = [⟨1, 32, 34⟩] ∧
      ∀ r ∈ (blockDecoder {} twoBlockTable ⟨[2], 86, 54⟩).asked, r.Bounded) ∧
    (manifestDecoder {} oneTableManifest).asked = [⟨1, 56, 58⟩] ∧
      ∀ r ∈ (manifestDecoder {} oneTableManifest).asked, r.Bounded := by
  obtain ⟨hopen, haccepted, hblock, -⟩ := reservations_bounded {} twoBlockTable
  obtain ⟨-, -, -, hmanifest⟩ := reservations_bounded {} oneTableManifest
  have hok : (TableReader.openFile {} twoBlockTable).toOption.isSome = true := by decide +kernel
  have hentries : HoldsEntries twoBlockTable := by
    cases ht : TableReader.openFile {} twoBlockTable with
    | ok t => exact haccepted t ht
    | error e =>
      rw [ht] at hok
      cases hok
  exact ⟨hentries, ⟨by decide +kernel, hopen (Or.inr hentries)⟩, ⟨by decide +kernel, hblock _⟩,
    by decide +kernel, hmanifest⟩

/-- A file that announces `2 ^ 32 - 1` blocks over an index without an entry, with every
checksum right. -/
def announcedBlocks : Bytes :=
  sealed (tableHeader 1 1 maxUInt32) ++ ([0] ++ (sealed (indexHeader maxUInt32 0) ++
    sealed (TableFooter.encode {
      fileSize := 157
      generation := 1
      recordCount := 1
      minimumSequence := 1
      maximumSequence := 1
      dataOffset := 32
      dataSize := 1
      indexOffset := 33
      indexSize := 20
      bloomOffset := 53
      bloomSize := 0
      blockCount := maxUInt32 })))

/-- `Open` asks for room for all of them before it finds the index too short, and ends with an
exception where that is refused. -/
theorem contentDecoder_announcedBlocks : announcedBlocks.length = 157 ∧
    (contentDecoder {} announcedBlocks).asked = [⟨4294967295, 16, 0⟩] ∧
    ¬ (⟨4294967295, 16, 0⟩ : Reservation).Bounded ∧
    ∀ grants : Reservation → Bool, grants ⟨4294967295, 16, 0⟩ = false →
      (contentDecoder {} announcedBlocks).granted grants = none := by
  have hasked : (contentDecoder {} announcedBlocks).asked = [⟨4294967295, 16, 0⟩] := by
    decide +kernel
  refine ⟨by decide +kernel, hasked, by decide, fun grants hno => ?_⟩
  rw [Report.granted, hasked]
  simp [hno]

end MiniKV
