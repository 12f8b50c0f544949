import MiniKV.Codec.Coding
import MiniKV.Version
import MiniKV.Format

/-!
# The MANIFEST codec

`EncodeManifest` and `DecodeManifest`: a header of 64 bytes under a checksum that
also covers the table records behind it.
-/

namespace MiniKV

open Lib

def kManifestMagic : Bytes := [77, 75, 77, 70]
def kManifestFormatVersion : Byte := 1
def kStorageFormatVersion : Byte := 2
def kManifestHeaderSize : Nat := 64
def kManifestTableFixedSize : Nat := 56

/-- What the 64-bit and 32-bit members of a table's metadata can hold. -/
def VersionTable.representable (t : VersionTable) : Bool :=
  t.level ≤ maxUInt32 ∧ t.metadata.generation ≤ maxUInt64 ∧ t.metadata.fileSize ≤ maxUInt64 ∧
  t.metadata.recordCount ≤ maxUInt64 ∧ t.metadata.minimumSequence ≤ maxUInt64 ∧
  t.metadata.maximumSequence ≤ maxUInt64

def Version.representable (v : Version) : Bool :=
  v.id ≤ maxUInt64 ∧ v.nextFileNumber ≤ maxUInt64 ∧ v.lastSequence ≤ maxUInt64 ∧
  v.tables.all VersionTable.representable

def manifestRecordSize (t : VersionTable) : Nat :=
  kManifestTableFixedSize + (t.metadata.minimumKey.length + t.metadata.maximumKey.length)

/-- The record of one table. -/
def manifestRecord (t : VersionTable) : Bytes :=
  putFixed 4 (manifestRecordSize t) ++ (putFixed 4 t.level ++ (putFixed 8 t.metadata.generation ++
    (putFixed 8 t.metadata.fileSize ++ (putFixed 8 t.metadata.recordCount ++
      (putFixed 8 t.metadata.minimumSequence ++ (putFixed 8 t.metadata.maximumSequence ++
        (putFixed 4 t.metadata.minimumKey.length ++ (putFixed 4 t.metadata.maximumKey.length ++
          (t.metadata.minimumKey ++ t.metadata.maximumKey)))))))))

/-- The loop over the tables, with the payload so far. -/
def manifestPayload : Bytes → List VersionTable → Except Status Bytes
  | payload, [] => .ok payload
  | payload, t :: ts =>
    if maxUInt32 < manifestRecordSize t then
      .error (.invalidArgument "Manifest table record is too large")
    else
      let payload := payload ++ manifestRecord t
      if kMaximumManifestSize - kManifestHeaderSize < payload.length then
        .error (.invalidArgument "Manifest exceeds the format size limit")
      else manifestPayload payload ts

/-- The header up to the checksum. -/
def manifestHeader (v : Version) (payloadSize : Nat) : Bytes :=
  kManifestMagic ++ ([kManifestFormatVersion] ++ ([kStorageFormatVersion] ++
    (putFixed 2 kManifestHeaderSize ++ (putFixed 8 (kManifestHeaderSize + payloadSize) ++
      (putFixed 8 v.id ++ (putFixed 8 v.nextFileNumber ++ (putFixed 8 v.lastSequence ++
        (putFixed 4 v.tables.length ++ (putFixed 4 payloadSize ++ putFixed 8 0)))))))))

/-- `EncodeManifest` -/
def encodeManifest (o : FormatOptions) (v : Version) : Except Status Bytes :=
  let validation := validateVersion o v
  if !validation.isOk then .error validation
  else if !v.representable then .error (.invalidArgument "Version field has no encoding")
  else if maxUInt32 < v.tables.length then .error (.invalidArgument "Manifest has too many tables")
  else match manifestPayload [] v.tables with
    | .error e => .error e
    | .ok payload =>
      if kMaximumManifestSize < kManifestHeaderSize + payload.length ∨
          maxUInt32 < payload.length then
        .error (.invalidArgument "Manifest exceeds the format size limit")
      else
        let header := manifestHeader v payload.length
        .ok (header ++ (putFixed 4 (crc32c (header ++ payload)) ++ (putFixed 4 0 ++ payload)))

/-- The loop over the table records. -/
def decodeManifestTables (o : FormatOptions) : Nat → Bytes → Except Status (List VersionTable × Bytes)
  | 0, remaining => .ok ([], remaining)
  | n + 1, remaining =>
    if remaining.length < kManifestTableFixedSize then
      .error (manifestCorruption "table record is truncated")
    else
      let recordSize := fieldAt remaining 0 4
      let minimumKeySize := fieldAt remaining 48 4
      let maximumKeySize := fieldAt remaining 52 4
      if recordSize ≠ kManifestTableFixedSize + (minimumKeySize + maximumKeySize) ∨
          remaining.length < recordSize ∨ o.maxKeySize < minimumKeySize ∨
          o.maxKeySize < maximumKeySize then
        .error (manifestCorruption "table record length is invalid")
      else
        let keys := remaining.drop kManifestTableFixedSize
        let table : VersionTable := {
          level := fieldAt remaining 4 4
          metadata := {
            generation := fieldAt remaining 8 8
            fileSize := fieldAt remaining 16 8
            recordCount := fieldAt remaining 24 8
            minimumSequence := fieldAt remaining 32 8
            maximumSequence := fieldAt remaining 40 8
            minimumKey := keys.take minimumKeySize
            maximumKey := (keys.drop minimumKeySize).take maximumKeySize } }
        match decodeManifestTables o n (remaining.drop recordSize) with
        | .error e => .error e
        | .ok (tables, rest) => .ok (table :: tables, rest)

/-- The Version behind a header that has been checked. -/
def decodeManifestBody (o : FormatOptions) (encoded : Bytes) : Except Status Version :=
  match decodeManifestTables o (fieldAt encoded 40 4) (encoded.drop kManifestHeaderSize) with
  | .error e => .error e
  | .ok (tables, rest) =>
    let version : Version := {
      id := fieldAt encoded 16 8
      nextFileNumber := fieldAt encoded 24 8
      lastSequence := fieldAt encoded 32 8
      tables := tables }
    if !rest.isEmpty then .error (manifestCorruption "unreferenced trailing bytes exist")
    else
      let validation := validateVersion o version
      if !validation.isOk then .error validation else .ok version

/-- `DecodeManifest`, with `tables_.reserve(table_count)` behind its checks. -/
def manifestDecoder (o : FormatOptions) (encoded : Bytes) : Decoder Version :=
  if encoded.length < kManifestHeaderSize then
    Report.fail (manifestCorruption "file is smaller than its header")
  else if encoded.take 4 ≠ kManifestMagic then Report.fail (manifestCorruption "magic is invalid")
  else if encoded.getD 4 0 ≠ kManifestFormatVersion ∨
      encoded.getD 5 0 ≠ kStorageFormatVersion then
    Report.fail (.versionMismatch ("manifest format " ++ toString (encoded.getD 4 0).val ++
      " / storage format " ++ toString (encoded.getD 5 0).val ++ " is unsupported"))
  else if fieldAt encoded 6 2 ≠ kManifestHeaderSize ∨ fieldAt encoded 8 8 ≠ encoded.length ∨
      fieldAt encoded 44 4 ≠ encoded.length - kManifestHeaderSize ∨
      kMaximumManifestSize < encoded.length ∨ fieldAt encoded 48 8 ≠ 0 ∨
      fieldAt encoded 60 4 ≠ 0 ∨
      fieldAt encoded 44 4 / kManifestTableFixedSize < fieldAt encoded 40 4 then
    Report.fail (manifestCorruption "header fields are invalid")
  else if crc32c (encoded.take 56 ++ encoded.drop kManifestHeaderSize) ≠ fieldAt encoded 56 4 then
    Report.fail (manifestCorruption "checksum mismatch")
  else do
    Report.ask {
      count := fieldAt encoded 40 4
      elementSize := kManifestTableFixedSize
      available := (encoded.drop kManifestHeaderSize).length }
    Report.ofExcept (decodeManifestBody o encoded)

/-- What `DecodeManifest` returns. -/
def decodeManifest (o : FormatOptions) (encoded : Bytes) : Except Status Version :=
  (manifestDecoder o encoded).result

theorem decodeManifest_eq (o : FormatOptions) (encoded : Bytes) : decodeManifest o encoded =
    if encoded.length < kManifestHeaderSize then
      .error (manifestCorruption "file is smaller than its header")
    else if encoded.take 4 ≠ kManifestMagic then .error (manifestCorruption "magic is invalid")
    else if encoded.getD 4 0 ≠ kManifestFormatVersion ∨
        encoded.getD 5 0 ≠ kStorageFormatVersion then
      .error (.versionMismatch ("manifest format " ++ toString (encoded.getD 4 0).val ++
        " / storage format " ++ toString (encoded.getD 5 0).val ++ " is unsupported"))
    else if fieldAt encoded 6 2 ≠ kManifestHeaderSize ∨ fieldAt encoded 8 8 ≠ encoded.length ∨
        fieldAt encoded 44 4 ≠ encoded.length - kManifestHeaderSize ∨
        kMaximumManifestSize < encoded.length ∨ fieldAt encoded 48 8 ≠ 0 ∨
        fieldAt encoded 60 4 ≠ 0 ∨
        fieldAt encoded 44 4 / kManifestTableFixedSize < fieldAt encoded 40 4 then
      .error (manifestCorruption "header fields are invalid")
    else if crc32c (encoded.take 56 ++ encoded.drop kManifestHeaderSize) ≠ fieldAt encoded 56 4 then
      .error (manifestCorruption "checksum mismatch")
    else decodeManifestBody o encoded := by
  simp only [decodeManifest, manifestDecoder, Report.result_ite, Report.result_fail,
    Report.result_ask_bind, Report.result_ofExcept]

/-! ## The records of the tables -/

/-- What `EncodeManifest` asks of a table before it writes its record. -/
structure VersionTable.Encodable (o : FormatOptions) (t : VersionTable) : Prop where
  representable : t.representable = true
  size_le : manifestRecordSize t ≤ maxUInt32
  minimumKey_le : t.metadata.minimumKey.length ≤ o.maxKeySize
  maximumKey_le : t.metadata.maximumKey.length ≤ o.maxKeySize

@[simp] theorem manifestRecord_length (t : VersionTable) :
    (manifestRecord t).length = manifestRecordSize t := by
  simp only [manifestRecord, List.length_append, putFixed_length, manifestRecordSize,
    kManifestTableFixedSize]
  omega

/-- The fields of a table's record, whatever follows it. -/
theorem decodeManifestTables_record {o : FormatOptions} {t : VersionTable} (ht : t.Encodable o)
    (n : Nat) (s : Bytes) :
    decodeManifestTables o (n + 1) (manifestRecord t ++ s) =
      match decodeManifestTables o n s with
      | .error e => .error e
      | .ok (tables, rest) => .ok (t :: tables, rest) := by
  have hrep := ht.representable
  simp only [VersionTable.representable, decide_eq_true_eq] at hrep
  obtain ⟨hlevel, hgen, hfile, hcount, hmin, hmax⟩ := hrep
  have hsize := ht.size_le
  simp only [maxUInt32, maxUInt64, manifestRecordSize, kManifestTableFixedSize]
    at hlevel hgen hfile hcount hmin hmax hsize
  have h0 : manifestRecordSize t < 256 ^ 4 := by
    simp only [manifestRecordSize, kManifestTableFixedSize]
    omega
  have h1 : t.level < 256 ^ 4 := by omega
  have h2 : t.metadata.generation < 256 ^ 8 := by omega
  have h3 : t.metadata.fileSize < 256 ^ 8 := by omega
  have h4 : t.metadata.recordCount < 256 ^ 8 := by omega
  have h5 : t.metadata.minimumSequence < 256 ^ 8 := by omega
  have h6 : t.metadata.maximumSequence < 256 ^ 8 := by omega
  have h7 : t.metadata.minimumKey.length < 256 ^ 4 := by omega
  have h8 : t.metadata.maximumKey.length < 256 ^ 4 := by omega
  have hlen : kManifestTableFixedSize ≤ (manifestRecord t ++ s).length := by
    rw [List.length_append, manifestRecord_length, manifestRecordSize]
    omega
  have hrest : (manifestRecord t ++ s).drop (manifestRecordSize t) = s :=
    List.drop_left' (manifestRecord_length t)
  have hkeys : (manifestRecord t ++ s).drop kManifestTableFixedSize =
      t.metadata.minimumKey ++ (t.metadata.maximumKey ++ s) := by
    simp only [manifestRecord, List.append_assoc, kManifestTableFixedSize]
    simp (disch := simp) only [drop_past, putFixed_length, Nat.reduceSub, List.drop_zero]
  rw [decodeManifestTables, if_neg (not_lt.mpr hlen)]
  rw [hkeys]
  have hfields : ∀ x y : Nat, fieldAt (manifestRecord t ++ s) x y =
      fieldAt (putFixed 4 (manifestRecordSize t) ++ (putFixed 4 t.level ++
        (putFixed 8 t.metadata.generation ++ (putFixed 8 t.metadata.fileSize ++
          (putFixed 8 t.metadata.recordCount ++ (putFixed 8 t.metadata.minimumSequence ++
            (putFixed 8 t.metadata.maximumSequence ++
              (putFixed 4 t.metadata.minimumKey.length ++
                (putFixed 4 t.metadata.maximumKey.length ++ (t.metadata.minimumKey ++
                  (t.metadata.maximumKey ++ s))))))))))) x y := by
    intro x y
    simp only [manifestRecord, List.append_assoc]
  simp only [hfields]
  simp (disch := first | assumption | simp) only [fieldAt_append, fieldAt_zero, putFixed_length,
    Nat.reduceSub, Nat.sub_self]
  rw [if_neg, List.take_left, List.drop_left, List.take_left, hrest]
  have hk1 := ht.minimumKey_le
  have hk2 := ht.maximumKey_le
  rw [List.length_append, manifestRecord_length]
  simp only [manifestRecordSize, ne_eq, not_true_eq_false, false_or, not_or]
  omega

theorem decodeManifestTables_encode {o : FormatOptions} {ts : List VersionTable}
    (h : ∀ t ∈ ts, t.Encodable o) (s : Bytes) :
    decodeManifestTables o ts.length (ts.flatMap manifestRecord ++ s) = .ok (ts, s) := by
  induction ts with
  | nil => rfl
  | cons t ts ih =>
    rw [List.flatMap_cons, List.append_assoc, List.length_cons,
      decodeManifestTables_record (h t List.mem_cons_self),
      ih (fun x hx => h x (List.mem_cons_of_mem _ hx))]

/-- What the loop over the tables accepts, and the payload it then makes. -/
theorem manifestPayload_ok {payload result : Bytes} {ts : List VersionTable}
    (h : manifestPayload payload ts = .ok result) :
    result = payload ++ ts.flatMap manifestRecord ∧
      ∀ t ∈ ts, manifestRecordSize t ≤ maxUInt32 := by
  induction ts generalizing payload with
  | nil =>
    rw [manifestPayload] at h
    exact ⟨by rw [← Except.ok.inj h]; simp, by simp⟩
  | cons t ts ih =>
    rw [manifestPayload] at h
    obtain ⟨hsize, h⟩ := ite_error_eq_ok.mp h
    dsimp only at h
    obtain ⟨-, h⟩ := ite_error_eq_ok.mp h
    obtain ⟨h1, h2⟩ := ih h
    refine ⟨by rw [h1, List.flatMap_cons, List.append_assoc], fun x hx => ?_⟩
    rcases List.mem_cons.mp hx with rfl | hx
    · exact not_lt.mp hsize
    · exact h2 x hx

/-- The fields of one table's record, as a table. -/
def manifestFields (remaining : Bytes) : VersionTable where
  level := fieldAt remaining 4 4
  metadata := {
    generation := fieldAt remaining 8 8
    fileSize := fieldAt remaining 16 8
    recordCount := fieldAt remaining 24 8
    minimumSequence := fieldAt remaining 32 8
    maximumSequence := fieldAt remaining 40 8
    minimumKey := (remaining.drop kManifestTableFixedSize).take (fieldAt remaining 48 4)
    maximumKey := ((remaining.drop kManifestTableFixedSize).drop (fieldAt remaining 48 4)).take
      (fieldAt remaining 52 4) }

theorem manifestFields_representable (remaining : Bytes) :
    (manifestFields remaining).representable = true := by
  have h1 := fieldAt_lt remaining 4 4
  have h2 := fieldAt_lt remaining 8 8
  have h3 := fieldAt_lt remaining 16 8
  have h4 := fieldAt_lt remaining 24 8
  have h5 := fieldAt_lt remaining 32 8
  have h6 := fieldAt_lt remaining 40 8
  rw [VersionTable.representable, decide_eq_true_eq]
  simp only [manifestFields, maxUInt32, maxUInt64]
  omega

/-- A record whose length fields agree is the record of its fields. -/
theorem manifestRecord_manifestFields {b : Bytes}
    (hsize : fieldAt b 0 4 = kManifestTableFixedSize + (fieldAt b 48 4 + fieldAt b 52 4))
    (hlen : fieldAt b 0 4 ≤ b.length) :
    manifestRecordSize (manifestFields b) = fieldAt b 0 4 ∧
      b = manifestRecord (manifestFields b) ++ b.drop (fieldAt b 0 4) := by
  have hkeys : (manifestFields b).metadata.minimumKey.length = fieldAt b 48 4 ∧
      (manifestFields b).metadata.maximumKey.length = fieldAt b 52 4 := by
    simp only [manifestFields, List.length_take, List.length_drop]
    omega
  have hrecord : manifestRecordSize (manifestFields b) = fieldAt b 0 4 := by
    rw [manifestRecordSize, hkeys.1, hkeys.2, hsize]
  refine ⟨hrecord, ?_⟩
  have hrest : b.drop 56 = (manifestFields b).metadata.minimumKey ++
      ((manifestFields b).metadata.maximumKey ++ b.drop (fieldAt b 0 4)) := by
    rw [hsize, ← List.drop_drop, ← List.drop_drop]
    simp only [manifestFields, List.take_append_drop]
    rfl
  rw [kManifestTableFixedSize] at hsize
  rw [manifestRecord, hrecord, hkeys.1, hkeys.2]
  simp only [List.append_assoc]
  rw [← hrest]
  simp only [manifestFields]
  conv_lhs => rw [← List.drop_zero (l := b), drop_eq_field 4 (by omega), drop_eq_field 4 (by omega),
    drop_eq_field 8 (by omega), drop_eq_field 8 (by omega), drop_eq_field 8 (by omega),
    drop_eq_field 8 (by omega), drop_eq_field 8 (by omega), drop_eq_field 4 (by omega),
    drop_eq_field 4 (by omega)]

/-- What the loop over the table records accepts is the records of the tables it returns. -/
theorem decodeManifestTables_ok {o : FormatOptions} {n : Nat} {b rest : Bytes}
    {ts : List VersionTable} (h : decodeManifestTables o n b = .ok (ts, rest)) :
    ts.length = n ∧ b = ts.flatMap manifestRecord ++ rest ∧
      ∀ t ∈ ts, t.representable = true ∧ manifestRecordSize t ≤ maxUInt32 := by
  induction n generalizing b ts with
  | zero =>
    rw [decodeManifestTables] at h
    obtain ⟨rfl, rfl⟩ := Prod.mk.inj (Except.ok.inj h)
    exact ⟨rfl, rfl, by simp⟩
  | succ n ih =>
    rw [decodeManifestTables] at h
    obtain ⟨-, h⟩ := ite_error_eq_ok.mp h
    dsimp only at h
    obtain ⟨hfields, h⟩ := ite_error_eq_ok.mp h
    simp only [not_or, not_not, not_lt] at hfields
    split at h
    · cases h
    rename_i tables tail hd
    obtain ⟨rfl, rfl⟩ := Prod.mk.inj (Except.ok.inj h)
    obtain ⟨hcount, htail, hall⟩ := ih hd
    obtain ⟨hsize, hrecord⟩ := manifestRecord_manifestFields hfields.1 hfields.2.1
    refine ⟨by rw [List.length_cons, hcount], ?_, ?_⟩
    · rw [List.flatMap_cons, List.append_assoc, ← htail]
      exact hrecord
    · intro t ht
      rcases List.mem_cons.mp ht with rfl | ht
      · refine ⟨manifestFields_representable b, ?_⟩
        have hlt := fieldAt_lt b 0 4
        show manifestRecordSize (manifestFields b) ≤ maxUInt32
        rw [hsize, maxUInt32]
        omega
      · exact hall t ht

/-- The loop over the tables makes their records, when each and all of them are short
enough. -/
theorem manifestPayload_eq_ok {payload : Bytes} {ts : List VersionTable}
    (hts : ∀ t ∈ ts, manifestRecordSize t ≤ maxUInt32)
    (hlen : (payload ++ ts.flatMap manifestRecord).length ≤
      kMaximumManifestSize - kManifestHeaderSize) :
    manifestPayload payload ts = .ok (payload ++ ts.flatMap manifestRecord) := by
  induction ts generalizing payload with
  | nil => rw [manifestPayload, List.flatMap_nil, List.append_nil]
  | cons t ts ih =>
    have ht := hts t List.mem_cons_self
    rw [List.flatMap_cons, ← List.append_assoc] at hlen ⊢
    have hle : (payload ++ manifestRecord t).length ≤ kMaximumManifestSize - kManifestHeaderSize := by
      rw [List.length_append] at hlen
      omega
    rw [manifestPayload, if_neg (not_lt.mpr ht)]
    dsimp only
    rw [if_neg (not_lt.mpr hle)]
    exact ih (fun x hx => hts x (List.mem_cons_of_mem _ hx)) hlen

/-! ## The whole file -/

/-- The payload of a MANIFEST. -/
def manifestTables (v : Version) : Bytes := v.tables.flatMap manifestRecord

@[simp] theorem manifestHeader_length (v : Version) (n : Nat) :
    (manifestHeader v n).length = 56 := by
  simp [manifestHeader, kManifestMagic]

/-- What `EncodeManifest` accepts, and the file it then makes. -/
theorem encodeManifest_ok {o : FormatOptions} {v : Version} {b : Bytes}
    (h : encodeManifest o v = .ok b) :
    v.Valid o ∧ v.representable = true ∧ v.tables.length ≤ maxUInt32 ∧
      (∀ t ∈ v.tables, t.Encodable o) ∧
      kManifestHeaderSize + (manifestTables v).length ≤ kMaximumManifestSize ∧
      b = manifestHeader v (manifestTables v).length ++
        (putFixed 4 (crc32c (manifestHeader v (manifestTables v).length ++ manifestTables v)) ++
          (putFixed 4 0 ++ manifestTables v)) := by
  unfold encodeManifest at h
  dsimp only at h
  obtain ⟨hval, h⟩ := ite_error_eq_ok.mp h
  obtain ⟨hrep, h⟩ := ite_error_eq_ok.mp h
  obtain ⟨hcount, h⟩ := ite_error_eq_ok.mp h
  split at h
  · cases h
  rename_i payload hpayload
  split at h
  · cases h
  rename_i hsize
  have hvalid : v.Valid o := validateVersion_isOk.mp (by simpa using hval)
  have hrep : v.representable = true := by simpa using hrep
  obtain ⟨h1, h2⟩ := manifestPayload_ok hpayload
  rw [List.nil_append] at h1
  subst h1
  refine ⟨hvalid, hrep, by omega, fun t ht => ?_, ?_, (Except.ok.inj h).symm⟩
  · have hw := VersionTable.wellFormed_iff.mp (hvalid.tables t ht)
    have hall := hrep
    simp only [Version.representable, decide_eq_true_eq, List.all_eq_true] at hall
    exact ⟨hall.2.2.2 t ht, h2 t ht, hw.2.2.2.2.2.2.2.1, hw.2.2.2.2.2.2.2.2.1⟩
  · simp only [manifestTables]
    omega

theorem encodeManifest_length {o : FormatOptions} {v : Version} {b : Bytes}
    (h : encodeManifest o v = .ok b) : b.length ≤ kMaximumManifestSize := by
  obtain ⟨-, -, -, -, hsize, rfl⟩ := encodeManifest_ok h
  simp only [List.length_append, manifestHeader_length, putFixed_length]
  simp only [kManifestHeaderSize] at hsize
  omega

theorem length_le_flatMap_manifestRecord (ts : List VersionTable) :
    kManifestTableFixedSize * ts.length ≤ (ts.flatMap manifestRecord).length := by
  induction ts with
  | nil => simp
  | cons t ts ih =>
    rw [List.flatMap_cons, List.length_append, List.length_cons, manifestRecord_length,
      manifestRecordSize]
    simp only [kManifestTableFixedSize] at ih ⊢
    omega

/-- What was published as a MANIFEST is the Version that is loaded. -/
theorem decodeManifest_encodeManifest {o : FormatOptions} {v : Version} {b : Bytes}
    (h : encodeManifest o v = .ok b) : decodeManifest o b = .ok v := by
  obtain ⟨hvalid, hrep, hcount, htables, hsize, hb⟩ := encodeManifest_ok h
  have hmany := length_le_flatMap_manifestRecord v.tables
  rw [← manifestTables] at hmany
  generalize hp : manifestTables v = payload at hb hsize hmany
  generalize hc : crc32c (manifestHeader v payload.length ++ payload) = checksum at hb
  have hc4 : checksum < 256 ^ 4 := hc ▸ crc32c_lt _
  simp only [Version.representable, decide_eq_true_eq] at hrep
  simp only [maxUInt64, maxUInt32, kManifestHeaderSize, kMaximumManifestSize]
    at hrep hcount hsize
  have hlen : b.length = kManifestHeaderSize + payload.length := by
    simp only [hb, List.length_append, manifestHeader_length, putFixed_length, kManifestHeaderSize]
    omega
  have h1 : kManifestHeaderSize < 256 ^ 2 := by decide
  have h2 : kManifestHeaderSize + payload.length < 256 ^ 8 := by
    simp only [kManifestHeaderSize]
    omega
  have h3 : v.id < 256 ^ 8 := by omega
  have h4 : v.nextFileNumber < 256 ^ 8 := by omega
  have h5 : v.lastSequence < 256 ^ 8 := by omega
  have h6 : v.tables.length < 256 ^ 4 := by omega
  have h7 : payload.length < 256 ^ 4 := by omega
  have hzero8 : 0 < 256 ^ 8 := by decide
  have hzero4 : 0 < 256 ^ 4 := by decide
  have hm : kManifestMagic.length = 4 := rfl
  have hbody : b.drop kManifestHeaderSize = payload := by
    rw [hb, drop_past (by simp [kManifestHeaderSize]), drop_past (by simp [kManifestHeaderSize]),
      drop_past (by simp [kManifestHeaderSize])]
    simp [kManifestHeaderSize]
  have hstart : b.take 56 = manifestHeader v payload.length := by
    rw [hb]
    exact List.take_left' (by simp)
  simp only [manifestHeader, List.append_assoc] at hb
  have hmagic : b.take 4 = kManifestMagic := by
    rw [hb]
    exact List.take_left' rfl
  have hversion : b.getD 4 0 = kManifestFormatVersion ∧ b.getD 5 0 = kStorageFormatVersion := by
    rw [hb]
    simp [kManifestMagic]
  have hread : fieldAt b 6 2 = kManifestHeaderSize ∧
      fieldAt b 8 8 = kManifestHeaderSize + payload.length ∧ fieldAt b 16 8 = v.id ∧
      fieldAt b 24 8 = v.nextFileNumber ∧ fieldAt b 32 8 = v.lastSequence ∧
      fieldAt b 40 4 = v.tables.length ∧ fieldAt b 44 4 = payload.length ∧ fieldAt b 48 8 = 0 ∧
      fieldAt b 56 4 = checksum ∧ fieldAt b 60 4 = 0 := by
    rw [hb]
    simp (disch := first | assumption | simp [hm]) only [fieldAt_append, fieldAt_zero, hm,
      putFixed_length, List.length_singleton, Nat.reduceSub, Nat.sub_self, and_self]
  obtain ⟨r1, r2, r3, r4, r5, r6, r7, r8, r9, r10⟩ := hread
  have htable : kManifestTableFixedSize = 56 := rfl
  rw [decodeManifest_eq]
  rw [if_neg (by omega), if_neg (by simp [hmagic]), if_neg (by rw [hversion.1, hversion.2]; simp), hstart, hbody, r1,
    r2, r6, r7, r8, r9, r10, if_neg, if_neg (by rw [hc]; simp)]
  · unfold decodeManifestBody
    rw [hbody, r3, r4, r5, r6, ← hp, manifestTables]
    have hd := decodeManifestTables_encode htables []
    rw [List.append_nil] at hd
    rw [hd]
    dsimp only
    rw [if_neg (by simp), if_neg]
    have := validateVersion_isOk.mpr hvalid
    simpa using this
  · rw [hlen]
    simp only [kManifestHeaderSize, htable, kMaximumManifestSize] at hmany ⊢
    omega

/-- The header fields that `DecodeManifest` accepts are those it would write. -/
theorem bytes_eq_manifestHeader {b : Bytes} {v : Version}
    (hlen : kManifestHeaderSize ≤ b.length) (hmagic : b.take 4 = kManifestMagic)
    (hversion : b.getD 4 0 = kManifestFormatVersion ∧ b.getD 5 0 = kStorageFormatVersion)
    (hheader : fieldAt b 6 2 = kManifestHeaderSize) (hfile : fieldAt b 8 8 = b.length)
    (hid : fieldAt b 16 8 = v.id) (hnext : fieldAt b 24 8 = v.nextFileNumber)
    (hlast : fieldAt b 32 8 = v.lastSequence) (hcount : fieldAt b 40 4 = v.tables.length)
    (hpayload : fieldAt b 44 4 = b.length - kManifestHeaderSize) (hzero : fieldAt b 48 8 = 0) :
    b.take 56 = manifestHeader v (b.drop kManifestHeaderSize).length := by
  have hsize : kManifestHeaderSize + (b.length - kManifestHeaderSize) = b.length := by omega
  rw [manifestHeader, List.length_drop, hsize, ← hpayload, ← hheader, ← hfile, ← hid, ← hnext,
    ← hlast, ← hcount, ← hzero, ← hversion.1, ← hversion.2, ← hmagic]
  rw [kManifestHeaderSize] at hlen
  have hall : b = b.take 4 ++ ([b.getD 4 0] ++ ([b.getD 5 0] ++ (putFixed 2 (fieldAt b 6 2) ++
      (putFixed 8 (fieldAt b 8 8) ++ (putFixed 8 (fieldAt b 16 8) ++ (putFixed 8 (fieldAt b 24 8) ++
        (putFixed 8 (fieldAt b 32 8) ++ (putFixed 4 (fieldAt b 40 4) ++
          (putFixed 4 (fieldAt b 44 4) ++ (putFixed 8 (fieldAt b 48 8) ++ b.drop 56)))))))))) := by
    conv_lhs => rw [← List.take_append_drop 4 b, drop_eq_byte (by omega), drop_eq_byte (by omega),
      drop_eq_field 2 (by omega), drop_eq_field 8 (by omega), drop_eq_field 8 (by omega),
      drop_eq_field 8 (by omega), drop_eq_field 8 (by omega), drop_eq_field 4 (by omega),
      drop_eq_field 4 (by omega), drop_eq_field 8 (by omega)]
  have hfour : (b.take 4).length = 4 := by
    rw [List.length_take]
    omega
  conv_lhs => rw [hall]
  simp only [← List.append_assoc]
  refine List.take_left' ?_
  simp only [List.length_append, hfour, List.length_singleton, putFixed_length]

/-- The checks of `DecodeManifest` in front of `tables_.reserve`. -/
def manifestChecks (encoded : Bytes) : Bool :=
  kManifestHeaderSize ≤ encoded.length ∧ encoded.take 4 = kManifestMagic ∧
  (encoded.getD 4 0 = kManifestFormatVersion ∧ encoded.getD 5 0 = kStorageFormatVersion) ∧
  (fieldAt encoded 6 2 = kManifestHeaderSize ∧ fieldAt encoded 8 8 = encoded.length ∧
    fieldAt encoded 44 4 = encoded.length - kManifestHeaderSize ∧
    encoded.length ≤ kMaximumManifestSize ∧ fieldAt encoded 48 8 = 0 ∧
    fieldAt encoded 60 4 = 0 ∧
    fieldAt encoded 40 4 ≤ fieldAt encoded 44 4 / kManifestTableFixedSize) ∧
  crc32c (encoded.take 56 ++ encoded.drop kManifestHeaderSize) = fieldAt encoded 56 4

/-- Behind its checks `DecodeManifest` goes on to the tables. -/
theorem decodeManifest_of_checks (o : FormatOptions) {encoded : Bytes}
    (h : manifestChecks encoded = true) :
    decodeManifest o encoded = decodeManifestBody o encoded := by
  obtain ⟨h1, h2, h3, h4, h5⟩ := of_decide_eq_true h
  rw [decodeManifest_eq]
  rw [if_neg (not_lt.mpr h1), if_neg (not_not.mpr h2), if_neg (by rw [h3.1, h3.2]; simp), if_neg,
    if_neg (not_not.mpr h5)]
  obtain ⟨h41, h42, h43, h44, h45, h46, h47⟩ := h4
  rintro (h | h | h | h | h | h | h)
  · exact h h41
  · exact h h42
  · exact h h43
  · omega
  · exact h h45
  · exact h h46
  · omega

/-- A MANIFEST that is accepted has passed the checks. -/
theorem manifestChecks_of_ok {o : FormatOptions} {encoded : Bytes} {v : Version}
    (h : decodeManifest o encoded = .ok v) : manifestChecks encoded = true := by
  rw [decodeManifest_eq] at h
  obtain ⟨h1, h⟩ := ite_error_eq_ok.mp h
  obtain ⟨h2, h⟩ := ite_error_eq_ok.mp h
  obtain ⟨h3, h⟩ := ite_error_eq_ok.mp h
  obtain ⟨h4, h⟩ := ite_error_eq_ok.mp h
  obtain ⟨h5, h⟩ := ite_error_eq_ok.mp h
  simp only [not_or, not_not, not_lt] at h1 h2 h3 h4 h5
  exact decide_eq_true ⟨h1, h2, h3, h4, h5⟩

/-- A MANIFEST that is accepted is the one that its Version is published as. -/
theorem decodeManifest_ok {o : FormatOptions} {b : Bytes} {v : Version}
    (h : decodeManifest o b = .ok v) : encodeManifest o v = .ok b := by
  have hc := manifestChecks_of_ok h
  rw [decodeManifest_of_checks o hc] at h
  obtain ⟨hlen, hmagic, hversion, ⟨hheader, hfile, hpayload, hmax, hzero8, hzero4, -⟩, hcrc⟩ :=
    of_decide_eq_true hc
  unfold decodeManifestBody at h
  split at h
  · cases h
  rename_i tables rest htables
  dsimp only at h
  obtain ⟨hrest, h⟩ := ite_error_eq_ok.mp h
  obtain ⟨hvalid, h⟩ := ite_error_eq_ok.mp h
  have hnil : rest = [] := by simpa using hrest
  obtain ⟨hcount, hbody, hall⟩ := decodeManifestTables_ok htables
  obtain rfl := Except.ok.inj h
  rw [hnil, List.append_nil] at hbody
  have hstart := bytes_eq_manifestHeader (v := ⟨fieldAt b 16 8, fieldAt b 24 8, fieldAt b 32 8,
    tables⟩) hlen hmagic hversion hheader hfile rfl rfl rfl hcount.symm hpayload hzero8
  have hlength : kManifestHeaderSize + (b.drop kManifestHeaderSize).length = b.length := by
    rw [List.length_drop]
    omega
  have hrep : Version.representable ⟨fieldAt b 16 8, fieldAt b 24 8, fieldAt b 32 8, tables⟩ =
      true := by
    have h1 := fieldAt_lt b 16 8
    have h2 := fieldAt_lt b 24 8
    have h3 := fieldAt_lt b 32 8
    rw [Version.representable, decide_eq_true_eq]
    refine ⟨?_, ?_, ?_, List.all_eq_true.mpr fun t ht => (hall t ht).1⟩ <;>
      · simp only [maxUInt64]
        omega
  have hcount4 : tables.length ≤ maxUInt32 := by
    have hlt := fieldAt_lt b 40 4
    rw [hcount, maxUInt32]
    omega
  have hloop : manifestPayload [] tables = .ok (b.drop kManifestHeaderSize) := by
    rw [hbody]
    refine manifestPayload_eq_ok (fun t ht => (hall t ht).2) ?_
    rw [List.nil_append, ← hbody]
    omega
  have hsize : ¬ (kMaximumManifestSize < kManifestHeaderSize + (b.drop kManifestHeaderSize).length ∨
      maxUInt32 < (b.drop kManifestHeaderSize).length) := by
    simp only [kMaximumManifestSize, maxUInt32] at hmax ⊢
    omega
  unfold encodeManifest
  dsimp only
  rw [if_neg hvalid, if_neg (by rw [hrep]; simp), if_neg (not_lt.mpr hcount4), hloop]
  dsimp only
  rw [if_neg hsize, ← hstart, hcrc, ← hzero4]
  simp only [kManifestHeaderSize] at hlen ⊢
  conv_rhs => rw [← List.take_append_drop 56 b, drop_eq_field 4 (by omega),
    drop_eq_field 4 (by omega)]

theorem decodeManifest_valid {o : FormatOptions} {b : Bytes} {v : Version}
    (h : decodeManifest o b = .ok v) : v.Valid o := (encodeManifest_ok (decodeManifest_ok h)).1

theorem decodeManifest_size {o : FormatOptions} {b : Bytes} {v : Version}
    (h : decodeManifest o b = .ok v) :
    kManifestHeaderSize ≤ b.length ∧ fieldAt b 8 8 = b.length := by
  obtain ⟨hlen, -, -, hfields, -⟩ := of_decide_eq_true (manifestChecks_of_ok h)
  exact ⟨hlen, hfields.2.1⟩

theorem decodeManifestTables_error {o : FormatOptions} {n : Nat} {b : Bytes} {e : Status}
    (h : decodeManifestTables o n b = .error e) : e.isOk = false := by
  induction n generalizing b with
  | zero => cases h
  | succ n ih =>
    rw [decodeManifestTables] at h
    refine of_ite_error h rfl (fun _ h => ?_)
    dsimp only at h
    refine of_ite_error h rfl (fun _ h => ?_)
    split at h
    · rename_i hd
      obtain rfl := Except.error.inj h
      exact ih hd
    · cases h

theorem decodeManifest_error {o : FormatOptions} {b : Bytes} {e : Status}
    (h : decodeManifest o b = .error e) : e.isOk = false := by
  rw [decodeManifest_eq] at h
  refine of_ite_error h rfl (fun _ h => ?_)
  refine of_ite_error h rfl (fun _ h => ?_)
  refine of_ite_error h rfl (fun _ h => ?_)
  refine of_ite_error h rfl (fun _ h => ?_)
  refine of_ite_error h rfl (fun _ h => ?_)
  unfold decodeManifestBody at h
  split at h
  · rename_i hd
    rw [← Except.error.inj h]
    exact decodeManifestTables_error hd
  dsimp only at h
  refine of_ite_error h rfl (fun _ h => ?_)
  split at h
  · rename_i hvalid
    rw [← Except.error.inj h]
    simpa using hvalid
  · cases h

/-- The codec of MANIFESTs takes the Versions that have an encoding to exactly the bytes
that are accepted. -/
theorem manifest_codec (o : FormatOptions) :
    (∀ v b, encodeManifest o v = .ok b → decodeManifest o b = .ok v) ∧
    (∀ b v, decodeManifest o b = .ok v →
      (validateVersion o v).isOk = true ∧ encodeManifest o v = .ok b) :=
  ⟨fun _ _ h => decodeManifest_encodeManifest h,
    fun _ _ h => ⟨validateVersion_isOk.mpr (decodeManifest_valid h), decodeManifest_ok h⟩⟩

theorem length_manifestTables (v : Version) :
    (manifestTables v).length = (v.tables.map manifestRecordSize).sum := by
  rw [manifestTables, List.length_flatMap]
  congr 1
  exact List.map_congr_left (fun t _ => manifestRecord_length t)

/-- A Version of 64-bit fields has a MANIFEST, if the records of its tables fit in one. -/
theorem encodeManifest_isOk {o : FormatOptions} {v : Version} (hv : v.Valid o)
    (hrep : v.representable = true)
    (hsize : kManifestHeaderSize + (v.tables.map manifestRecordSize).sum ≤ kMaximumManifestSize) :
    ∃ b, encodeManifest o v = .ok b := by
  have hvalid := validateVersion_isOk.mpr hv
  have hsum := length_manifestTables v
  have hcount := length_le_flatMap_manifestRecord v.tables
  rw [← hsum] at hsize
  simp only [manifestTables, kManifestHeaderSize, kManifestTableFixedSize,
    kMaximumManifestSize] at hsize hcount
  have hrecords : ∀ t ∈ v.tables, manifestRecordSize t ≤ maxUInt32 := by
    intro t ht
    have hle := List.le_sum_of_mem (List.mem_map_of_mem (f := manifestRecordSize) ht)
    rw [← hsum, manifestTables] at hle
    simp only [maxUInt32]
    omega
  have hpayload : manifestPayload [] v.tables = .ok (manifestTables v) := by
    refine manifestPayload_eq_ok hrecords ?_
    simp only [List.nil_append, kMaximumManifestSize, kManifestHeaderSize]
    omega
  unfold encodeManifest
  dsimp only
  rw [if_neg (by simp [hvalid]), if_neg (by simp [hrep]), if_neg (by simp only [maxUInt32]; omega),
    hpayload]
  dsimp only
  rw [if_neg (by simp only [manifestTables, kMaximumManifestSize, kManifestHeaderSize, maxUInt32]
                 omega)]
  exact ⟨_, rfl⟩

/-- A new database has a MANIFEST. -/
theorem encodeManifest_newDatabase {o : FormatOptions} (h : o.maxKeySize ≠ 0) :
    ∃ b, encodeManifest o Version.newDatabase = .ok b := by
  refine encodeManifest_isOk ⟨?_, ?_, h, ?_, ?_, ?_, ?_⟩ (by decide) (by decide) <;>
    simp [Version.newDatabase, Version.levelOne]

end MiniKV
