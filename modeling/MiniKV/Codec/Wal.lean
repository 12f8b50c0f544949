import MiniKV.Codec.Coding
import MiniKV.Format

/-!
# The log record codec

`wal.cpp`: a header of 32 bytes, the key and the value, under one checksum.
-/

namespace MiniKV

def kWalMagic : Bytes := [77, 75, 86, 87]
def kWalFormatVersion : Byte := 1

def ValueType.toByte : ValueType → Byte
  | .value => 1
  | .deletion => 2

def ValueType.ofByte (b : Byte) : Option ValueType :=
  if b = 1 then some .value else if b = 2 then some .deletion else none

def walCorrupt (message : String) : Status := .corruption ("WAL record: " ++ message)

/-- The header up to the checksum. -/
def walHeaderPrefix (r : Record) : Bytes :=
  kWalMagic ++ ([kWalFormatVersion] ++ ([r.type.toByte] ++ (putFixed 2 kWalHeaderSize ++
    (putFixed 4 (kWalHeaderSize + (r.key.length + r.value.length)) ++ (putFixed 8 r.sequence ++
      (putFixed 4 r.key.length ++ putFixed 4 r.value.length))))))

/-- `EncodeWalRecord`. A sequence number is a 64-bit field, so one that does not fit
has no encoding. -/
def encodeWalRecord (o : FormatOptions) (r : Record) : Except Status Bytes :=
  let validation := validateWalRecord o r
  if !validation.isOk then .error validation
  else if maxUInt32 - kWalHeaderSize < r.key.length + r.value.length ∨ maxUInt64 < r.sequence then
    .error (.invalidArgument "WAL record cannot fit in the file format")
  else
    let payload := r.key ++ r.value
    .ok (walHeaderPrefix r ++ (putFixed 4 (crc32c (walHeaderPrefix r ++ payload)) ++ payload))

structure WalHeader where
  type : ValueType
  recordSize : Nat
  sequence : Nat
  keySize : Nat
  valueSize : Nat
  checksum : Nat
  deriving DecidableEq, Repr

/-- The fields of a header whose fixed bytes are right. -/
def walHeaderFields (o : FormatOptions) (input : Bytes) (type : ValueType) :
    Except Status WalHeader :=
  let h : WalHeader := {
    type := type
    recordSize := fieldAt input 8 4
    sequence := fieldAt input 12 8
    keySize := fieldAt input 20 4
    valueSize := fieldAt input 24 4
    checksum := fieldAt input 28 4 }
  if fieldAt input 6 2 ≠ kWalHeaderSize then .error (walCorrupt "header size is invalid")
  else if h.sequence = 0 then .error (walCorrupt "sequence number is zero")
  else
    let lengths := validateLengths o h.keySize h.valueSize type
    if !lengths.isOk then .error (walCorrupt lengths.message)
    else if h.recordSize ≠ kWalHeaderSize + (h.keySize + h.valueSize) then
      .error (walCorrupt "record size does not match key and value lengths")
    else .ok h

/-- `DecodeWalRecordHeader` -/
def decodeWalHeader (o : FormatOptions) (input : Bytes) : Except Status WalHeader :=
  if input.length < kWalHeaderSize then .error (.incomplete "WAL record header is incomplete")
  else if input.take 4 ≠ kWalMagic then .error (walCorrupt "magic does not match")
  else if input.getD 4 0 ≠ kWalFormatVersion then
    .error (walCorrupt "format version is unsupported")
  else match ValueType.ofByte (input.getD 5 0) with
    | none => .error (walCorrupt "record type is invalid")
    | some type => walHeaderFields o input type

/-- `DecodeWalRecord`: the bytes consumed and the record. -/
def decodeWalRecord (o : FormatOptions) (input : Bytes) : Except Status (Nat × Record) :=
  match decodeWalHeader o input with
  | .error e => .error e
  | .ok h =>
    if input.length < h.recordSize then
      .error (.incomplete "WAL record payload is incomplete")
    else
      let payload := (input.drop kWalHeaderSize).take (h.recordSize - kWalHeaderSize)
      if crc32c (input.take 28 ++ payload) ≠ h.checksum then .error (walCorrupt "checksum mismatch")
      else .ok (h.recordSize,
        { key := payload.take h.keySize
          sequence := h.sequence
          type := h.type
          value := (payload.drop h.keySize).take h.valueSize })

/-! ## Headers -/

theorem ValueType.ofByte_toByte (t : ValueType) : ValueType.ofByte t.toByte = some t := by
  cases t <;> rfl

theorem ValueType.toByte_ofByte {b : Byte} {t : ValueType} (h : ValueType.ofByte b = some t) :
    t.toByte = b := by
  unfold ValueType.ofByte at h
  split at h
  · rename_i hb
    rw [← Option.some.inj h, hb]
    rfl
  · split at h
    · rename_i hb
      rw [← Option.some.inj h, hb]
      rfl
    · cases h

/-- The bytes of a header up to its checksum. -/
def WalHeader.bytes (h : WalHeader) : Bytes :=
  kWalMagic ++ ([kWalFormatVersion] ++ ([h.type.toByte] ++ (putFixed 2 kWalHeaderSize ++
    (putFixed 4 h.recordSize ++ (putFixed 8 h.sequence ++
      (putFixed 4 h.keySize ++ putFixed 4 h.valueSize))))))

/-- A header that the codec accepts. -/
structure WalHeader.Accepted (o : FormatOptions) (h : WalHeader) : Prop where
  sequence_ne : h.sequence ≠ 0
  sequence_le : h.sequence ≤ maxUInt64
  lengths : (validateLengths o h.keySize h.valueSize h.type).isOk = true
  size_eq : h.recordSize = kWalHeaderSize + (h.keySize + h.valueSize)
  size_le : h.recordSize ≤ maxUInt32
  checksum_lt : h.checksum < 256 ^ 4

@[simp] theorem WalHeader.bytes_length (h : WalHeader) : h.bytes.length = 28 := by
  simp [WalHeader.bytes, kWalMagic]

/-- What was encoded as a header is decoded as one, whatever follows it. -/
theorem decodeWalHeader_bytes {o : FormatOptions} {h : WalHeader} (ha : h.Accepted o) (s : Bytes) :
    decodeWalHeader o (h.bytes ++ (putFixed 4 h.checksum ++ s)) = .ok h := by
  have hsize := ha.size_le
  have hseq := ha.sequence_le
  have heq := ha.size_eq
  simp only [maxUInt32, maxUInt64, kWalHeaderSize] at hsize hseq heq
  have hk : h.keySize < 256 ^ 4 := by omega
  have hv : h.valueSize < 256 ^ 4 := by omega
  have hr : h.recordSize < 256 ^ 4 := by omega
  have hq : h.sequence < 256 ^ 8 := by omega
  have h2 : kWalHeaderSize < 256 ^ 2 := by decide
  have hlen : ¬ (h.bytes ++ (putFixed 4 h.checksum ++ s)).length < kWalHeaderSize := by
    simp [kWalHeaderSize]
    omega
  unfold decodeWalHeader
  rw [if_neg hlen]
  simp only [WalHeader.bytes, List.append_assoc]
  rw [if_neg (by simp [kWalMagic]), if_neg (by simp [kWalMagic, kWalFormatVersion])]
  have htype : (kWalMagic ++ ([kWalFormatVersion] ++ ([h.type.toByte] ++ (putFixed 2 kWalHeaderSize ++
      (putFixed 4 h.recordSize ++ (putFixed 8 h.sequence ++ (putFixed 4 h.keySize ++
        (putFixed 4 h.valueSize ++ (putFixed 4 h.checksum ++ s))))))))).getD 5 0 = h.type.toByte := by
    simp [kWalMagic]
  rw [htype, ValueType.ofByte_toByte]
  have hm : kWalMagic.length = 4 := rfl
  -- every field is read behind the bytes before it
  have hc := ha.checksum_lt
  simp (disch := first | assumption | simp [hm]) only [walHeaderFields,
    fieldAt_append, fieldAt_zero, hm, putFixed_length, List.length_singleton, Nat.reduceSub]
  rw [if_neg (by simp), if_neg ha.sequence_ne, if_neg (by simp [ha.lengths]),
    if_neg (by simp [ha.size_eq])]

/-- A header that is accepted is the encoding of its fields. -/
theorem decodeWalHeader_ok {o : FormatOptions} {input : Bytes} {h : WalHeader}
    (hd : decodeWalHeader o input = .ok h) :
    h.Accepted o ∧ input = h.bytes ++ (putFixed 4 h.checksum ++ input.drop kWalHeaderSize) := by
  unfold decodeWalHeader at hd
  obtain ⟨hlen, hd⟩ := ite_error_eq_ok.mp hd
  obtain ⟨hmagic, hd⟩ := ite_error_eq_ok.mp hd
  obtain ⟨hversion, hd⟩ := ite_error_eq_ok.mp hd
  split at hd
  · cases hd
  rename_i type htype
  simp only [walHeaderFields] at hd
  obtain ⟨hsize, hd⟩ := ite_error_eq_ok.mp hd
  obtain ⟨hseq, hd⟩ := ite_error_eq_ok.mp hd
  obtain ⟨hlengths, hd⟩ := ite_error_eq_ok.mp hd
  obtain ⟨hrecord, hd⟩ := ite_error_eq_ok.mp hd
  obtain rfl := Except.ok.inj hd
  simp only [not_lt, not_not, Bool.not_eq_true', Bool.not_eq_false, kWalHeaderSize]
    at hlen hmagic hversion hsize hseq hlengths hrecord
  have hlt := fieldAt_lt input 8 4
  refine ⟨⟨hseq, ?_, hlengths, hrecord, ?_, fieldAt_lt input 28 4⟩, ?_⟩
  · have := fieldAt_lt input 12 8
    simp only [maxUInt64]
    omega
  · simp only [maxUInt32]
    omega
  · have hstart : input = kWalMagic ++ input.drop 4 := by
      rw [← hmagic, List.take_append_drop]
    have htypeByte := ValueType.toByte_ofByte htype
    simp only [WalHeader.bytes, List.append_assoc, kWalHeaderSize]
    rw [htypeByte, ← hversion]
    conv_lhs => rw [hstart, drop_eq_byte (by omega), drop_eq_byte (by omega),
      drop_eq_field 2 (by omega), hsize, drop_eq_field 4 (by omega),
      drop_eq_field 8 (by omega), drop_eq_field 4 (by omega),
      drop_eq_field 4 (by omega), drop_eq_field 4 (by omega)]

/-- Only the bytes of the header decide about it. -/
theorem decodeWalHeader_take {o : FormatOptions} {input : Bytes} {h : WalHeader} :
    decodeWalHeader o (input.take kWalHeaderSize) = .ok h ↔ decodeWalHeader o input = .ok h := by
  constructor
  · intro hd
    obtain ⟨ha, he⟩ := decodeWalHeader_ok hd
    rw [← List.take_append_drop kWalHeaderSize input, he, List.append_assoc, List.append_assoc]
    exact decodeWalHeader_bytes ha _
  · intro hd
    obtain ⟨ha, he⟩ := decodeWalHeader_ok hd
    have hlen : (h.bytes ++ putFixed 4 h.checksum).length = kWalHeaderSize := by
      simp [kWalHeaderSize]
    have ht : input.take kWalHeaderSize = h.bytes ++ (putFixed 4 h.checksum ++ []) := by
      rw [he, ← List.append_assoc, ← hlen, List.take_left, List.append_nil]
    rw [ht]
    exact decodeWalHeader_bytes ha []

theorem WalHeader.Accepted.header_le {o : FormatOptions} {h : WalHeader} (ha : h.Accepted o) :
    kWalHeaderSize < h.recordSize := by
  have hk := (validateLengths_isOk.mp ha.lengths).1
  rw [ha.size_eq]
  omega

/-! ## Records -/

/-- The header that a record is encoded under. -/
def Record.walHeader (r : Record) : WalHeader where
  type := r.type
  recordSize := kWalHeaderSize + (r.key.length + r.value.length)
  sequence := r.sequence
  keySize := r.key.length
  valueSize := r.value.length
  checksum := crc32c (walHeaderPrefix r ++ (r.key ++ r.value))

theorem Record.walHeader_bytes (r : Record) : r.walHeader.bytes = walHeaderPrefix r := rfl

theorem Record.walHeader_recordSize (r : Record) : r.walHeader.recordSize = r.walSize := by
  simp only [Record.walHeader, Record.walSize]
  omega

/-- The bytes a record is written as. -/
def Record.encoding (r : Record) : Bytes :=
  r.walHeader.bytes ++ (putFixed 4 r.walHeader.checksum ++ (r.key ++ r.value))

@[simp] theorem Record.encoding_length (r : Record) : r.encoding.length = r.walSize := by
  simp only [Record.encoding, List.length_append, WalHeader.bytes_length, putFixed_length,
    Record.walSize, kWalHeaderSize]
  omega

/-- The records that have an encoding, and the encoding. -/
theorem encodeWalRecord_eq_ok {o : FormatOptions} {r : Record} {b : Bytes} :
    encodeWalRecord o r = .ok b ↔
      r.Valid o ∧ r.walSize ≤ maxUInt32 ∧ r.sequence ≤ maxUInt64 ∧ b = r.encoding := by
  unfold encodeWalRecord
  dsimp only
  split
  · rename_i hv
    rw [Bool.not_eq_true'] at hv
    constructor
    · intro h
      cases h
    · intro h
      rw [validateWalRecord_isOk.mpr h.1] at hv
      cases hv
  rename_i hv
  have hvalid : r.Valid o := validateWalRecord_isOk.mp (by simpa using hv)
  split
  · rename_i hfit
    constructor
    · intro h
      cases h
    · intro h
      have h1 := h.2.1
      have h2 := h.2.2.1
      simp only [Record.walSize, kWalHeaderSize, maxUInt32] at h1 hfit
      omega
  rename_i hfit
  constructor
  · intro h
    refine ⟨hvalid, ?_, by omega, (Except.ok.inj h).symm⟩
    simp only [Record.walSize, kWalHeaderSize, maxUInt32] at hfit ⊢
    omega
  · intro h
    rw [h.2.2.2]
    rfl

/-- `EncodeWalRecord` refuses with `InvalidArgument`. -/
theorem encodeWalRecord_error {o : FormatOptions} {r : Record} {e : Status}
    (h : encodeWalRecord o r = .error e) : e.code = .invalidArgument := by
  unfold encodeWalRecord at h
  dsimp only at h
  split at h
  · rename_i hv
    rw [← Except.error.inj h]
    exact (validateWalRecord_code o r).resolve_left (by simpa using hv)
  split at h
  · rw [← Except.error.inj h]
    rfl
  · cases h

theorem encodeWalRecord_accepted {o : FormatOptions} {r : Record} {b : Bytes}
    (h : encodeWalRecord o r = .ok b) : r.walHeader.Accepted o := by
  obtain ⟨hv, hsize, hseq, -⟩ := encodeWalRecord_eq_ok.mp h
  have hpos := hv.sequence_pos
  refine ⟨fun h0 => ?_, hseq, ?_, rfl, ?_, crc32c_lt _⟩
  · simp only [Record.walHeader] at h0
    omega
  · refine validateLengths_isOk.mpr ⟨hv.key_pos, hv.key_le, hv.value_le, hv.key_word,
      hv.value_word, fun ht => ?_⟩
    simp only [Record.walHeader] at ht ⊢
    rw [hv.deletion ht]
    rfl
  · simp only [Record.walSize, Record.walHeader] at hsize ⊢
    omega

theorem encodeWalRecord_length {o : FormatOptions} {r : Record} {b : Bytes}
    (h : encodeWalRecord o r = .ok b) : b.length = r.walSize := by
  obtain ⟨-, -, -, rfl⟩ := encodeWalRecord_eq_ok.mp h
  exact r.encoding_length

/-- An encoding announces its own length. -/
theorem decodeWalHeader_encode {o : FormatOptions} {r : Record} {b : Bytes}
    (h : encodeWalRecord o r = .ok b) (s : Bytes) :
    decodeWalHeader o (b ++ s) = .ok r.walHeader := by
  have ha := encodeWalRecord_accepted h
  obtain ⟨-, -, -, rfl⟩ := encodeWalRecord_eq_ok.mp h
  rw [Record.encoding, List.append_assoc, List.append_assoc]
  exact decodeWalHeader_bytes ha _

/-- What was encoded is decoded, whatever follows it. -/
theorem decodeWalRecord_encode {o : FormatOptions} {r : Record} {b : Bytes}
    (h : encodeWalRecord o r = .ok b) (s : Bytes) :
    decodeWalRecord o (b ++ s) = .ok (b.length, r) := by
  have hlen := encodeWalRecord_length h
  have hsize : r.walHeader.recordSize = b.length := by rw [hlen, r.walHeader_recordSize]
  unfold decodeWalRecord
  rw [decodeWalHeader_encode h s]
  dsimp only
  rw [hsize, if_neg (by rw [List.length_append]; omega)]
  have hb := (encodeWalRecord_eq_ok.mp h).2.2.2
  rw [Record.encoding] at hb
  have hstart : (r.walHeader.bytes ++ putFixed 4 r.walHeader.checksum).length = kWalHeaderSize := by
    simp [kWalHeaderSize]
  have hdrop : (b ++ s).drop kWalHeaderSize = (r.key ++ r.value) ++ s := by
    rw [hb, ← List.append_assoc, List.append_assoc, ← hstart, List.drop_left]
  have hpayload : ((b ++ s).drop kWalHeaderSize).take (b.length - kWalHeaderSize) =
      r.key ++ r.value := by
    rw [hdrop]
    refine List.take_left' ?_
    simp only [hlen, Record.walSize, List.length_append]
    omega
  have htake : (b ++ s).take 28 = r.walHeader.bytes := by
    rw [hb, List.append_assoc]
    exact List.take_left' (by simp)
  rw [hpayload, htake, if_neg (by rw [r.walHeader_bytes]; simp [Record.walHeader])]
  simp [Record.walHeader]

/-- The record a header and its payload make. -/
def WalHeader.record (h : WalHeader) (payload : Bytes) : Record where
  key := payload.take h.keySize
  sequence := h.sequence
  type := h.type
  value := payload.drop h.keySize

theorem WalHeader.Accepted.encodeWalRecord_record {o : FormatOptions} {h : WalHeader}
    {payload : Bytes} (ha : h.Accepted o) (hlen : payload.length = h.keySize + h.valueSize)
    (hcrc : crc32c (h.bytes ++ payload) = h.checksum) :
    encodeWalRecord o (h.record payload) = .ok (h.bytes ++ (putFixed 4 h.checksum ++ payload)) := by
  have hsize := ha.size_eq
  have hle := ha.size_le
  have hkey : (h.record payload).key.length = h.keySize := by
    simp only [WalHeader.record, List.length_take]
    omega
  have hvalue : (h.record payload).value.length = h.valueSize := by
    simp only [WalHeader.record, List.length_drop]
    omega
  have hpayload : (h.record payload).key ++ (h.record payload).value = payload :=
    List.take_append_drop _ _
  have hbytes : walHeaderPrefix (h.record payload) = h.bytes := by
    rw [walHeaderPrefix, WalHeader.bytes, hkey, hvalue, hsize]
    rfl
  have hheader : (h.record payload).walHeader = h := by
    rw [Record.walHeader, hbytes, hpayload, hcrc, hkey, hvalue, ← hsize]
    rfl
  obtain ⟨hk0, hk1, hv1, hk2, hv2, hdel⟩ := validateLengths_isOk.mp ha.lengths
  refine encodeWalRecord_eq_ok.mpr ⟨⟨?_, ?_, ?_, ?_, ?_, ?_, ?_⟩, ?_, ha.sequence_le, ?_⟩
  · exact Nat.pos_of_ne_zero ha.sequence_ne
  · rwa [hkey]
  · rwa [hkey]
  · rwa [hvalue]
  · rwa [hkey]
  · rwa [hvalue]
  · intro ht
    exact List.length_eq_zero_iff.mp (hvalue.trans (hdel ht))
  · simp only [Record.walSize, hkey, hvalue]
    omega
  · rw [Record.encoding, hheader, hpayload]

/-- A record that is accepted is the decoding of its own encoding, which the input
starts with. -/
theorem decodeWalRecord_ok {o : FormatOptions} {input : Bytes} {n : Nat} {r : Record}
    (hd : decodeWalRecord o input = .ok (n, r)) :
    encodeWalRecord o r = .ok (input.take n) ∧ n ≤ input.length := by
  unfold decodeWalRecord at hd
  split at hd
  · cases hd
  rename_i h hh
  obtain ⟨ha, he⟩ := decodeWalHeader_ok hh
  have hsize := ha.size_eq
  have hheader := ha.header_le
  obtain ⟨hlen, hd⟩ := ite_error_eq_ok.mp hd
  dsimp only at hd
  obtain ⟨hcrc, hd⟩ := ite_error_eq_ok.mp hd
  obtain ⟨rfl, rfl⟩ := Prod.mk.inj (Except.ok.inj hd)
  rw [not_not] at hcrc
  set payload := (input.drop kWalHeaderSize).take (h.recordSize - kWalHeaderSize) with hp
  have hplen : payload.length = h.keySize + h.valueSize := by
    rw [hp, List.length_take, List.length_drop]
    omega
  have hvalue : (payload.drop h.keySize).take h.valueSize = payload.drop h.keySize :=
    List.take_of_length_le (by rw [List.length_drop]; omega)
  have hstart : input.take 28 = h.bytes := by
    rw [he]
    exact List.take_left' (by simp)
  have htake : input.take h.recordSize = h.bytes ++ (putFixed 4 h.checksum ++ payload) := by
    have hfirst : (h.bytes ++ putFixed 4 h.checksum).length = kWalHeaderSize := by
      simp [kWalHeaderSize]
    conv_lhs => rw [he, ← List.append_assoc, List.take_append, hfirst]
    rw [List.take_of_length_le (by rw [hfirst]; omega), List.append_assoc]
  rw [hstart] at hcrc
  rw [hvalue, htake]
  exact ⟨ha.encodeWalRecord_record hplen hcrc, not_lt.mp hlen⟩

/-- A record takes as many bytes as its header announces. -/
theorem decodeWalRecord_header {o : FormatOptions} {input : Bytes} {n : Nat} {r : Record}
    (hd : decodeWalRecord o input = .ok (n, r)) :
    ∃ h, decodeWalHeader o input = .ok h ∧ h.recordSize = n := by
  unfold decodeWalRecord at hd
  split at hd
  · cases hd
  rename_i h hh
  split at hd
  · cases hd
  dsimp only at hd
  obtain ⟨-, hd⟩ := ite_error_eq_ok.mp hd
  exact ⟨h, hh, (Prod.mk.inj (Except.ok.inj hd)).1⟩

/-- The header of an encoding that is cut short is not there, or announces more bytes
than there are. -/
theorem decodeWalRecord_cut {o : FormatOptions} {r : Record} {b p : Bytes}
    (h : encodeWalRecord o r = .ok b) (hp : p <+: b) (hne : p ≠ b) :
    ∃ e, decodeWalRecord o p = .error e ∧ e.code = .incomplete := by
  obtain ⟨t, rfl⟩ := hp
  have hlt : p.length < r.walHeader.recordSize := by
    have hpos : 0 < t.length := List.length_pos_iff.mpr (fun ht => hne (by rw [ht, List.append_nil]))
    rw [r.walHeader_recordSize, ← encodeWalRecord_length h, List.length_append]
    omega
  unfold decodeWalRecord
  by_cases hshort : p.length < kWalHeaderSize
  · refine ⟨.incomplete "WAL record header is incomplete", ?_, rfl⟩
    rw [decodeWalHeader, if_pos hshort]
  · have hheader : decodeWalHeader o p = .ok r.walHeader := by
      have hwhole := decodeWalHeader_encode h []
      rwa [List.append_nil, ← decodeWalHeader_take,
        List.take_append_of_le_length (not_lt.mp hshort), decodeWalHeader_take] at hwhole
    refine ⟨.incomplete "WAL record payload is incomplete", ?_, rfl⟩
    rw [hheader]
    dsimp only
    rw [if_pos hlt]

/-- The codec of log records is canonical, and no encoding is read from a part of it: what
was encoded is decoded whatever follows it, an encoding that is cut short is incomplete,
and what is accepted is the encoding of the record that is returned. -/
theorem walRecord_codec (o : FormatOptions) :
    (∀ r, (validateWalRecord o r).isOk = true → r.walSize ≤ maxUInt32 → r.sequence ≤ maxUInt64 →
      ∃ b, encodeWalRecord o r = .ok b ∧
        (∀ s, decodeWalRecord o (b ++ s) = .ok (b.length, r)) ∧
        ∀ p, p <+: b → p ≠ b → ∃ e, decodeWalRecord o p = .error e ∧ e.code = .incomplete) ∧
    (∀ x n r, decodeWalRecord o x = .ok (n, r) →
      (validateWalRecord o r).isOk = true ∧ encodeWalRecord o r = .ok (x.take n) ∧
        0 < n ∧ n ≤ x.length) := by
  refine ⟨fun r hv hsize hseq => ?_, fun x n r hd => ?_⟩
  · have h : encodeWalRecord o r = .ok r.encoding :=
      encodeWalRecord_eq_ok.mpr ⟨validateWalRecord_isOk.mp hv, hsize, hseq, rfl⟩
    exact ⟨_, h, decodeWalRecord_encode h, fun p hp hne => decodeWalRecord_cut h hp hne⟩
  · obtain ⟨h, hle⟩ := decodeWalRecord_ok hd
    obtain ⟨header, hheader, rfl⟩ := decodeWalRecord_header hd
    have hpos := (decodeWalHeader_ok hheader).1.header_le
    exact ⟨validateWalRecord_isOk.mpr (encodeWalRecord_eq_ok.mp h).1, h, by omega, hle⟩

end MiniKV
