import MiniKV.Scan

/-!
# Continuation tokens

A token that `EncodeScanToken` makes for a page of a range is accepted for the
rest of that range, as long as the database has not changed, and gives back the
last key of the page.
-/

namespace MiniKV

/-- The size of a token, with its bounds and the last key of the page. -/
def scanTokenSize (bounds : ScanBounds) (lastKey : Bytes) : Nat :=
  kScanTokenHeaderSize + (bounds.first.length + (bounds.last.getD []).length + lastKey.length)

/-- The bytes of a token. -/
def scanTokenBytes (bounds : ScanBounds) (versionId lastSequence : Nat) (lastKey : Bytes) : Bytes :=
  scanTokenPrefix bounds versionId lastSequence lastKey ++
    (putFixed 4 (crc32c (scanTokenPrefix bounds versionId lastSequence lastKey ++
      scanTokenPayload bounds lastKey)) ++ scanTokenPayload bounds lastKey)

/-- A key at which a page of a range may end. -/
structure ScanBounds.Resumable (bounds : ScanBounds) (o : Options) (key : Bytes) : Prop where
  ne_nil : key ≠ []
  length_le : key.length ≤ o.maxKeySize
  first_le : bounds.first ≤ key
  before_end : bounds.beforeEnd key = true

section

variable {bounds : ScanBounds} {versionId lastSequence : Nat} {lastKey : Bytes}

theorem scanTokenPayload_length : kScanTokenHeaderSize + (scanTokenPayload bounds lastKey).length =
    scanTokenSize bounds lastKey := by
  simp only [scanTokenPayload, scanTokenSize, List.length_append]
  omega

theorem scanTokenPrefix_length :
    (scanTokenPrefix bounds versionId lastSequence lastKey).length = kScanTokenChecksumOffset := by
  simp [scanTokenPrefix, kScanTokenMagic, kScanTokenChecksumOffset]

theorem scanTokenBytes_length : (scanTokenBytes bounds versionId lastSequence lastKey).length =
    scanTokenSize bounds lastKey := by
  rw [← scanTokenPayload_length]
  simp only [scanTokenBytes, List.length_append, scanTokenPrefix_length, putFixed_length,
    kScanTokenHeaderSize, kScanTokenChecksumOffset]
  omega

/-- Every page can have its token, unless the token grows too long. -/
theorem encodeScanToken_eq (hne : lastKey ≠ []) (hfits : scanTokenSize bounds lastKey ≤ maxUInt32) :
    encodeScanToken bounds versionId lastSequence lastKey =
      .ok (scanTokenBytes bounds versionId lastSequence lastKey) := by
  have hempty : lastKey.isEmpty = false := List.isEmpty_eq_false_iff.mpr hne
  have hsize := hfits
  rw [scanTokenSize] at hsize
  unfold encodeScanToken
  rw [if_neg (by simp only [hempty, Bool.false_eq_true, false_or, not_or, not_lt]; omega),
    scanTokenPayload_length, if_neg (not_lt.mpr hfits)]
  rfl

theorem encodeScanToken_error (versionId lastSequence : Nat)
    (hlong : maxUInt32 < scanTokenSize bounds lastKey) :
    ∃ e, encodeScanToken bounds versionId lastSequence lastKey = .error e := by
  unfold encodeScanToken
  split
  · exact ⟨_, rfl⟩
  · rw [scanTokenPayload_length, if_pos hlong]
    exact ⟨_, rfl⟩

/-- The fields of a token are read back. -/
theorem scanTokenBytes_fields (hversion : versionId ≤ maxUInt64)
    (hsequence : lastSequence ≤ maxUInt64) (hfits : scanTokenSize bounds lastKey ≤ maxUInt32) :
    let b := scanTokenBytes bounds versionId lastSequence lastKey
    fieldAt b 6 2 = 0 ∧ fieldAt b 8 4 = scanTokenSize bounds lastKey ∧
      fieldAt b 12 8 = versionId ∧ fieldAt b 20 8 = lastSequence ∧
      fieldAt b 28 4 = bounds.first.length ∧ fieldAt b 32 4 = (bounds.last.getD []).length ∧
      fieldAt b 36 4 = lastKey.length := by
  have hm : kScanTokenMagic.length = 4 := rfl
  have hsize := hfits
  rw [scanTokenSize] at hsize
  simp only [maxUInt32, maxUInt64] at hsize hversion hsequence hfits
  have h1 : bounds.first.length < 256 ^ 4 := by omega
  have h2 : (bounds.last.getD []).length < 256 ^ 4 := by omega
  have h3 : lastKey.length < 256 ^ 4 := by omega
  have h4 : scanTokenSize bounds lastKey < 256 ^ 4 := by omega
  have h5 : versionId < 256 ^ 8 := by omega
  have h6 : lastSequence < 256 ^ 8 := by omega
  have h7 : 0 < 256 ^ 2 := by omega
  simp only [scanTokenBytes, scanTokenPrefix, scanTokenPayload_length, List.append_assoc]
  simp (disch := first | assumption | simp [hm]) only [fieldAt_append, fieldAt_zero, hm,
    putFixed_length, List.length_singleton, Nat.reduceSub, and_self]

/-- A token names its own size. -/
theorem scanTokenBytes_size (hfits : scanTokenSize bounds lastKey ≤ maxUInt32) :
    fieldAt (scanTokenBytes bounds versionId lastSequence lastKey) 8 4 =
      scanTokenSize bounds lastKey := by
  have hm : kScanTokenMagic.length = 4 := rfl
  have hsize : scanTokenSize bounds lastKey < 256 ^ 4 := by
    simp only [maxUInt32] at hfits
    omega
  simp only [scanTokenBytes, scanTokenPrefix, scanTokenPayload_length, List.append_assoc]
  simp (disch := first | assumption | simp [hm]) only [fieldAt_append, fieldAt_zero, hm,
    putFixed_length, List.length_singleton, Nat.reduceSub]

/-- What `EncodeScanToken` accepts, and the token it then makes. -/
theorem encodeScanToken_ok {b : Bytes}
    (h : encodeScanToken bounds versionId lastSequence lastKey = .ok b) :
    scanTokenSize bounds lastKey ≤ maxUInt32 ∧
      b = scanTokenBytes bounds versionId lastSequence lastKey := by
  unfold encodeScanToken at h
  obtain ⟨-, h⟩ := ite_error_eq_ok.mp h
  obtain ⟨hsize, h⟩ := ite_error_eq_ok.mp h
  rw [scanTokenPayload_length] at hsize
  exact ⟨not_lt.mp hsize, (Except.ok.inj h).symm⟩

/-- What is known of a token that was accepted. -/
structure TokenChecked (b : Bytes) (versionId lastSequence : Nat) : Prop where
  header_le : kScanTokenHeaderSize ≤ b.length
  size_eq : fieldAt b 8 4 = b.length
  checksum_eq : crc32c (b.take kScanTokenChecksumOffset ++ b.drop kScanTokenHeaderSize) =
    fieldAt b kScanTokenChecksumOffset 4
  version_eq : fieldAt b 12 8 = versionId
  sequence_eq : fieldAt b 20 8 = lastSequence

theorem decodeScanToken_checked {b key : Bytes} {o : Options}
    (h : decodeScanToken b bounds o versionId lastSequence = .ok key) :
    TokenChecked b versionId lastSequence := by
  unfold decodeScanToken at h
  obtain ⟨hlen, h⟩ := ite_error_eq_ok.mp h
  obtain ⟨-, h⟩ := ite_error_eq_ok.mp h
  dsimp only at h
  obtain ⟨hfields, h⟩ := ite_error_eq_ok.mp h
  obtain ⟨-, h⟩ := ite_error_eq_ok.mp h
  obtain ⟨hcrc, h⟩ := ite_error_eq_ok.mp h
  obtain ⟨-, h⟩ := ite_error_eq_ok.mp h
  obtain ⟨hstale, h⟩ := ite_error_eq_ok.mp h
  simp only [not_or, not_not, not_lt] at hlen hfields hcrc hstale
  exact ⟨hlen, hfields.2.2.2.1, hcrc, hstale.1, hstale.2⟩

theorem decodeScanToken_error {b : Bytes} {o : Options} {e : Status}
    (h : decodeScanToken b bounds o versionId lastSequence = .error e) : e.isOk = false := by
  unfold decodeScanToken at h
  refine of_ite_error h rfl (fun _ h => ?_)
  refine of_ite_error h rfl (fun _ h => ?_)
  dsimp only at h
  refine of_ite_error h rfl (fun _ h => ?_)
  refine of_ite_error h rfl (fun _ h => ?_)
  refine of_ite_error h rfl (fun _ h => ?_)
  refine of_ite_error h rfl (fun _ h => ?_)
  refine of_ite_error h rfl (fun _ h => ?_)
  refine of_ite_error h rfl (fun _ h => ?_)
  · cases h

/-- A token resumes its scan where the page ended. -/
theorem decodeScanToken_encode {o : Options} (hkey : bounds.Resumable o lastKey)
    (hfirst : bounds.first.length ≤ o.maxKeySize)
    (hlast : (bounds.last.getD []).length ≤ o.maxKeySize)
    (hversion : versionId ≤ maxUInt64) (hsequence : lastSequence ≤ maxUInt64)
    (hfits : scanTokenSize bounds lastKey ≤ maxUInt32) :
    decodeScanToken (scanTokenBytes bounds versionId lastSequence lastKey) bounds o versionId
      lastSequence = .ok lastKey := by
  obtain ⟨f6, f8, f12, f20, f28, f32, f36⟩ := scanTokenBytes_fields hversion hsequence hfits
  have hlen : (scanTokenBytes bounds versionId lastSequence lastKey).length =
      scanTokenSize bounds lastKey := scanTokenBytes_length
  have hmagic : (scanTokenBytes bounds versionId lastSequence lastKey).take 4 =
      kScanTokenMagic := rfl
  have hformat : (scanTokenBytes bounds versionId lastSequence lastKey).getD 4 0 =
      kScanTokenFormatVersion := rfl
  have hflags : (scanTokenBytes bounds versionId lastSequence lastKey).getD 5 0 =
      if bounds.last.isSome then kScanTokenHasEnd else 0 := rfl
  have hhead : (scanTokenBytes bounds versionId lastSequence lastKey).take
      kScanTokenChecksumOffset = scanTokenPrefix bounds versionId lastSequence lastKey :=
    List.take_left' scanTokenPrefix_length
  have hchecksum : fieldAt (scanTokenBytes bounds versionId lastSequence lastKey)
      kScanTokenChecksumOffset 4 = crc32c (scanTokenPrefix bounds versionId lastSequence lastKey ++
        scanTokenPayload bounds lastKey) := by
    rw [← @scanTokenPrefix_length bounds versionId lastSequence lastKey]
    exact fieldAt_putFixed (crc32c_lt _)
  have hpayload : (scanTokenBytes bounds versionId lastSequence lastKey).drop
      kScanTokenHeaderSize = scanTokenPayload bounds lastKey := by
    rw [scanTokenBytes, ← List.append_assoc]
    refine List.drop_left' ?_
    rw [List.length_append, scanTokenPrefix_length, putFixed_length]
    rfl
  have hpos := List.length_pos_iff.mpr hkey.ne_nil
  have hle := hkey.length_le
  have hsize : scanTokenSize bounds lastKey = kScanTokenHeaderSize +
      (bounds.first.length + (bounds.last.getD []).length + lastKey.length) := rfl
  have hsome : kScanTokenHasEnd ≠ 0 := by decide
  unfold decodeScanToken
  rw [if_neg (by rw [hlen, hsize]; omega), if_neg (not_not.mpr hmagic)]
  simp only [hformat, hflags, f6, f8, f12, f20, f28, f32, f36, hlen, hhead, hchecksum, hpayload]
  have hends : (decide ((if bounds.last.isSome then kScanTokenHasEnd else 0) = kScanTokenHasEnd) ≠
      bounds.last.isSome) = False := by
    cases bounds.last with
    | none => simp [hsome.symm]
    | some e => simp
  have hnone : ((if bounds.last.isSome then kScanTokenHasEnd else 0) ≠ kScanTokenHasEnd ∧
      (bounds.last.getD []).length ≠ 0) = False := by
    cases bounds.last with
    | none => simp
    | some e => simp
  have hflag : ((if bounds.last.isSome then kScanTokenHasEnd else 0) ≠ 0 ∧
      (if bounds.last.isSome then kScanTokenHasEnd else 0) ≠ kScanTokenHasEnd) = False := by
    cases bounds.last with
    | none => simp
    | some e => simp
  rw [if_neg (by rw [hends, hnone, hflag]; simp only [ne_eq, not_true_eq_false, false_or]; omega),
    if_neg (by rw [hsize]; omega), if_neg (not_not.mpr rfl)]
  have hkeyAt : (((scanTokenPayload bounds lastKey).drop bounds.first.length).drop
      (bounds.last.getD []).length).take lastKey.length = lastKey := by
    rw [scanTokenPayload, List.drop_left, List.drop_left, List.take_length]
  have hrange : ¬ ((scanTokenPayload bounds lastKey).take bounds.first.length ≠ bounds.first ∨
      ((if bounds.last.isSome then kScanTokenHasEnd else 0) = kScanTokenHasEnd ∧
        ((scanTokenPayload bounds lastKey).drop bounds.first.length).take
          (bounds.last.getD []).length ≠ bounds.last.getD [])) := by
    rw [scanTokenPayload, List.take_left, List.drop_left, List.take_left]
    simp
  rw [hkeyAt, if_neg hrange, if_neg (by simp),
    if_neg (by simp [hkey.before_end, not_lt.mpr hkey.first_le])]

end

end MiniKV
