import MiniKV.Codec.Lawful
import MiniKV.Storage.Log

/-!
# Replaying a log file

`RecoverWal` on a `RecoveryFile`, read by read: a read may be interrupted or come
back short any number of times. What recovery makes of a file depends on its
bytes alone, and it accepts exactly the logs: encodings of records with
increasing sequence numbers, and an incomplete end.
-/

namespace MiniKV

/-! ## Reading -/

/-- How an attempt to read goes, when it meets no error. -/
inductive ReadAttempt where
  | interrupted
  /-- At most this many bytes after the first one. -/
  | short (more : Nat)
  deriving DecidableEq, Repr

inductive ReadResult where
  | read (data : Bytes)
  | endOfFile
  | interrupted
  | error (status : Status)
  deriving DecidableEq, Repr

/-- A file and how the next reads of it will go; reads after those are complete. The size
of a file is a 64-bit number. -/
structure RecoveryFile where
  content : Bytes
  attempts : List ReadAttempt
  fits : content.length ≤ maxUInt64

namespace RecoveryFile

/-- The bytes of a region, or the end of the file. -/
def readUpTo (f : RecoveryFile) (offset size : Nat) : ReadResult :=
  let data := (f.content.drop offset).take size
  if size = 0 then .read [] else if data.isEmpty then .endOfFile else .read data

/-- `RecoveryFile::ReadSome` -/
def readSome (f : RecoveryFile) (offset size : Nat) : ReadResult × RecoveryFile :=
  match f.attempts with
  | [] => (f.readUpTo offset size, f)
  | .interrupted :: rest => (.interrupted, { f with attempts := rest })
  | .short more :: rest => (f.readUpTo offset (min size (more + 1)), { f with attempts := rest })

/-- What `ReadAllAt` makes of one read: an error, or the bytes it then has. -/
def acceptRead (size : Nat) (data : Bytes) : ReadResult → Except Status Bytes
  | .interrupted => .ok data
  | .endOfFile => .error (.incomplete "unexpected EOF while reading")
  | .error status => .error (if status.isOk then .ioError "read failed without an error" else status)
  | .read more =>
    if more.isEmpty then .error (.ioError "read made no progress")
    else if size - data.length < more.length then .error (.ioError "read reported too many bytes")
    else .ok (data ++ more)

/-- The loop of `ReadAllAt`, with the bytes read so far. Every attempt takes one off the
script or adds a byte, so their number is fuel enough. -/
def readAllAtLoop (offset size : Nat) :
    Nat → Bytes → RecoveryFile → Except Status Bytes × RecoveryFile
  | 0, _, f => (.error (.ioError "read is unfinished"), f)
  | fuel + 1, data, f =>
    if size ≤ data.length then (.ok data, f)
    else if maxUInt64 - data.length < offset then (.error (.ioError "read offset overflows"), f)
    else
      let (result, f) := f.readSome (offset + data.length) (size - data.length)
      match acceptRead size data result with
      | .error e => (.error e, f)
      | .ok data => readAllAtLoop offset size fuel data f

/-- `ReadAllAt` -/
def readAllAt (f : RecoveryFile) (offset size : Nat) : Except Status Bytes × RecoveryFile :=
  readAllAtLoop offset size (f.attempts.length + size + 1) [] f

/-- `RecoveryFile::Truncate`, which recovery never calls to extend a file. The `Sync`
behind it does not show in the contents. -/
def truncate (f : RecoveryFile) (size : Nat) : RecoveryFile where
  content := f.content.take size
  attempts := f.attempts
  fits := (List.length_take_le' _ _).trans f.fits

/-- What is left of the script after some reads. -/
abbrev after (f : RecoveryFile) (rest : List ReadAttempt) : RecoveryFile :=
  { f with attempts := rest }

theorem readUpTo_eq {f : RecoveryFile} {offset size : Nat} (hpos : 0 < size)
    (h : offset + size ≤ f.content.length) :
    f.readUpTo offset size = .read ((f.content.drop offset).take size) := by
  have hlen : ((f.content.drop offset).take size).length = size := by
    rw [List.length_take, List.length_drop]
    omega
  have hne : ((f.content.drop offset).take size).isEmpty = false := by
    rw [List.isEmpty_eq_false_iff, ← List.length_pos_iff]
    omega
  simp [readUpTo, hpos.ne', hne]

/-- A read within the file adds the bytes that come next. -/
theorem acceptRead_readUpTo (f : RecoveryFile) (offset : Nat) {size n : Nat} {data : Bytes}
    (hpos : 0 < n) (hn : n ≤ size - data.length)
    (h : offset + data.length + n ≤ f.content.length) :
    acceptRead size data (f.readUpTo (offset + data.length) n) =
      .ok (data ++ (f.content.drop (offset + data.length)).take n) := by
  have hlen : ((f.content.drop (offset + data.length)).take n).length = n := by
    rw [List.length_take, List.length_drop]
    omega
  rw [readUpTo_eq hpos h, acceptRead]
  rw [if_neg (by rw [List.isEmpty_iff, ← List.length_eq_zero_iff]; omega), if_neg (by omega)]

/-- However the reads go, a region that is there is read. -/
theorem readAllAtLoop_eq {offset size fuel n : Nat} {f : RecoveryFile}
    (hregion : offset + size ≤ f.content.length) (hn : n ≤ size)
    (hfuel : f.attempts.length + (size - n) < fuel) :
    ∃ rest, readAllAtLoop offset size fuel ((f.content.drop offset).take n) f =
      (.ok ((f.content.drop offset).take size), f.after rest) := by
  induction fuel generalizing n f with
  | zero => omega
  | succ fuel ih =>
    have hfits := f.fits
    have hlen : ((f.content.drop offset).take n).length = n := by
      rw [List.length_take, List.length_drop]
      omega
    rw [readAllAtLoop, hlen]
    by_cases hdone : size ≤ n
    · have hsize : n = size := by omega
      rw [if_pos hdone, hsize]
      exact ⟨f.attempts, rfl⟩
    rw [if_neg hdone, if_neg (by omega)]
    have hgrow : ∀ k, 0 < k → k ≤ size - n →
        acceptRead size ((f.content.drop offset).take n) (f.readUpTo (offset + n) k) =
          .ok ((f.content.drop offset).take (n + k)) := by
      intro k hk hle
      have hroom : k ≤ size - ((f.content.drop offset).take n).length := by rwa [hlen]
      have h := acceptRead_readUpTo f offset hk hroom (by rw [hlen]; omega)
      rw [hlen] at h
      rw [h, List.take_add, List.drop_drop]
    unfold readSome
    cases hattempts : f.attempts with
    | nil =>
      rw [hattempts, List.length_nil] at hfuel
      dsimp only
      rw [hgrow (size - n) (by omega) (le_refl _)]
      exact ih hregion (by omega) (by rw [hattempts, List.length_nil]; omega)
    | cons attempt rest =>
      rw [hattempts, List.length_cons] at hfuel
      cases attempt with
      | interrupted => exact ih (f := f.after rest) hregion hn (by show rest.length + _ < _; omega)
      | short more =>
        dsimp only
        rw [hgrow (min (size - n) (more + 1)) (by omega) (by omega)]
        exact ih (f := f.after rest) hregion (by omega) (by show rest.length + _ < _; omega)

theorem readAllAt_eq {f : RecoveryFile} {offset size : Nat}
    (h : offset + size ≤ f.content.length) :
    ∃ rest, f.readAllAt offset size = (.ok ((f.content.drop offset).take size), f.after rest) :=
  readAllAtLoop_eq h (Nat.zero_le _) (by omega)

/-! ## Recovering -/

/-- `TruncateIncompleteTail`, and the return that follows it everywhere. -/
def truncateIncompleteTail (f : RecoveryFile) (fileSize validBytes : Nat) (recovered : MemTable)
    (result : WalRecoveryResult) :
    Except Status (MemTable × WalRecoveryResult) × RecoveryFile :=
  (.ok (recovered, { result with
      validBytes := validBytes
      discardedTailBytes := fileSize - validBytes
      tailTruncated := true }), f.truncate validBytes)

/-- The loop of `RecoverWal`. Every record takes bytes, so the size of the file is fuel
enough. -/
def recoverWalLoop (o : FormatOptions) (fileSize : Nat) :
    Nat → Nat → MemTable → WalRecoveryResult → RecoveryFile →
      Except Status (MemTable × WalRecoveryResult) × RecoveryFile
  | 0, _, _, _, f => (.error (.ioError "recovery is unfinished"), f)
  | fuel + 1, offset, recovered, result, f =>
    if fileSize ≤ offset then (.ok (recovered, result), f)
    else
      let remaining := fileSize - offset
      if remaining < kWalHeaderSize then
        f.truncateIncompleteTail fileSize offset recovered result
      else match f.readAllAt offset kWalHeaderSize with
        | (.error e, f) =>
          if e.isIncomplete then f.truncateIncompleteTail fileSize offset recovered result
          else (.error e, f)
        | (.ok header, f) =>
          match decodeWalHeader o header with
          | .error e => (.error (recoveryCorruption offset e.toString), f)
          | .ok h =>
            if remaining < h.recordSize then
              f.truncateIncompleteTail fileSize offset recovered result
            else match f.readAllAt offset h.recordSize with
              | (.error e, f) =>
                if e.isIncomplete then f.truncateIncompleteTail fileSize offset recovered result
                else (.error e, f)
              | (.ok encoded, f) =>
                match decodeWalRecord o encoded with
                | .error e => (.error (recoveryCorruption offset e.toString), f)
                | .ok (_, r) =>
                  if r.sequence ≤ result.maxSequence then
                    (.error (recoveryCorruption offset
                      "sequence numbers are not strictly increasing"), f)
                  else match recovered.applyRecord o r with
                    | .error e =>
                      (.error (recoveryCorruption offset
                        ("record cannot be applied: " ++ e.toString)), f)
                    | .ok recovered =>
                      if result.recordsRecovered = maxUInt64 then
                        (.error (.corruption "WAL recovery record count overflows size_t"), f)
                      else recoverWalLoop o fileSize fuel (offset + h.recordSize) recovered
                        { result.push r h.recordSize with validBytes := offset + h.recordSize } f

/-- What a call of `RecoverWal` leaves behind: its status, the two outputs and the file. -/
structure Run where
  status : Status
  memtable : MemTable
  result : WalRecoveryResult
  file : RecoveryFile

/-- `RecoverWal`. The outputs keep their values unless all of it succeeds. -/
def recoverWal (o : FormatOptions) (f : RecoveryFile) (memtable : MemTable)
    (result : WalRecoveryResult) : Run :=
  match recoverWalLoop o f.content.length (f.content.length + 1) 0 .empty {} f with
  | (.ok (recovered, recoveredResult), f) => ⟨.ok, recovered, recoveredResult, f⟩
  | (.error e, f) => ⟨e, memtable, result, f⟩

/-- A file after the replay of its bytes has come to a result. -/
def settle (f : RecoveryFile) : Except Status (MemTable × WalRecoveryResult × Bool) →
    Except Status (MemTable × WalRecoveryResult) × RecoveryFile
  | .error e => (.error e, f)
  | .ok (m, result, false) => (.ok (m, result), f)
  | .ok (m, result, true) =>
    f.truncateIncompleteTail f.content.length result.validBytes m result

/-- Recovery of a file is the replay of its bytes, however the reads go. -/
theorem recoverWalLoop_eq (shape : BloomShape) {o : FormatOptions} {n offset : Nat}
    {m : MemTable} {result : WalRecoveryResult} {f : RecoveryFile}
    (hoffset : offset ≤ f.content.length) (hn : f.content.length - offset ≤ n)
    (hvalid : result.validBytes = offset) :
    ∃ rest, recoverWalLoop o f.content.length (n + 1) offset m result f =
      (f.after rest).settle
        (recoverLoop (fileFormat shape) o n (f.content.drop offset) m result) := by
  induction n generalizing offset m result f with
  | zero =>
    have hend : f.content.length ≤ offset := by omega
    refine ⟨f.attempts, ?_⟩
    rw [recoverWalLoop, if_pos hend, recoverLoop, List.drop_eq_nil_of_le hend]
    rfl
  | succ n ih =>
    have hrem : (f.content.drop offset).length = f.content.length - offset := List.length_drop
    rw [recoverWalLoop, recoverLoop]
    by_cases hend : f.content.length ≤ offset
    · refine ⟨f.attempts, ?_⟩
      rw [if_pos hend, List.drop_eq_nil_of_le hend]
      rfl
    have hne : (f.content.drop offset).isEmpty = false := by
      rw [List.isEmpty_eq_false_iff, ← List.length_pos_iff]
      omega
    rw [if_neg hend, hrem, hvalid]
    simp only [hne, Bool.false_eq_true, if_false]
    by_cases hshort : f.content.length - offset < kWalHeaderSize
    · refine ⟨f.attempts, ?_⟩
      rw [if_pos hshort, if_pos hshort, settle, hvalid]
    rw [if_neg hshort, if_neg hshort]
    have hfirst : offset + kWalHeaderSize ≤ f.content.length := by omega
    obtain ⟨rest, hheader⟩ := readAllAt_eq hfirst
    rw [hheader]
    dsimp only
    have hsize : (fileFormat shape).decodeWalRecordHeader o
        ((f.content.drop offset).take kWalHeaderSize) =
          (decodeWalHeader o ((f.content.drop offset).take kWalHeaderSize)).map
            WalHeader.recordSize := rfl
    rw [hsize]
    cases hd : decodeWalHeader o ((f.content.drop offset).take kWalHeaderSize) with
    | error e => exact ⟨rest, rfl⟩
    | ok h =>
      dsimp only [Except.map]
      by_cases hlong : f.content.length - offset < h.recordSize
      · refine ⟨rest, ?_⟩
        rw [if_pos hlong, if_pos hlong, settle, hvalid]
      rw [if_neg hlong, if_neg hlong]
      have hregion : offset + h.recordSize ≤ (f.after rest).content.length := by
        show offset + h.recordSize ≤ f.content.length
        omega
      obtain ⟨rest', hrecord⟩ := readAllAt_eq hregion
      rw [hrecord]
      dsimp only
      have hdecode : (fileFormat shape).decodeWalRecord o
          ((f.content.drop offset).take h.recordSize) =
            (decodeWalRecord o ((f.content.drop offset).take h.recordSize)).map Prod.snd := rfl
      rw [hdecode]
      cases hr : decodeWalRecord o ((f.content.drop offset).take h.recordSize) with
      | error e => exact ⟨rest', rfl⟩
      | ok p =>
        obtain ⟨consumed, r⟩ := p
        dsimp only [Except.map]
        by_cases hseq : r.sequence ≤ result.maxSequence
        · rw [if_pos hseq, if_pos hseq]
          exact ⟨rest', rfl⟩
        rw [if_neg hseq, if_neg hseq]
        cases happly : m.applyRecord o r with
        | error e => exact ⟨rest', rfl⟩
        | ok m' =>
          dsimp only
          by_cases hcount : result.recordsRecovered = maxUInt64
          · rw [if_pos hcount, if_pos hcount]
            exact ⟨rest', rfl⟩
          rw [if_neg hcount, if_neg hcount, List.drop_drop]
          have hpush : { result.push r h.recordSize with validBytes := offset + h.recordSize } =
              result.push r h.recordSize := by
            rw [WalRecoveryResult.push, hvalid]
          have hpos : 0 < kWalHeaderSize := by decide
          have hle := (decodeWalHeader_ok hd).1.header_le
          rw [hpush]
          exact ih (f := f.after rest') hregion (by show f.content.length - _ ≤ n; omega)
            (by rw [WalRecoveryResult.push, hvalid])

end RecoveryFile

/-! ## The grammar of a log -/

/-- What may stand behind the last whole record. -/
def IncompleteTail (o : FormatOptions) (t : Bytes) : Prop :=
  t = [] ∨ t.length < kWalHeaderSize ∨
    ∃ h, decodeWalHeader o t = .ok h ∧ t.length < h.recordSize

/-- The bytes of a log: whole records with increasing sequence numbers and a tail. -/
structure WalGrammar (o : FormatOptions) (content : Bytes) (rs : List Record) (t : Bytes) :
    Prop where
  bytes : content = rs.flatMap Record.encoding ++ t
  encodes : ∀ r ∈ rs, r.Encodes o
  increasing : rs.Pairwise (fun r x => r.sequence < x.sequence)
  tail : IncompleteTail o t

section

variable (shape : BloomShape) {o : FormatOptions}

theorem walBytes_fileFormat {r : Record} (h : r.Encodes o) :
    walBytes (fileFormat shape) o r = r.encoding :=
  (encodable_of_ok (F := fileFormat shape) h).2

theorem encodable_iff {r : Record} : Encodable (fileFormat shape) o r ↔ r.Encodes o := by
  constructor
  · intro h
    exact (Record.encodes_of_ok h).1
  · intro h
    exact (encodable_of_ok (F := fileFormat shape) h).1

theorem logBytes_fileFormat {rs : List Record} (h : ∀ r ∈ rs, r.Encodes o) :
    logBytes (fileFormat shape) o rs = rs.flatMap Record.encoding := by
  induction rs with
  | nil => rfl
  | cons r rs ih =>
    rw [logBytes_cons, walBytes_fileFormat shape (h r List.mem_cons_self),
      ih (fun x hx => h x (List.mem_cons_of_mem _ hx)), List.flatMap_cons]

theorem incomplete_iff {t : Bytes} :
    Incomplete (fileFormat shape) o t ↔ IncompleteTail o t := by
  have hheader : ∀ n, (fileFormat shape).decodeWalRecordHeader o (t.take kWalHeaderSize) = .ok n ↔
      ∃ h, decodeWalHeader o t = .ok h ∧ h.recordSize = n := by
    intro n
    show (decodeWalHeader o (t.take kWalHeaderSize)).map WalHeader.recordSize = .ok n ↔ _
    constructor
    · intro h
      cases hd : decodeWalHeader o (t.take kWalHeaderSize) with
      | error e => rw [hd] at h; cases h
      | ok header =>
        rw [hd] at h
        exact ⟨header, decodeWalHeader_take.mp hd, Except.ok.inj h⟩
    · rintro ⟨h, hd, rfl⟩
      rw [decodeWalHeader_take.mpr hd]
      rfl
  constructor
  · rintro (hshort | ⟨n, hn, hlt⟩)
    · exact Or.inr (Or.inl hshort)
    · obtain ⟨h, hd, rfl⟩ := (hheader n).mp hn
      exact Or.inr (Or.inr ⟨h, hd, hlt⟩)
  · rintro (rfl | hshort | ⟨h, hd, hlt⟩)
    · exact incomplete_nil
    · exact Or.inl hshort
    · exact Or.inr ⟨h.recordSize, (hheader _).mpr ⟨h, hd, rfl⟩, hlt⟩

theorem follows_iff {n : Nat} {rs : List Record} : Follows (fileFormat shape) o n rs ↔
    (∀ r ∈ rs, r.Encodes o ∧ n < r.sequence) ∧
      rs.Pairwise (fun r x => r.sequence < x.sequence) := by
  induction rs generalizing n with
  | nil => simp [Follows]
  | cons r rs ih =>
    rw [Follows, ih, encodable_iff, List.pairwise_cons, List.forall_mem_cons]
    constructor
    · rintro ⟨hr, hlt, hall, hinc⟩
      exact ⟨⟨⟨hr, hlt⟩, fun x hx => ⟨(hall x hx).1, hlt.trans (hall x hx).2⟩⟩,
        fun x hx => (hall x hx).2, hinc⟩
    · rintro ⟨⟨⟨hr, hlt⟩, hall⟩, hmin, hinc⟩
      exact ⟨hr, hlt, fun x hx => ⟨(hall x hx).1, hmin x hx⟩, hinc⟩

/-- The grammar in the terms of the replay. -/
theorem walGrammar_iff {content : Bytes} {rs : List Record} {t : Bytes} :
    WalGrammar o content rs t ↔ content = logBytes (fileFormat shape) o rs ++ t ∧
      Follows (fileFormat shape) o 0 rs ∧ Incomplete (fileFormat shape) o t := by
  rw [follows_iff, incomplete_iff]
  constructor
  · intro h
    rw [logBytes_fileFormat shape h.encodes]
    exact ⟨h.bytes, ⟨fun r hr => ⟨h.encodes r hr, (h.encodes r hr).valid.sequence_pos⟩,
      h.increasing⟩, h.tail⟩
  · rintro ⟨hb, ⟨hall, hinc⟩, ht⟩
    have henc : ∀ r ∈ rs, r.Encodes o := fun r hr => (hall r hr).1
    rw [logBytes_fileFormat shape henc] at hb
    exact ⟨hb, henc, hinc, ht⟩

/-- The loop replays what the grammar says. -/
theorem recoverLoop_grammar {content : Bytes} {rs : List Record} {t : Bytes}
    (hfits : content.length ≤ maxUInt64) (h : WalGrammar o content rs t) :
    recoverLoop (fileFormat shape) o content.length content .empty {} =
      .ok (replayInto .empty rs, WalRecoveryResult.pushAll (fileFormat shape) o {} rs,
        !t.isEmpty) ∧
    rs.foldlM (MemTable.applyRecord o) MemTable.empty = .ok (replayInto .empty rs) := by
  obtain ⟨hbytes, hf, ht⟩ := (walGrammar_iff shape).mp h
  have hF := fileFormat_lawful shape
  have hmany := length_le_blockPayload rs
  rw [blockPayload, ← logBytes_fileFormat shape h.encodes, kWalHeaderSize] at hmany
  rw [hbytes, List.length_append] at hfits
  have hsize : MemTable.empty.approximateDataSize +
      (logBytes (fileFormat shape) o rs).length ≤ maxUInt64 := by
    show 0 + _ ≤ _
    omega
  have hm : ∀ x ∈ MemTable.empty.entries, x.sequence ≤ 0 := by
    intro x hx
    cases hx
  refine ⟨?_, foldlM_applyRecord hF hf hm hsize⟩
  rw [hbytes]
  exact recoverLoop_records hF hf ht (le_refl _) hm hsize (by show 0 + _ ≤ _; omega)

end

theorem getLast_lastOf (n : Nat) (rs : List Record) :
    lastOf n rs = (rs.getLast?.map Record.sequence).getD n := by
  induction rs generalizing n with
  | nil => rfl
  | cons r rs ih =>
    rw [lastOf, ih]
    cases rs with
    | nil => rfl
    | cons x xs => rw [List.getLast?_cons_cons, List.getLast?_cons]; rfl

namespace RecoveryFile

/-- What recovery makes of a log. -/
structure Run.Replays (run : Run) (o : FormatOptions) (rs : List Record) (t : Bytes) : Prop where
  status : run.status = .ok
  memtable : rs.foldlM (MemTable.applyRecord o) MemTable.empty = Except.ok run.memtable
  records : run.result.recordsRecovered = rs.length
  first : run.result.minSequence = (rs.head?.map Record.sequence).getD 0
  last : run.result.maxSequence = (rs.getLast?.map Record.sequence).getD 0
  valid : run.result.validBytes = (rs.flatMap Record.encoding).length
  discarded : run.result.discardedTailBytes = t.length
  truncated : run.result.tailTruncated = !t.isEmpty
  content : run.file.content = rs.flatMap Record.encoding

/-- What recovery leaves behind when the bytes are no log. -/
structure Run.Refuses (run : Run) (f : RecoveryFile) (m : MemTable) (result : WalRecoveryResult) :
    Prop where
  status : run.status.code = .corruption
  memtable : run.memtable = m
  result : run.result = result
  content : run.file.content = f.content

/-- Recovery in the terms of the replay of the bytes. -/
theorem recoverWal_settle (shape : BloomShape) (o : FormatOptions) (f : RecoveryFile) :
    ∃ rest, recoverWalLoop o f.content.length (f.content.length + 1) 0 .empty {} f =
      (f.after rest).settle
        (recoverLoop (fileFormat shape) o f.content.length f.content .empty {}) :=
  recoverWalLoop_eq shape (Nat.zero_le _) (Nat.sub_le _ _) rfl

theorem recoverWal_replays {o : FormatOptions} {f : RecoveryFile} {rs : List Record} {t : Bytes}
    (h : WalGrammar o f.content rs t) (m : MemTable) (result : WalRecoveryResult) :
    (f.recoverWal o m result).Replays o rs t := by
  obtain ⟨rest, hloop⟩ := recoverWal_settle byteShape o f
  obtain ⟨hrun, hfold⟩ := recoverLoop_grammar byteShape f.fits h
  obtain ⟨hvalid, hcount, hlast⟩ := pushAll_eq (F := fileFormat byteShape) (o := o) {} rs
  obtain ⟨hdiscarded, htruncated⟩ := pushAll_tail (F := fileFormat byteShape) (o := o) {} rs
  have hbytes := h.bytes
  have hlog := logBytes_fileFormat byteShape h.encodes
  have hfirst : (WalRecoveryResult.pushAll (fileFormat byteShape) o {} rs).minSequence =
      (rs.head?.map Record.sequence).getD 0 := by
    cases rs with
    | nil => rfl
    | cons r rs => exact pushAll_minSequence
  rw [hlog] at hvalid
  rw [getLast_lastOf] at hlast
  simp only [Nat.zero_add] at hvalid hcount
  rw [recoverWal, hloop, hrun]
  cases t with
  | nil =>
    rw [List.append_nil] at hbytes
    exact ⟨rfl, hfold, hcount, hfirst, hlast, hvalid, hdiscarded, htruncated, hbytes⟩
  | cons b t =>
    have hcut : f.content.take (rs.flatMap Record.encoding).length =
        rs.flatMap Record.encoding := by
      rw [hbytes, List.take_left]
    have hrest : f.content.length - (rs.flatMap Record.encoding).length = (b :: t).length := by
      rw [hbytes, List.length_append, Nat.add_sub_cancel_left]
    exact ⟨rfl, hfold, hcount, hfirst, hlast, hvalid, (congrArg _ hvalid).trans hrest, rfl,
      (congrArg f.content.take hvalid).trans hcut⟩

theorem recoverWal_refuses {o : FormatOptions} {f : RecoveryFile}
    (h : ¬ ∃ rs t, WalGrammar o f.content rs t) (m : MemTable) (result : WalRecoveryResult) :
    (f.recoverWal o m result).Refuses f m result := by
  obtain ⟨rest, hloop⟩ := recoverWal_settle byteShape o f
  cases hrun : recoverLoop (fileFormat byteShape) o f.content.length f.content .empty {} with
  | ok p =>
    obtain ⟨rs, t, hg⟩ := recoverLoop_ok (fileFormat_lawful byteShape) (le_refl _) hrun
    exact absurd ⟨rs, t, (walGrammar_iff byteShape).mpr hg⟩ h
  | error e =>
    rw [recoverWal, hloop, hrun]
    exact ⟨recoverLoop_error hrun, rfl, rfl, rfl⟩

/-- A piece of a record is an incomplete tail. -/
theorem incompleteTail_cut {o : FormatOptions} {r : Record} {p : Bytes} (hr : r.Encodes o)
    (hp : p <+: r.encoding) (hne : p ≠ r.encoding) : IncompleteTail o p := by
  have htorn : Torn (fileFormat byteShape) (· = o) p :=
    Or.inr ⟨o, r, rfl, (encodable_iff byteShape).mpr hr, by rwa [walBytes_fileFormat byteShape hr],
      by rwa [walBytes_fileFormat byteShape hr]⟩
  exact (incomplete_iff byteShape).mp
    (htorn.incomplete (fileFormat_lawful byteShape) (fun _ h => h))

/-- Records cut anywhere are the first of them and an incomplete tail. -/
theorem records_cut {o : FormatOptions} {rs : List Record} {p : Bytes}
    (henc : ∀ r ∈ rs, r.Encodes o) (h : p <+: rs.flatMap Record.encoding) :
    ∃ ss t, ss <+: rs ∧ p = ss.flatMap Record.encoding ++ t ∧ IncompleteTail o t := by
  induction rs generalizing p with
  | nil => exact ⟨[], [], List.nil_prefix, List.prefix_nil.mp h, Or.inl rfl⟩
  | cons r rs ih =>
    rw [List.flatMap_cons] at h
    rcases List.prefix_or_prefix_of_prefix h (List.prefix_append _ _) with hshort | ⟨q, rfl⟩
    · by_cases hall : p = r.encoding
      · refine ⟨[r], [], ⟨rs, rfl⟩, ?_, Or.inl rfl⟩
        rw [hall, List.flatMap_singleton, List.append_nil]
      · exact ⟨[], p, List.nil_prefix, rfl,
          incompleteTail_cut (henc r List.mem_cons_self) hshort hall⟩
    · have hq := (List.prefix_append_right_inj _).mp h
      obtain ⟨ss, t, hss, hbytes, ht⟩ := ih (fun x hx => henc x (List.mem_cons_of_mem _ hx)) hq
      refine ⟨r :: ss, t, List.cons_prefix_cons.mpr ⟨rfl, hss⟩, ?_, ht⟩
      rw [hbytes, List.flatMap_cons, List.append_assoc]

/-- Recovery accepts exactly the logs and replays them, however the reads go. A second
recovery finds the same records and nothing to cut off; on anything else recovery
reports corruption and changes nothing. -/
theorem recoverWal_exact (o : FormatOptions) (f : RecoveryFile) (m : MemTable)
    (result : WalRecoveryResult) :
    ((f.recoverWal o m result).status.isOk = true ↔ ∃ rs t, WalGrammar o f.content rs t) ∧
    (∀ rs t, WalGrammar o f.content rs t →
      (f.recoverWal o m result).Replays o rs t ∧
      ∀ attempts m' result', (((f.recoverWal o m result).file.after attempts).recoverWal o m'
        result').Replays o rs []) ∧
    ((¬ ∃ rs t, WalGrammar o f.content rs t) → (f.recoverWal o m result).Refuses f m result) ∧
    (∀ (r : Record) (p : Bytes), r.Encodes o → p <+: r.encoding → p ≠ r.encoding →
      IncompleteTail o p) := by
  have hreplays := fun rs t (h : WalGrammar o f.content rs t) => recoverWal_replays h m result
  have hrefuses := fun h => recoverWal_refuses (o := o) (f := f) h m result
  refine ⟨⟨fun hok => ?_, fun ⟨rs, t, h⟩ => ?_⟩, fun rs t h => ⟨hreplays rs t h, ?_⟩, hrefuses, ?_⟩
  · by_contra hno
    have hcode := (hrefuses hno).status
    rw [Status.isOk, hcode] at hok
    cases hok
  · rw [(hreplays rs t h).status]
    rfl
  · intro attempts m' result'
    have hcontent := (hreplays rs t h).content
    refine recoverWal_replays ⟨?_, h.encodes, h.increasing, Or.inl rfl⟩ m' result'
    rw [List.append_nil]
    exact hcontent
  · intro r p hr hp hne
    exact incompleteTail_cut hr hp hne

/-! ## Damage -/

/-- A record that begins the bytes of a log is the first that is read. -/
theorem reading_cons {o : FormatOptions} {r : Record} {rs : List Record} {b t : Bytes}
    (hr : r.Encodes o) (hrs : ∀ x ∈ rs, x.Encodes o) (ht : IncompleteTail o t)
    (h : r.encoding ++ b = rs.flatMap Record.encoding ++ t) :
    ∃ rs', rs = r :: rs' ∧ b = rs'.flatMap Record.encoding ++ t := by
  cases rs with
  | nil =>
    -- a tail does not begin with a whole record
    rw [List.flatMap_nil, List.nil_append] at h
    have hlen : r.walSize ≤ t.length := by
      rw [← h, List.length_append, r.encoding_length]
      omega
    have hheader := header_le_walSize r
    have hpos : 0 < kWalHeaderSize := by decide
    rcases ht with rfl | hshort | ⟨header, hd, hlt⟩
    · rw [List.length_nil] at hlen
      omega
    · omega
    · rw [← h, decodeWalHeader_encode hr b] at hd
      rw [← Except.ok.inj hd, r.walHeader_recordSize] at hlt
      omega
  | cons x xs =>
    rw [List.flatMap_cons, List.append_assoc] at h
    have hdecode := decodeWalRecord_encode hr b
    rw [h, decodeWalRecord_encode (hrs x List.mem_cons_self)] at hdecode
    obtain rfl := (Prod.mk.inj (Except.ok.inj hdecode)).2
    exact ⟨xs, rfl, List.append_cancel_left h⟩

/-- Whole records at the front of the bytes of a log are the first that are read. -/
theorem reading_append {o : FormatOptions} {rs ss : List Record} {b t : Bytes}
    (hss : ∀ x ∈ ss, x.Encodes o) (hrs : ∀ x ∈ rs, x.Encodes o) (ht : IncompleteTail o t)
    (h : ss.flatMap Record.encoding ++ b = rs.flatMap Record.encoding ++ t) :
    ∃ rs', rs = ss ++ rs' ∧ b = rs'.flatMap Record.encoding ++ t := by
  induction ss generalizing rs with
  | nil => exact ⟨rs, rfl, h⟩
  | cons r ss ih =>
    rw [List.flatMap_cons, List.append_assoc] at h
    obtain ⟨xs, rfl, hb⟩ := reading_cons (hss r List.mem_cons_self) hrs ht h
    obtain ⟨rs', rfl, hb'⟩ := ih (fun x hx => hss x (List.mem_cons_of_mem _ hx))
      (fun x hx => hrs x (List.mem_cons_of_mem _ hx)) hb
    exact ⟨rs', rfl, hb'⟩

/-- Bytes that are whole records have no other reading. -/
theorem reading_eq {o : FormatOptions} {rs ss : List Record} {t : Bytes}
    (hss : ∀ x ∈ ss, x.Encodes o) (hrs : ∀ x ∈ rs, x.Encodes o) (ht : IncompleteTail o t)
    (h : ss.flatMap Record.encoding = rs.flatMap Record.encoding ++ t) : rs = ss ∧ t = [] := by
  rw [← List.append_nil (ss.flatMap Record.encoding)] at h
  obtain ⟨rs', rfl, hnil⟩ := reading_append hss hrs ht h
  obtain ⟨hrs', rfl⟩ := List.append_eq_nil_iff.mp hnil.symm
  refine ⟨?_, rfl⟩
  cases rs' with
  | nil => rw [List.append_nil]
  | cons r rs' =>
    have hlen := congrArg List.length hrs'
    have hheader := header_le_walSize r
    have hpos : 0 < kWalHeaderSize := by decide
    rw [List.flatMap_cons, List.length_append, r.encoding_length, List.length_nil] at hlen
    omega

/-- A log in which other bytes have taken the place of a record that is not the last. -/
structure Damaged (o : FormatOptions) (before : List Record) (r : Record) (after : List Record)
    (damaged : Bytes) (f : RecoveryFile) : Prop where
  encodes : ∀ x ∈ before ++ r :: after, x.Encodes o
  increasing : (before ++ r :: after).Pairwise (fun r x => r.sequence < x.sequence)
  not_last : after ≠ []
  length : damaged.length = r.encoding.length
  content : f.content = before.flatMap Record.encoding ++ damaged ++ after.flatMap Record.encoding

/-- A record boundary stands behind the first bytes of a log, in whatever way the log is
read. -/
def Boundary (o : FormatOptions) (front content : Bytes) : Prop :=
  ∀ rs t, WalGrammar o content rs t → ∃ xs, xs <+: rs ∧ xs.flatMap Record.encoding = front

/-- Recovery replays records that end with these, and cuts nothing off. -/
def Run.Keeps (run : Run) (o : FormatOptions) (content : Bytes) (last : List Record) : Prop :=
  (∃ rs t, WalGrammar o content rs t ∧ last <:+ rs ∧ run.Replays o rs t) ∧
    run.file.content = content

/-- Damage to a record costs none of the records behind it exactly when the damaged bytes
end where a record ends. -/
theorem recoverWal_damaged_iff {o : FormatOptions} {f : RecoveryFile} {before after : List Record}
    {r : Record} {damaged : Bytes} (h : Damaged o before r after damaged f) (m : MemTable)
    (result : WalRecoveryResult) :
    ((f.recoverWal o m result).status.isOk = true →
        (f.recoverWal o m result).Keeps o f.content after) ↔
      Boundary o (before.flatMap Record.encoding ++ damaged) f.content := by
  have hencAfter : ∀ x ∈ after, x.Encodes o := fun x hx =>
    h.encodes x (List.mem_append_right _ (List.mem_cons_of_mem _ hx))
  have hcontent := h.content
  constructor
  · intro hkeeps rs t hg
    have hrun := recoverWal_replays hg m result
    obtain ⟨⟨ss, t', hg', ⟨xs, rfl⟩, hss⟩, hfile⟩ := hkeeps (by rw [hrun.status]; rfl)
    -- nothing was cut off, so the bytes are the records that were replayed
    have hwhole : f.content = (xs ++ after).flatMap Record.encoding := by
      rw [← hfile, hss.content]
    obtain ⟨rfl, rfl⟩ := reading_eq hg'.encodes hg.encodes hg.tail (hwhole.symm.trans hg.bytes)
    refine ⟨xs, List.prefix_append xs after, ?_⟩
    rw [hcontent, List.flatMap_append] at hwhole
    exact (List.append_cancel_right hwhole).symm
  · intro hboundary hok
    have hlog : ∃ rs t, WalGrammar o f.content rs t := by
      by_contra hno
      have hcode := (recoverWal_refuses hno m result).status
      rw [Status.isOk, hcode] at hok
      cases hok
    obtain ⟨rs, t, hg⟩ := hlog
    obtain ⟨xs, ⟨ys, rfl⟩, hxs⟩ := hboundary rs t hg
    have hbytes := hg.bytes
    rw [hcontent, ← hxs, List.flatMap_append, List.append_assoc] at hbytes
    obtain ⟨rfl, rfl⟩ := reading_eq hencAfter
      (fun x hx => hg.encodes x (List.mem_append_right _ hx)) hg.tail
      (List.append_cancel_left hbytes)
    have hrun := recoverWal_replays hg m result
    refine ⟨⟨_, [], hg, List.suffix_append _ _, hrun⟩, ?_⟩
    rw [hrun.content, hg.bytes, List.append_nil]

/-- A second write of one byte. -/
def laterWrite : Record := { key := [3], sequence := 2, type := .value, value := [4] }

theorem laterWrite_encodes : laterWrite.Encodes ({} : Options).toFormatOptions :=
  encodeWalRecord_eq_ok.mpr ⟨validateWalRecord_isOk.mp (by decide), by decide, by decide, rfl⟩

/-- A log of two writes, with other bytes in the place of the first. -/
def twoWrites (damaged : Bytes) (h : damaged.length = 34) : RecoveryFile where
  content := damaged ++ laterWrite.encoding
  attempts := []
  fits := by
    rw [List.length_append, h]
    decide

theorem twoWrites_damaged (damaged : Bytes) (h : damaged.length = 34) :
    Damaged ({} : Options).toFormatOptions [] smallWrite [laterWrite] damaged
      (twoWrites damaged h) where
  encodes := by
    intro x hx
    simp only [List.nil_append, List.mem_cons, List.not_mem_nil, or_false] at hx
    rcases hx with rfl | rfl
    · exact smallWrite_encodes
    · exact laterWrite_encodes
  increasing := by simp [smallWrite, laterWrite]
  not_last := List.cons_ne_nil _ _
  length := by
    rw [h, smallWrite.encoding_length]
    rfl
  content := by simp [twoWrites]

/-- The first write with a flipped bit in its value. -/
def flipped : Bytes := smallWrite.encoding.set 33 3

/-- Another write of one byte, which is a whole record where the first was. -/
def replacement : Record := { smallWrite with value := [9] }

theorem replacement_encodes : replacement.Encodes ({} : Options).toFormatOptions :=
  encodeWalRecord_eq_ok.mpr ⟨validateWalRecord_isOk.mp (by decide), by decide, by decide, rfl⟩

theorem replacement_boundary : Boundary ({} : Options).toFormatOptions
    ([].flatMap Record.encoding ++ replacement.encoding)
    (twoWrites replacement.encoding (by decide)).content := by
  intro rs t hg
  obtain ⟨xs, rfl, -⟩ := reading_cons replacement_encodes hg.encodes hg.tail hg.bytes
  exact ⟨[replacement], ⟨xs, rfl⟩, by simp⟩

/-- Behind another whole record the second write is kept. With the flipped bit the log is
refused, and has no reading that a boundary could be missing from. -/
theorem recoverWal_replaced :
    ((twoWrites replacement.encoding (by decide)).recoverWal ({} : Options).toFormatOptions .empty
        {}).Keeps ({} : Options).toFormatOptions
          (twoWrites replacement.encoding (by decide)).content [laterWrite] ∧
      Boundary ({} : Options).toFormatOptions ([].flatMap Record.encoding ++ flipped)
        (twoWrites flipped (by decide)).content :=
  ⟨(recoverWal_damaged_iff (twoWrites_damaged _ _) .empty {}).mpr replacement_boundary
      (by decide +kernel),
    (recoverWal_damaged_iff (twoWrites_damaged _ _) .empty {}).mp
      (fun hok => absurd hok (by decide +kernel))⟩

/-- The first write with its length fields changed: 256 is added to the sizes of the value
and of the record. -/
def lengthened : Bytes := (smallWrite.encoding.set 9 1).set 25 1

/-- Nothing but the length fields is damaged, and recovery drops both writes and reports
success. -/
theorem recoverWal_lengthened :
    Damaged ({} : Options).toFormatOptions [] smallWrite [laterWrite] lengthened
        (twoWrites lengthened (by decide)) ∧
      ((twoWrites lengthened (by decide)).recoverWal ({} : Options).toFormatOptions .empty
        {}).status.isOk = true ∧
      ((twoWrites lengthened (by decide)).recoverWal ({} : Options).toFormatOptions .empty
        {}).memtable.entries = [] ∧
      ((twoWrites lengthened (by decide)).recoverWal ({} : Options).toFormatOptions .empty
        {}).file.content = [] ∧
      ¬ ((twoWrites lengthened (by decide)).recoverWal ({} : Options).toFormatOptions .empty
        {}).Keeps ({} : Options).toFormatOptions (twoWrites lengthened (by decide)).content
          [laterWrite] :=
  ⟨twoWrites_damaged _ _, by decide +kernel, by decide +kernel, by decide +kernel,
    fun h => absurd h.2 (by decide +kernel)⟩

end RecoveryFile

end MiniKV
