import MiniKV.Recovery

/-!
# The write path

`WritePath` appends a record to its log and then adds it to its table. The file
below it may take a part of the bytes, be interrupted, report nonsense or fail.
Whatever it does, the log, the table and the answers of the calls agree, and a
log that is cut behind its synced part is recovered to a prefix of the writes.
-/

namespace MiniKV

/-! ## Writing to a file -/

/-- How an attempt to write goes. An interrupted one has written nothing; behind an error
and behind a wrong count the file may have got some of the bytes. -/
inductive WriteAttempt where
  | interrupted
  /-- At most this many bytes after the first one. -/
  | short (more : Nat)
  | error (appended : Nat) (status : Status)
  | zeroProgress (appended : Nat)
  /-- A count that exceeds what was asked for by one and some more. -/
  | overReport (appended excess : Nat)
  deriving DecidableEq, Repr

/-- The attempts that `WriteAll` gets over. -/
def WriteAttempt.passes : WriteAttempt → Bool
  | .interrupted | .short _ => true
  | _ => false

inductive WriteResult where
  | written (bytes : Nat)
  | interrupted
  | error (status : Status)
  deriving DecidableEq, Repr

/-- A file opened for appending, and how the next writes and syncs of it will go; those
after them succeed. -/
structure WritableFile where
  name : String
  content : Bytes
  /-- How many bytes the last successful `Sync` covered. -/
  synced : Nat
  attempts : List WriteAttempt
  syncs : List Status

namespace WritableFile

/-- A new file. -/
def create (name : String) (attempts : List WriteAttempt) (syncs : List Status) :
    WritableFile where
  name := name
  content := []
  synced := 0
  attempts := attempts
  syncs := syncs

/-- The file with more bytes, and what is left of the script. -/
def grow (f : WritableFile) (p : Bytes) (rest : List WriteAttempt) : WritableFile :=
  { f with content := f.content ++ p, attempts := rest }

/-- `WritableFile::WriteSome` -/
def writeSome (f : WritableFile) (data : Bytes) : WriteResult × WritableFile :=
  match f.attempts with
  | [] => (.written data.length, f.grow data [])
  | .interrupted :: rest => (.interrupted, f.grow [] rest)
  | .short more :: rest =>
    (.written (data.take (more + 1)).length, f.grow (data.take (more + 1)) rest)
  | .error appended status :: rest => (.error status, f.grow (data.take appended) rest)
  | .zeroProgress appended :: rest => (.written 0, f.grow (data.take appended) rest)
  | .overReport appended excess :: rest =>
    (.written (data.length + 1 + excess), f.grow (data.take appended) rest)

/-- What `WriteAll` makes of one write: an error, or the bytes that are left. -/
def acceptWrite (name : String) (data : Bytes) : WriteResult → Except Status Bytes
  | .interrupted => .ok data
  | .error status =>
    .error (if status.isOk then .ioError ("write failed for '" ++ name ++ "' without an error")
      else status)
  | .written bytes =>
    if bytes = 0 then .error (.ioError ("write made no progress for '" ++ name ++ "'"))
    else if data.length < bytes then
      .error (.ioError ("write reported too many bytes for '" ++ name ++ "'"))
    else .ok (data.drop bytes)

/-- The loop of `WriteAll`, with the bytes that are left. Every attempt takes one off the
script, and without a script one attempt writes everything. -/
def writeAllLoop : Nat → Bytes → WritableFile → Status × WritableFile
  | 0, _, f => (.ioError "write is unfinished", f)
  | fuel + 1, data, f =>
    if data.isEmpty then (.ok, f)
    else
      let (result, g) := f.writeSome data
      match acceptWrite f.name data result with
      | .error e => (e, g)
      | .ok left => writeAllLoop fuel left g

/-- `WriteAll` -/
def writeAll (f : WritableFile) (data : Bytes) : Status × WritableFile :=
  writeAllLoop (f.attempts.length + 2) data f

/-- `WritableFile::Sync` -/
def sync (f : WritableFile) : Status × WritableFile :=
  match f.syncs with
  | [] => (.ok, { f with synced := f.content.length })
  | status :: rest =>
    (status, { f with
      synced := if status.isOk then f.content.length else f.synced
      syncs := rest })

@[simp] theorem grow_name (f : WritableFile) (p : Bytes) (rest : List WriteAttempt) :
    (f.grow p rest).name = f.name := rfl
@[simp] theorem grow_content (f : WritableFile) (p : Bytes) (rest : List WriteAttempt) :
    (f.grow p rest).content = f.content ++ p := rfl
@[simp] theorem grow_synced (f : WritableFile) (p : Bytes) (rest : List WriteAttempt) :
    (f.grow p rest).synced = f.synced := rfl
@[simp] theorem grow_attempts (f : WritableFile) (p : Bytes) (rest : List WriteAttempt) :
    (f.grow p rest).attempts = rest := rfl
@[simp] theorem grow_syncs (f : WritableFile) (p : Bytes) (rest : List WriteAttempt) :
    (f.grow p rest).syncs = f.syncs := rfl

@[simp] theorem grow_grow (f : WritableFile) (p q : Bytes) (rest rest' : List WriteAttempt) :
    (f.grow p rest).grow q rest' = f.grow (p ++ q) rest' := by
  simp only [grow, List.append_assoc]

theorem grow_nil (f : WritableFile) : f.grow [] f.attempts = f := by
  simp only [grow, List.append_nil]

theorem acceptWrite_take (name : String) {data : Bytes} (hne : data ≠ []) (more : Nat) :
    acceptWrite name data (.written (data.take (more + 1)).length) =
      .ok (data.drop (more + 1)) := by
  have hpos := List.length_pos_iff.mpr hne
  have hdrop : data.drop (data.take (more + 1)).length = data.drop (more + 1) := by
    rw [List.length_take, Nat.min_def]
    split
    · rfl
    · rw [List.drop_length, List.drop_eq_nil_of_le (by omega)]
  rw [acceptWrite, if_neg (by rw [List.length_take]; omega),
    if_neg (by rw [List.length_take]; omega), hdrop]

/-- One write: the file gets a first part of the bytes, and either the rest of them is left
to write or the write has failed. -/
theorem writeSome_cases (f : WritableFile) {data : Bytes} (hne : data ≠ []) :
    ∃ p rest, p <+: data ∧ (f.writeSome data).2 = f.grow p rest ∧
      ((∃ left, acceptWrite f.name data (f.writeSome data).1 = .ok left ∧ data = p ++ left) ∨
        ∃ e, acceptWrite f.name data (f.writeSome data).1 = .error e ∧ e.isOk = false) := by
  unfold writeSome
  cases f.attempts with
  | nil =>
    refine ⟨data, [], List.prefix_rfl, rfl, Or.inl ⟨[], ?_, (List.append_nil _).symm⟩⟩
    have hpos := List.length_pos_iff.mpr hne
    rw [acceptWrite, if_neg (by omega), if_neg (by omega), List.drop_length]
  | cons attempt rest =>
    cases attempt with
    | interrupted => exact ⟨[], rest, List.nil_prefix, rfl, Or.inl ⟨data, rfl, rfl⟩⟩
    | short more =>
      exact ⟨data.take (more + 1), rest, List.take_prefix _ _, rfl,
        Or.inl ⟨_, acceptWrite_take f.name hne more, (List.take_append_drop _ _).symm⟩⟩
    | error appended status =>
      refine ⟨data.take appended, rest, List.take_prefix _ _, rfl, Or.inr ⟨_, rfl, ?_⟩⟩
      by_cases h : status.isOk = true
      · rw [if_pos h]
        rfl
      · rw [if_neg h]
        exact Bool.eq_false_iff.mpr h
    | zeroProgress appended =>
      exact ⟨data.take appended, rest, List.take_prefix _ _, rfl, Or.inr ⟨_, rfl, rfl⟩⟩
    | overReport appended excess =>
      have hover : acceptWrite f.name data (.written (data.length + 1 + excess)) =
          .error (.ioError ("write reported too many bytes for '" ++ f.name ++ "'")) := by
        rw [acceptWrite, if_neg (by omega), if_pos (by omega)]
      exact ⟨data.take appended, rest, List.take_prefix _ _, rfl, Or.inr ⟨_, hover, rfl⟩⟩

theorem writeAllLoop_cases (fuel : Nat) (data : Bytes) (f : WritableFile) :
    ∃ p rest, p <+: data ∧ (writeAllLoop fuel data f).2 = f.grow p rest ∧
      ((writeAllLoop fuel data f).1.isOk = true → p = data) := by
  induction fuel generalizing data f with
  | zero => exact ⟨[], f.attempts, List.nil_prefix, (grow_nil f).symm, fun h => by cases h⟩
  | succ fuel ih =>
    rw [writeAllLoop]
    by_cases hend : data = []
    · rw [hend]
      exact ⟨[], f.attempts, List.nil_prefix, (grow_nil f).symm, fun _ => rfl⟩
    rw [if_neg (by rwa [List.isEmpty_iff])]
    obtain ⟨p, rest, hp, hfile, hcase⟩ := f.writeSome_cases hend
    dsimp only
    rcases hcase with ⟨left, haccept, rfl⟩ | ⟨e, haccept, he⟩
    · rw [haccept, hfile]
      obtain ⟨q, rest', hq, hfile', hok⟩ := ih left (f.grow p rest)
      refine ⟨p ++ q, rest', (List.prefix_append_right_inj p).mpr hq, ?_, fun h => ?_⟩
      · rw [hfile', grow_grow]
      · rw [hok h]
    · rw [haccept]
      exact ⟨p, rest, hp, hfile, fun h => by rw [he] at h; cases h⟩

/-- Whatever the attempts do, a first part of the bytes is written, and all of them if
`WriteAll` says so. -/
theorem writeAll_cases (f : WritableFile) (data : Bytes) :
    ∃ p rest, p <+: data ∧ (f.writeAll data).2 = f.grow p rest ∧
      ((f.writeAll data).1.isOk = true → p = data) :=
  writeAllLoop_cases _ data f

/-- One write takes one attempt off the script, and goes on exactly if that is one to get
over. Without a script it writes everything. -/
theorem writeSome_uses (f : WritableFile) {data : Bytes} (hne : data ≠ []) :
    (f.attempts = [] ∧ (f.writeSome data).2.attempts = [] ∧
        acceptWrite f.name data (f.writeSome data).1 = .ok []) ∨
      ∃ a, f.attempts = a :: (f.writeSome data).2.attempts ∧
        ((a.passes = true ∧ ∃ left, acceptWrite f.name data (f.writeSome data).1 = .ok left) ∨
          (a.passes = false ∧ ∃ e, acceptWrite f.name data (f.writeSome data).1 = .error e ∧
            e.isOk = false)) := by
  obtain ⟨written, rest, -, -, hcase⟩ := f.writeSome_cases hne
  unfold writeSome at hcase ⊢
  cases hattempts : f.attempts with
  | nil =>
    have hpos := List.length_pos_iff.mpr hne
    refine Or.inl ⟨rfl, rfl, ?_⟩
    rw [acceptWrite, if_neg (by omega), if_neg (by omega), List.drop_length]
  | cons a rest =>
    rw [hattempts] at hcase
    right
    cases a with
    | interrupted => exact ⟨_, rfl, Or.inl ⟨rfl, data, rfl⟩⟩
    | short more => exact ⟨_, rfl, Or.inl ⟨rfl, _, acceptWrite_take f.name hne more⟩⟩
    | error appended status =>
      rcases hcase with ⟨left, hok, -⟩ | hfail
      · cases hok
      · exact ⟨_, rfl, Or.inr ⟨rfl, hfail⟩⟩
    | zeroProgress appended =>
      rcases hcase with ⟨left, hok, -⟩ | hfail
      · cases hok
      · exact ⟨_, rfl, Or.inr ⟨rfl, hfail⟩⟩
    | overReport appended excess =>
      rcases hcase with ⟨left, hok, -⟩ | hfail
      · dsimp only at hok
        rw [acceptWrite, if_neg (by omega), if_pos (by omega)] at hok
        cases hok
      · exact ⟨_, rfl, Or.inr ⟨rfl, hfail⟩⟩

/-- The loop succeeds exactly if it gets over every attempt that it makes. -/
theorem writeAllLoop_uses {fuel : Nat} {data : Bytes} {f : WritableFile}
    (hfuel : f.attempts.length + 1 < fuel) :
    ∃ used, f.attempts = used ++ (writeAllLoop fuel data f).2.attempts ∧
      ((writeAllLoop fuel data f).1.isOk = true ↔ ∀ a ∈ used, a.passes = true) := by
  induction fuel generalizing data f with
  | zero => omega
  | succ fuel ih =>
    rw [writeAllLoop]
    by_cases hend : data = []
    · rw [hend]
      exact ⟨[], rfl, by simp⟩
    rw [if_neg (by rwa [List.isEmpty_iff])]
    dsimp only
    rcases f.writeSome_uses hend with ⟨hnil, hrest, haccept⟩ | ⟨a, hcons, hcase⟩
    · -- nothing is left to write
      rw [hnil, List.length_nil] at hfuel
      obtain ⟨n, rfl⟩ : ∃ n, fuel = n + 1 := ⟨fuel - 1, by omega⟩
      rw [haccept, hnil]
      exact ⟨[], hrest.symm, by simp [writeAllLoop]⟩
    · have hlength := congrArg List.length hcons
      rw [List.length_cons] at hlength
      rcases hcase with ⟨hpass, left, haccept⟩ | ⟨hfail, e, haccept, he⟩
      · rw [haccept]
        obtain ⟨used, hused, hok⟩ := @ih left (f.writeSome data).2 (by omega)
        refine ⟨a :: used, by rw [hcons, hused]; rfl, ?_⟩
        rw [hok, List.forall_mem_cons]
        exact ⟨fun h => ⟨hpass, h⟩, fun h => h.2⟩
      · rw [haccept]
        refine ⟨[a], hcons, ?_⟩
        simp [he, hfail]

theorem writeAll_uses (f : WritableFile) (data : Bytes) :
    ∃ used, f.attempts = used ++ (f.writeAll data).2.attempts ∧
      ((f.writeAll data).1.isOk = true ↔ ∀ a ∈ used, a.passes = true) :=
  writeAllLoop_uses (by omega)

/-- A successful sync covers the file, a failed one changes nothing that counts. -/
theorem sync_cases (f : WritableFile) :
    f.sync.2.content = f.content ∧
      f.sync.2.synced = if f.sync.1.isOk then f.content.length else f.synced := by
  unfold sync
  cases f.syncs with
  | nil => exact ⟨rfl, rfl⟩
  | cons status rest => exact ⟨rfl, rfl⟩

theorem sync_uses (f : WritableFile) : f.sync.2.attempts = f.attempts ∧
    ∃ used, f.syncs = used ++ f.sync.2.syncs ∧
      (f.sync.1.isOk = true ↔ ∀ x ∈ used, x.isOk = true) := by
  unfold sync
  cases f.syncs with
  | nil => exact ⟨rfl, [], rfl, by simp⟩
  | cons status rest => exact ⟨rfl, [status], rfl, by simp⟩

/-- The part of the script that has been used between two states of a file. -/
structure Uses (f g : WritableFile) (attempts : List WriteAttempt) (syncs : List Status) :
    Prop where
  attempts_eq : f.attempts = attempts ++ g.attempts
  syncs_eq : f.syncs = syncs ++ g.syncs

theorem Uses.refl (f : WritableFile) : f.Uses f [] [] := ⟨rfl, rfl⟩

theorem Uses.trans {f g h : WritableFile} {as bs : List WriteAttempt} {xs ys : List Status}
    (hf : f.Uses g as xs) (hg : g.Uses h bs ys) : f.Uses h (as ++ bs) (xs ++ ys) :=
  ⟨by rw [hf.attempts_eq, hg.attempts_eq, List.append_assoc],
    by rw [hf.syncs_eq, hg.syncs_eq, List.append_assoc]⟩

/-- No write and no sync has failed. -/
def Passed (attempts : List WriteAttempt) (syncs : List Status) : Prop :=
  (∀ a ∈ attempts, a.passes = true) ∧ ∀ x ∈ syncs, x.isOk = true

theorem passed_append {as bs : List WriteAttempt} {xs ys : List Status} :
    Passed (as ++ bs) (xs ++ ys) ↔ Passed as xs ∧ Passed bs ys := by
  simp only [Passed, List.forall_mem_append]
  tauto

end WritableFile

/-! ## Appending records -/

namespace WritePath

/-- `WalWriter` -/
structure WalWriter where
  options : FormatOptions
  file : WritableFile
  status : Status

/-- `WalWriter::failed` -/
def WalWriter.failed (w : WalWriter) : Bool := !w.status.isOk

/-- `WalWriter::RememberFailure` -/
def WalWriter.rememberFailure (w : WalWriter) (status : Status) : Status × WalWriter :=
  let status := if status.isOk then .ioError "WAL entered a failed state without an error"
    else status
  (status, { w with status := status })

/-- `WalWriter::Append` -/
def WalWriter.append (w : WalWriter) (record : Record) (mode : SyncMode) : Status × WalWriter :=
  if w.failed then (w.status, w)
  else if mode ≠ .sync ∧ mode ≠ .async then (.invalidArgument "WAL sync mode is invalid", w)
  else match encodeWalRecord w.options record with
    | .error e => (e, w)
    | .ok encoded =>
      let (writeStatus, file) := w.file.writeAll encoded
      let w := { w with file := file }
      if !writeStatus.isOk then w.rememberFailure writeStatus
      else if mode = .sync then
        let (syncStatus, file) := w.file.sync
        let w := { w with file := file }
        if !syncStatus.isOk then w.rememberFailure syncStatus else (.ok, w)
      else (.ok, w)

end WritePath

/-- A `WritePath`, with the status that a failure leaves behind. -/
structure WritePath where
  options : FormatOptions
  wal : WritePath.WalWriter
  memtable : MemTable
  lastSequence : Nat
  status : Status

namespace WritePath

/-- `WritePath::Create` -/
def create (o : FormatOptions) (file : WritableFile) : WritePath where
  options := o
  wal := ⟨o, file, .ok⟩
  memtable := .empty
  lastSequence := 0
  status := .ok

/-- `WritePath::Put` and `WritePath::Delete` with their arguments. -/
inductive Call where
  | put (key value : Bytes) (mode : SyncMode)
  | delete (key : Bytes) (mode : SyncMode)
  deriving DecidableEq, Repr

namespace Call

def mode : Call → SyncMode
  | put _ _ mode => mode
  | delete _ mode => mode

/-- The record of a call under a sequence number. -/
def record (sequence : Nat) : Call → Record
  | put key value _ => ⟨key, sequence, .value, value⟩
  | delete key _ => ⟨key, sequence, .deletion, []⟩

end Call

/-- `WritePath::Write` -/
def write (p : WritePath) (c : Call) : Status × WritePath :=
  let validation := validateWalRecord p.options (c.record 1)
  if !validation.isOk then (validation, p)
  else if c.mode ≠ .sync ∧ c.mode ≠ .async then
    (.invalidArgument "write sync mode is invalid", p)
  else if !p.status.isOk then (p.status, p)
  else if p.wal.failed then (p.wal.status, { p with status := p.wal.status })
  else if p.lastSequence = maxUInt64 then
    (.invalidArgument "sequence number space is exhausted", p)
  else
    -- the number is consumed before anything is written
    let record := c.record (p.lastSequence + 1)
    let (walStatus, wal) := p.wal.append record c.mode
    let p := { p with wal := wal, lastSequence := p.lastSequence + 1 }
    if !walStatus.isOk then (walStatus, { p with status := walStatus })
    else match p.memtable.applyRecord p.options record with
      | .error e =>
        let status :=
          Status.corruption ("WAL append succeeded but MemTable apply failed: " ++ e.toString)
        (status, { p with status := status })
      | .ok memtable => (.ok, { p with memtable := memtable })

/-! ## What a call does -/

/-- What an append of a record leaves of the writer, with the bytes that reached the file. -/
structure WalWriter.Appended (w w' : WalWriter) (status : Status) (record : Record)
    (mode : SyncMode) (t : Bytes) : Prop where
  options : w'.options = w.options
  content : w'.file.content = w.file.content ++ t
  piece : t <+: record.encoding
  encodes : t ≠ [] → record.Encodes w.options
  whole : status.isOk = true → t = record.encoding ∧ record.Encodes w.options ∧
    w'.failed = false
  synced : w'.file.synced = w.file.synced ∨ w'.file.synced = w'.file.content.length
  covered : status.isOk = true → mode = .sync → w'.file.synced = w'.file.content.length
  script : ∃ attempts syncs, w.file.Uses w'.file attempts syncs ∧
    (status.isOk = true ↔ WritableFile.Passed attempts syncs ∧ record.Encodes w.options)

/-- What is synced grows with the file, and stays within it. -/
theorem WalWriter.Appended.synced_grows {w w' : WalWriter} {status : Status} {record : Record}
    {mode : SyncMode} {t : Bytes} (h : w.Appended w' status record mode t)
    (hle : w.file.synced ≤ w.file.content.length) :
    w.file.synced ≤ w'.file.synced ∧ w'.file.synced ≤ w'.file.content.length := by
  have hgrown := congrArg List.length h.content
  rw [List.length_append] at hgrown
  rcases h.synced with heq | heq <;> omega

theorem WalWriter.rememberFailure_isOk (w : WalWriter) (status : Status) :
    (w.rememberFailure status).1.isOk = false := by
  rw [rememberFailure]
  dsimp only
  split
  · rfl
  · rename_i h
    exact Bool.eq_false_iff.mpr h

/-- The writer after a failure: the bytes are as they were left. -/
theorem WalWriter.appended_rememberFailure {w w' : WalWriter} {record : Record} {t : Bytes}
    (mode : SyncMode) (status : Status) (hoptions : w'.options = w.options)
    (hcontent : w'.file.content = w.file.content ++ t) (hpiece : t <+: record.encoding)
    (hencodes : record.Encodes w.options) (hsynced : w'.file.synced = w.file.synced)
    {attempts : List WriteAttempt} {syncs : List Status}
    (huses : w.file.Uses w'.file attempts syncs) (hfail : ¬ WritableFile.Passed attempts syncs) :
    w.Appended (w'.rememberFailure status).2 (w'.rememberFailure status).1 record mode t := by
  have hfailed := w'.rememberFailure_isOk status
  refine ⟨hoptions, hcontent, hpiece, fun _ => hencodes, fun h => ?_, Or.inl hsynced, fun h => ?_,
    attempts, syncs, huses, ?_⟩
  · rw [hfailed] at h
    cases h
  · rw [hfailed] at h
    cases h
  · rw [hfailed]
    exact iff_of_false (by decide) (fun h => hfail h.1)

theorem WalWriter.append_spec {w : WalWriter} (hw : w.failed = false) (record : Record)
    {mode : SyncMode} (hmode : mode = .sync ∨ mode = .async) :
    ∃ t, w.Appended (w.append record mode).2 (w.append record mode).1 record mode t := by
  unfold append
  rw [if_neg (by rw [hw]; decide), if_neg (by tauto)]
  cases hencode : encodeWalRecord w.options record with
  | error e =>
    have he : e.isOk = false := by
      rw [Status.isOk, encodeWalRecord_error hencode]
      rfl
    refine ⟨[], rfl, (List.append_nil _).symm, List.nil_prefix, fun h => absurd rfl h, fun h => ?_,
      Or.inl rfl, fun h => ?_, [], [], .refl _, ?_⟩
    · rw [he] at h
      cases h
    · rw [he] at h
      cases h
    · rw [he]
      refine iff_of_false (by decide) (fun h => ?_)
      have hno := h.2
      rw [Record.Encodes, hencode] at hno
      cases hno
  | ok encoded =>
    obtain ⟨hencodes, rfl⟩ := Record.encodes_of_ok hencode
    obtain ⟨p, rest, hp, hfile, hall⟩ := w.file.writeAll_cases record.encoding
    obtain ⟨used, hused, hpassed⟩ := w.file.writeAll_uses record.encoding
    rw [hfile, WritableFile.grow_attempts] at hused
    dsimp only
    rw [hfile]
    by_cases hwrite : (w.file.writeAll record.encoding).1.isOk = true
    · obtain rfl := hall hwrite
      have hgone := hpassed.mp hwrite
      rw [if_neg (by rw [hwrite]; decide)]
      by_cases hsync : mode = .sync
      · rw [if_pos hsync]
        obtain ⟨hcontent, hsynced⟩ := (w.file.grow record.encoding rest).sync_cases
        obtain ⟨hattempts, covered, hcovered, hok⟩ := (w.file.grow record.encoding rest).sync_uses
        have huses : w.file.Uses (w.file.grow record.encoding rest).sync.2 used covered :=
          ⟨by rw [hattempts]; exact hused, hcovered⟩
        by_cases hstatus : (w.file.grow record.encoding rest).sync.1.isOk = true
        · rw [if_pos hstatus] at hsynced
          have hlength := hsynced.trans (congrArg List.length hcontent.symm)
          rw [if_neg (by rw [hstatus]; decide)]
          exact ⟨_, rfl, hcontent, hp, fun _ => hencodes, fun _ => ⟨rfl, hencodes, hw⟩,
            Or.inr hlength, fun _ _ => hlength, _, _, huses,
            iff_of_true rfl ⟨⟨hgone, hok.mp hstatus⟩, hencodes⟩⟩
        · rw [if_neg hstatus] at hsynced
          rw [if_pos (by simpa using hstatus)]
          exact ⟨_, appended_rememberFailure mode _ rfl hcontent hp hencodes hsynced huses
            (fun h => hstatus (hok.mpr h.2))⟩
      · rw [if_neg hsync]
        exact ⟨_, rfl, rfl, hp, fun _ => hencodes, fun _ => ⟨rfl, hencodes, hw⟩, Or.inl rfl,
          fun _ h => absurd h hsync, used, [], ⟨hused, rfl⟩,
          iff_of_true rfl ⟨⟨hgone, by simp⟩, hencodes⟩⟩
    · have huses : w.file.Uses (w.file.grow p rest) used [] := ⟨hused, rfl⟩
      rw [if_pos (by simpa using hwrite)]
      exact ⟨p, appended_rememberFailure mode _ rfl rfl hp hencodes rfl huses
        (fun h => hwrite (hpassed.mpr h.1))⟩

/-- What a call that consumes a sequence number leaves of the path. -/
structure Attempted (p q : WritePath) (status : Status) (c : Call) (t : Bytes) : Prop where
  healthy : p.status.isOk = true
  options : q.options = p.options
  lastSequence : q.lastSequence = p.lastSequence + 1
  appended : ∃ walStatus, (status.isOk = true → walStatus.isOk = true) ∧
    (walStatus.isOk = true → status.isOk = false →
      ∃ e, p.memtable.applyRecord p.options (c.record (p.lastSequence + 1)) = .error e) ∧
    p.wal.Appended q.wal walStatus (c.record (p.lastSequence + 1)) c.mode t
  failure : status.isOk = false → q.status.isOk = false ∧ q.memtable = p.memtable
  success : status.isOk = true → q.status = p.status ∧
    p.memtable.applyRecord p.options (c.record (p.lastSequence + 1)) = .ok q.memtable

/-- The calls that consume a sequence number. -/
structure Accepts (p : WritePath) (c : Call) : Prop where
  valid : (validateWalRecord p.options (c.record 1)).isOk = true
  mode : c.mode = .sync ∨ c.mode = .async
  healthy : p.status.isOk = true
  room : p.lastSequence ≠ maxUInt64

/-- A call is refused and changes nothing, or it consumes a number. -/
theorem write_cases {p : WritePath} (hw : p.status.isOk = true → p.wal.failed = false) (c : Call) :
    (¬ p.Accepts c ∧ (p.write c).1.isOk = false ∧ (p.write c).2 = p) ∨
      (p.Accepts c ∧ ∃ t, p.Attempted (p.write c).2 (p.write c).1 c t) := by
  unfold write
  dsimp only
  by_cases hvalid : (validateWalRecord p.options (c.record 1)).isOk = true
  case neg =>
    rw [if_pos (by simpa using hvalid)]
    exact Or.inl ⟨fun h => hvalid h.valid, by simpa using hvalid, rfl⟩
  rw [if_neg (by rw [hvalid]; decide)]
  by_cases hmode : c.mode ≠ .sync ∧ c.mode ≠ .async
  case pos =>
    rw [if_pos hmode]
    exact Or.inl ⟨fun h => h.mode.elim hmode.1 hmode.2, rfl, rfl⟩
  rw [if_neg hmode]
  by_cases hok : p.status.isOk = true
  case neg =>
    rw [if_pos (by simpa using hok)]
    exact Or.inl ⟨fun h => hok h.healthy, by simpa using hok, rfl⟩
  rw [if_neg (by rw [hok]; decide), if_neg (by rw [hw hok]; decide)]
  by_cases hroom : p.lastSequence = maxUInt64
  case pos =>
    rw [if_pos hroom]
    exact Or.inl ⟨fun h => h.room hroom, rfl, rfl⟩
  rw [if_neg hroom]
  right
  have hmode : c.mode = .sync ∨ c.mode = .async := by tauto
  refine ⟨⟨hvalid, hmode, hok, hroom⟩, ?_⟩
  obtain ⟨t, happ⟩ := WalWriter.append_spec (hw hok) (c.record (p.lastSequence + 1)) hmode
  refine ⟨t, ?_⟩
  by_cases hwal : (p.wal.append (c.record (p.lastSequence + 1)) c.mode).1.isOk = true
  case neg =>
    have hfail : (p.wal.append (c.record (p.lastSequence + 1)) c.mode).1.isOk = false := by
      simpa using hwal
    rw [if_pos (by rw [hfail]; decide)]
    exact ⟨hok, rfl, rfl, ⟨_, fun h => h, fun h => absurd h hwal, happ⟩, fun _ => ⟨hfail, rfl⟩,
      fun h => absurd h hwal⟩
  rw [if_neg (by rw [hwal]; decide)]
  cases happly : p.memtable.applyRecord p.options (c.record (p.lastSequence + 1)) with
  | error e =>
    exact ⟨hok, rfl, rfl, ⟨_, fun _ => hwal, fun _ _ => ⟨e, happly⟩, happ⟩, fun _ => ⟨rfl, rfl⟩,
      fun h => by cases h⟩
  | ok m =>
    exact ⟨hok, rfl, rfl, ⟨_, fun _ => hwal, fun _ h => (by cases h), happ⟩, fun h => (by cases h),
      fun _ => ⟨rfl, happly⟩⟩

/-- A call that validation rejects changes nothing. -/
theorem write_rejected {p : WritePath} {c : Call}
    (h : (validateWalRecord p.options (c.record 1)).isOk = false) :
    p.write c = (validateWalRecord p.options (c.record 1), p) := by
  unfold write
  dsimp only
  rw [if_pos (by rw [h]; decide)]

/-- Nor does a call with an invalid sync mode. -/
theorem write_invalidMode {p : WritePath} {c : Call}
    (h : (validateWalRecord p.options (c.record 1)).isOk = true) (hmode : c.mode = .invalid) :
    p.write c = (.invalidArgument "write sync mode is invalid", p) := by
  unfold write
  dsimp only
  rw [if_neg (by rw [h]; decide), if_pos (by rw [hmode]; decide)]

/-- Behind a failure every call is refused. -/
theorem write_failed {p : WritePath} (hp : p.status.isOk = false) (c : Call) :
    (p.write c).1.isOk = false ∧ (p.write c).2 = p := by
  rcases write_cases (fun h => by rw [hp] at h; cases h) c with ⟨-, h⟩ | ⟨h, -⟩
  · exact h
  · have hok := h.healthy
    rw [hp] at hok
    cases hok

/-- A record that is too large for the format, or with which the counter of the table would
overflow. -/
def Oversized (m : MemTable) (r : Record) : Prop :=
  maxUInt32 < r.walSize ∨ maxUInt64 < m.approximateDataSize + r.payloadSize

theorem Call.record_valid {o : FormatOptions} {c : Call} (h : (c.record 1).Valid o) (n : Nat) :
    (c.record (n + 1)).Valid o := by
  cases c with
  | put key value mode =>
    exact ⟨Nat.succ_pos n, h.key_pos, h.key_le, h.value_le, h.key_word, h.value_word, h.deletion⟩
  | delete key mode =>
    exact ⟨Nat.succ_pos n, h.key_pos, h.key_le, h.value_le, h.key_word, h.value_word, h.deletion⟩

theorem Call.record_sequence (c : Call) (n : Nat) : (c.record n).sequence = n := by
  cases c <;> rfl

/-- An accepted call returns OK exactly if no write and no sync fails and the record has an
admissible size. -/
theorem Attempted.isOk_iff {p q : WritePath} {status : Status} {c : Call} {t : Bytes}
    (h : p.Attempted q status c t) (hc : p.Accepts c) (hwal : p.wal.options = p.options)
    (hword : p.lastSequence ≤ maxUInt64)
    (hnew : ∀ x ∈ p.memtable.entries, x.sequence ≤ p.lastSequence) :
    ∃ attempts syncs, p.wal.file.Uses q.wal.file attempts syncs ∧
      (status.isOk = true ↔ WritableFile.Passed attempts syncs ∧
        ¬ Oversized p.memtable (c.record (p.lastSequence + 1))) := by
  obtain ⟨walStatus, himp, hrefused, happ⟩ := h.appended
  obtain ⟨attempts, syncs, huses, hok⟩ := happ.script
  have hvalid := Call.record_valid (validateWalRecord_isOk.mp hc.valid) p.lastSequence
  have hseq := c.record_sequence (p.lastSequence + 1)
  have hroom := hc.room
  refine ⟨attempts, syncs, huses, fun hstatus => ?_, fun ⟨hpassed, hsize⟩ => ?_⟩
  · obtain ⟨hpassed, hencodes⟩ := hok.mp (himp hstatus)
    refine ⟨hpassed, fun hlarge => ?_⟩
    have hfits := (encodeWalRecord_eq_ok.mp hencodes).2.1
    have happly := (h.success hstatus).2
    rw [MemTable.applyRecord_of_valid hvalid] at happly
    have hleft := MemTable.add_room happly
    rcases hlarge with hlarge | hlarge <;> omega
  · rw [Oversized, not_or, not_lt, not_lt] at hsize
    have hencodes : (c.record (p.lastSequence + 1)).Encodes p.wal.options := by
      rw [hwal]
      exact encodeWalRecord_eq_ok.mpr ⟨hvalid, hsize.1, by omega, rfl⟩
    by_contra hno
    obtain ⟨e, he⟩ := hrefused (hok.mpr ⟨hpassed, hencodes⟩) (by simpa using hno)
    -- every record of the table is older
    have happly : p.memtable.add p.options (c.record (p.lastSequence + 1)) = .ok _ :=
      MemTable.add_eq_ok hvalid (fun x hx _ => by have := hnew x hx; omega) hsize.2
    rw [MemTable.applyRecord_of_valid hvalid, happly] at he
    cases he

/-! ## Runs -/

/-- What a call has returned, with the record if a sequence number was consumed for it. -/
structure Returned where
  mode : SyncMode
  status : Status
  attempted : Option Record

/-- A path and what its calls have returned. -/
structure Trace where
  path : WritePath
  returned : List Returned

namespace Trace

def step (s : Trace) (c : Call) : Trace :=
  let (status, q) := s.path.write c
  let attempted :=
    if q.lastSequence = s.path.lastSequence then none else some (c.record q.lastSequence)
  ⟨q, s.returned ++ [⟨c.mode, status, attempted⟩]⟩

def run (s : Trace) (calls : List Call) : Trace := calls.foldl step s

/-- The records that a sequence number was consumed for. -/
def attempted (s : Trace) : List Record := s.returned.filterMap Returned.attempted

/-- The records of the writes that returned OK. -/
def written (s : Trace) : List Record :=
  (s.returned.filter (fun x => x.status.isOk)).filterMap Returned.attempted

/-- The bytes of the log. -/
def content (s : Trace) : Bytes := s.path.wal.file.content

/-- The writes that were synced before they returned OK. -/
def Acknowledged (s : Trace) (r : Record) : Prop :=
  ∃ x ∈ s.returned, x.mode = .sync ∧ x.status.isOk = true ∧ x.attempted = some r

/-- What a run keeps, with the record of the failed attempt and the bytes it left. -/
structure Logged (o : FormatOptions) (s : Trace) (failed : List Record) (t : Bytes) : Prop where
  options : s.path.options = o
  walOptions : s.path.wal.options = o
  attempted : s.attempted = s.written ++ failed
  failed_le : failed.length ≤ 1
  accepted : ∀ x ∈ s.returned, x.status.isOk = true → x.attempted.isSome = true
  sequences : s.attempted.map Record.sequence = List.range' 1 s.attempted.length
  lastSequence : s.path.lastSequence = s.attempted.length
  encodes : ∀ r ∈ s.written, r.Encodes o
  bytes : s.content = s.written.flatMap Record.encoding ++ t
  tail : t <+: failed.flatMap Record.encoding
  piece : t ≠ [] → ∀ r ∈ failed, r.Encodes o
  memtable : s.written.foldlM (MemTable.applyRecord o) MemTable.empty = Except.ok s.path.memtable
  synced_le : s.path.wal.file.synced ≤ s.content.length
  covered : ∀ r, s.Acknowledged r → ∃ ss, ss ++ [r] <+: s.written ∧
    ((ss ++ [r]).flatMap Record.encoding).length ≤ s.path.wal.file.synced
  healthy : failed = [] → s.path.status.isOk = true ∧ s.path.wal.failed = false
  poisoned : failed ≠ [] → s.path.status.isOk = false

/-- The trace of a path that has just been created. -/
def start (o : FormatOptions) (file : WritableFile) : Trace := ⟨.create o file, []⟩

theorem logged_start (o : FormatOptions) (name : String) (attempts : List WriteAttempt)
    (syncs : List Status) :
    (start o (.create name attempts syncs)).Logged o [] [] where
  options := rfl
  walOptions := rfl
  attempted := rfl
  failed_le := Nat.zero_le _
  accepted := by intro x hx; cases hx
  sequences := rfl
  lastSequence := rfl
  encodes := by intro r hr; cases hr
  bytes := rfl
  tail := List.prefix_rfl
  piece := fun h => absurd rfl h
  memtable := rfl
  synced_le := Nat.zero_le _
  covered := by rintro r ⟨x, hx, -⟩; cases hx
  healthy := fun _ => ⟨rfl, rfl⟩
  poisoned := fun h => absurd rfl h

/-- A trace with one more answer. -/
theorem attempted_append (s : Trace) (p : WritePath) (x : Returned) :
    attempted ⟨p, s.returned ++ [x]⟩ = s.attempted ++ x.attempted.toList := by
  simp only [attempted, List.filterMap_append]
  cases hx : x.attempted <;> simp [hx]

theorem written_append (s : Trace) (p : WritePath) (x : Returned) :
    written ⟨p, s.returned ++ [x]⟩ =
      s.written ++ if x.status.isOk then x.attempted.toList else [] := by
  simp only [written, List.filter_append, List.filterMap_append]
  cases hx : x.attempted <;> cases hok : x.status.isOk <;> simp [hx, hok]

/-- A call without a number attempts nothing. -/
theorem attempted_refused (s : Trace) (p : WritePath) (mode : SyncMode) (status : Status) :
    attempted ⟨p, s.returned ++ [⟨mode, status, none⟩]⟩ = s.attempted := by
  rw [attempted_append]
  exact List.append_nil _

/-- A call that fails writes nothing. -/
theorem written_failed (s : Trace) (p : WritePath) {x : Returned} (h : x.status.isOk = false) :
    written ⟨p, s.returned ++ [x]⟩ = s.written := by
  rw [written_append, h]
  exact List.append_nil _

theorem acknowledged_append {s : Trace} {p : WritePath} {x : Returned} {r : Record}
    (h : Acknowledged ⟨p, s.returned ++ [x]⟩ r) :
    s.Acknowledged r ∨ (x.mode = .sync ∧ x.status.isOk = true ∧ x.attempted = some r) := by
  obtain ⟨y, hy, hrest⟩ := h
  rcases List.mem_append.mp hy with hy | hy
  · exact Or.inl ⟨y, hy, hrest⟩
  · rw [List.mem_singleton.mp hy] at hrest
    exact Or.inr hrest

variable {o : FormatOptions} {s : Trace} {failed : List Record} {t : Bytes}

theorem Logged.wal_healthy (h : s.Logged o failed t) (hok : s.path.status.isOk = true) :
    s.path.wal.failed = false := by
  by_cases hnil : failed = []
  · exact (h.healthy hnil).2
  · rw [h.poisoned hnil] at hok
    cases hok

theorem Logged.attempted_eq (h : s.Logged o failed t) (hok : s.path.status.isOk = true) :
    s.attempted = s.written := by
  have hnil : failed = [] := by
    by_contra hne
    rw [h.poisoned hne] at hok
    cases hok
  rw [h.attempted, hnil, List.append_nil]

/-- A call that is refused adds an answer and nothing else. -/
theorem Logged.refused (h : s.Logged o failed t) {status : Status} (hstatus : status.isOk = false)
    (mode : SyncMode) : Logged o ⟨s.path, s.returned ++ [⟨mode, status, none⟩]⟩ failed t := by
  have hattempted := attempted_refused s s.path mode status
  have hwritten : written ⟨s.path, s.returned ++ [⟨mode, status, none⟩]⟩ = s.written :=
    written_failed s s.path hstatus
  refine ⟨h.options, h.walOptions, ?_, h.failed_le, fun x hx hok => ?_, ?_, ?_, ?_, ?_, h.tail,
    h.piece, ?_, h.synced_le, fun r hr => ?_, h.healthy, h.poisoned⟩
  · rw [hattempted, hwritten]
    exact h.attempted
  · rcases List.mem_append.mp hx with hx | hx
    · exact h.accepted x hx hok
    · rw [List.mem_singleton.mp hx, hstatus] at hok
      cases hok
  · rw [hattempted]
    exact h.sequences
  · rw [hattempted]
    exact h.lastSequence
  · rw [hwritten]
    exact h.encodes
  · rw [hwritten]
    exact h.bytes
  · rw [hwritten]
    exact h.memtable
  · rcases acknowledged_append hr with hr | ⟨-, hok, -⟩
    · rw [hwritten]
      exact h.covered r hr
    · rw [hstatus] at hok
      cases hok

/-- The sequence numbers with one more. -/
theorem Logged.sequences_snoc (h : s.Logged o failed t) (c : Call) :
    (s.attempted ++ [c.record (s.path.lastSequence + 1)]).map Record.sequence =
      List.range' 1 (s.attempted ++ [c.record (s.path.lastSequence + 1)]).length := by
  have hseq := c.record_sequence (s.path.lastSequence + 1)
  rw [List.map_append, h.sequences, List.length_append, List.length_singleton,
    List.range'_concat, List.map_singleton, hseq, h.lastSequence]
  rw [Nat.one_mul, Nat.add_comm 1]

/-- A call that consumes a number before anything has failed. -/
theorem Logged.attempt (h : s.Logged o [] []) {q : WritePath} {status : Status} {c : Call}
    {p : Bytes} (ha : s.path.Attempted q status c p) :
    ∃ failed t, Logged o
      ⟨q, s.returned ++ [⟨c.mode, status, some (c.record (s.path.lastSequence + 1))⟩]⟩ failed t := by
  set r := c.record (s.path.lastSequence + 1) with hr
  obtain ⟨walStatus, himp, -, happ⟩ := ha.appended
  have hattempted : Trace.attempted ⟨q, s.returned ++ [⟨c.mode, status, some r⟩]⟩ =
      s.attempted ++ [r] := attempted_append _ _ _
  have hsequences := h.sequences_snoc c
  rw [← hr] at hsequences happ
  have hbytes : q.wal.file.content = s.written.flatMap Record.encoding ++ p := by
    have hstart : s.path.wal.file.content = _ := h.bytes
    rw [happ.content, hstart, List.append_nil]
  have hgrown := happ.synced_grows h.synced_le
  have hlast : q.lastSequence = (s.attempted ++ [r]).length := by
    rw [ha.lastSequence, h.lastSequence, List.length_append, List.length_singleton]
  have haccepted : ∀ x ∈ s.returned ++ [⟨c.mode, status, some r⟩], x.status.isOk = true →
      x.attempted.isSome = true := by
    intro x hx hok
    rcases List.mem_append.mp hx with hx | hx
    · exact h.accepted x hx hok
    · rw [List.mem_singleton.mp hx]
      rfl
  have hsame : s.attempted = s.written := h.attempted.trans (List.append_nil _)
  have holder : ∀ x, s.Acknowledged x → ∃ ss, ss ++ [x] <+: s.written ∧
      ((ss ++ [x]).flatMap Record.encoding).length ≤ q.wal.file.synced := by
    intro x hx
    obtain ⟨ss, hss, hle⟩ := h.covered x hx
    exact ⟨ss, hss, hle.trans hgrown.1⟩
  cases hstatus : status.isOk with
  | false =>
    have hwritten : written ⟨q, s.returned ++ [⟨c.mode, status, some r⟩]⟩ = s.written :=
      written_failed s q hstatus
    obtain ⟨hfailed, hmemtable⟩ := ha.failure hstatus
    refine ⟨[r], p, ha.options.trans h.options, happ.options.trans h.walOptions, ?_, le_refl _,
      haccepted, ?_, ?_, ?_, ?_, ?_, fun hne x hx => ?_, ?_, hgrown.2, fun x hx => ?_, nofun,
      fun _ => hfailed⟩
    · rw [hattempted, hwritten, hsame]
    · rw [hattempted]
      exact hsequences
    · rw [hattempted]
      exact hlast
    · rw [hwritten]
      exact h.encodes
    · rw [hwritten]
      exact hbytes
    · rw [List.flatMap_singleton]
      exact happ.piece
    · rw [List.mem_singleton.mp hx, ← h.walOptions]
      exact happ.encodes hne
    · rw [hwritten, h.memtable]
      exact congrArg _ hmemtable.symm
    · rw [hwritten]
      rcases acknowledged_append hx with hx | ⟨-, hok, -⟩
      · exact holder x hx
      · rw [hstatus] at hok
        cases hok
  | true =>
    have hwritten : written ⟨q, s.returned ++ [⟨c.mode, status, some r⟩]⟩ = s.written ++ [r] := by
      rw [written_append, hstatus]
      rfl
    obtain ⟨rfl, hencodes, hwal⟩ := happ.whole (himp hstatus)
    obtain ⟨hstill, happly⟩ := ha.success hstatus
    rw [h.walOptions] at hencodes
    rw [h.options, ← hr] at happly
    have hall : q.wal.file.content = (s.written ++ [r]).flatMap Record.encoding := by
      rw [hbytes, List.flatMap_append, List.flatMap_singleton]
    refine ⟨[], [], ha.options.trans h.options, happ.options.trans h.walOptions, ?_, Nat.zero_le _,
      haccepted, ?_, ?_, ?_, ?_, List.prefix_rfl, fun hne => absurd rfl hne, ?_, hgrown.2,
      fun x hx => ?_, fun _ => ⟨hstill ▸ ha.healthy, hwal⟩, fun hne => absurd rfl hne⟩
    · rw [hattempted, hwritten, hsame, List.append_nil]
    · rw [hattempted]
      exact hsequences
    · rw [hattempted]
      exact hlast
    · rw [hwritten]
      intro x hx
      rcases List.mem_append.mp hx with hx | hx
      · exact h.encodes x hx
      · rwa [List.mem_singleton.mp hx]
    · rw [hwritten, List.append_nil]
      exact hall
    · rw [hwritten, List.foldlM_append, h.memtable]
      show List.foldlM (MemTable.applyRecord o) s.path.memtable [r] = _
      rw [List.foldlM_cons, happly]
      rfl
    · rw [hwritten]
      rcases acknowledged_append hx with hx | ⟨hmode, -, hx⟩
      · obtain ⟨ss, hss, hle⟩ := holder x hx
        exact ⟨ss, hss.trans (List.prefix_append _ _), hle⟩
      · refine ⟨s.written, ?_, ?_⟩
        · rw [Option.some.inj hx]
        · show _ ≤ q.wal.file.synced
          rw [← Option.some.inj hx, happ.covered (himp hstatus) hmode, hall]

theorem Logged.step (h : s.Logged o failed t) (c : Call) :
    ∃ failed' t', (s.step c).Logged o failed' t' := by
  unfold Trace.step
  dsimp only
  rcases write_cases h.wal_healthy c with ⟨-, hstatus, hpath⟩ | ⟨-, p, ha⟩
  · rw [hpath, if_pos rfl]
    exact ⟨failed, t, h.refused hstatus c.mode⟩
  · have hnil : failed = [] := by
      by_contra hne
      have hok := ha.healthy
      rw [h.poisoned hne] at hok
      cases hok
    subst hnil
    obtain rfl := List.prefix_nil.mp h.tail
    rw [if_neg (by rw [ha.lastSequence]; omega), ha.lastSequence]
    exact h.attempt ha

/-! ## Recovery -/

/-- The records whose bytes have begun to reach the file. -/
theorem Logged.begun (h : s.Logged o failed t) :
    ∃ rs, rs <+: s.attempted ∧ (∀ r ∈ rs, r.Encodes o) ∧
      s.content <+: rs.flatMap Record.encoding := by
  by_cases ht : t = []
  · refine ⟨s.written, ⟨failed, h.attempted.symm⟩, h.encodes, ?_⟩
    rw [h.bytes, ht, List.append_nil]
  · refine ⟨s.attempted, List.prefix_rfl, fun r hr => ?_, ?_⟩
    · rw [h.attempted] at hr
      rcases List.mem_append.mp hr with hr | hr
      · exact h.encodes r hr
      · exact h.piece ht r hr
    · rw [h.bytes, h.attempted, List.flatMap_append]
      exact (List.prefix_append_right_inj _).mpr h.tail

theorem Logged.increasing (h : s.Logged o failed t) :
    s.attempted.Pairwise (fun r x => r.sequence < x.sequence) := by
  rw [← List.pairwise_map (R := (· < ·)), h.sequences]
  exact List.pairwise_lt_range'

/-- A cut that keeps the synced bytes reads as a prefix of the attempted writes, with all
that were acknowledged. -/
theorem Logged.cut (h : s.Logged o failed t) {content : Bytes} (hcut : content <+: s.content)
    (hkeep : s.path.wal.file.synced ≤ content.length) :
    ∃ kept u, kept <+: s.attempted ∧ WalGrammar o content kept u ∧
      ∀ r, s.Acknowledged r → r ∈ kept := by
  obtain ⟨rs, hrs, henc, hbytes⟩ := h.begun
  obtain ⟨kept, u, hkept, hcontent, hu⟩ := RecoveryFile.records_cut henc (hcut.trans hbytes)
  have hkeptEnc : ∀ r ∈ kept, r.Encodes o := fun r hr => henc r (hkept.subset hr)
  refine ⟨kept, u, hkept.trans hrs, ⟨hcontent, hkeptEnc,
    h.increasing.sublist (hkept.trans hrs).sublist, hu⟩, fun r hr => ?_⟩
  obtain ⟨ss, hss, hle⟩ := h.covered r hr
  -- the acknowledged record and all before it lie in the part that is kept
  have hfront : (ss ++ [r]).flatMap Record.encoding <+: content := by
    obtain ⟨later, hlater⟩ := hss
    have hsplit : s.written.flatMap Record.encoding =
        (ss ++ [r]).flatMap Record.encoding ++ later.flatMap Record.encoding := by
      rw [← hlater, List.flatMap_append]
    refine List.prefix_of_prefix_length_le ?_ hcut (hle.trans hkeep)
    rw [h.bytes, hsplit, List.append_assoc]
    exact List.prefix_append _ _
  obtain ⟨b, hb⟩ := hfront
  have hssEnc : ∀ x ∈ ss ++ [r], x.Encodes o := fun x hx => h.encodes x (hss.subset hx)
  obtain ⟨rest, rfl, -⟩ := RecoveryFile.reading_append hssEnc hkeptEnc hu (hb.trans hcontent)
  exact List.mem_append_left _ (List.mem_append_right _ List.mem_cons_self)

/-- What the log, the table and the answers have to do with each other. -/
structure Agrees (o : FormatOptions) (s : Trace) : Prop where
  accepted : ∀ x ∈ s.returned, x.status.isOk = true → x.attempted.isSome = true
  sequences : s.attempted.map Record.sequence = List.range' 1 s.attempted.length
  log : ∃ failed t, s.attempted = s.written ++ failed ∧ failed.length ≤ 1 ∧
    s.content = s.written.flatMap Record.encoding ++ t ∧ t <+: failed.flatMap Record.encoding
  memtable : s.written.foldlM (MemTable.applyRecord o) MemTable.empty = Except.ok s.path.memtable
  recovers : ∀ f : RecoveryFile, f.content <+: s.content →
    s.path.wal.file.synced ≤ f.content.length → ∀ m result, ∃ kept,
      kept <+: s.attempted ∧ (∀ r, s.Acknowledged r → r ∈ kept) ∧
      (f.recoverWal o m result).status = .ok ∧
      kept.foldlM (MemTable.applyRecord o) MemTable.empty =
        Except.ok (f.recoverWal o m result).memtable

theorem Logged.agrees (h : s.Logged o failed t) : s.Agrees o := by
  refine ⟨h.accepted, h.sequences, ⟨failed, t, h.attempted, h.failed_le, h.bytes, h.tail⟩,
    h.memtable, fun f hcut hkeep m result => ?_⟩
  obtain ⟨kept, u, hkept, hgrammar, hall⟩ := h.cut hcut hkeep
  have hreplays := RecoveryFile.recoverWal_replays hgrammar m result
  exact ⟨kept, hkept, hall, hreplays.status, hreplays.memtable⟩

/-! ## Failures of the file -/

/-- What the failures of the file have to do with those of the calls, with the part of the
script that has been used. -/
structure Scripted (file : WritableFile) (s : Trace) (attempts : List WriteAttempt)
    (syncs : List Status) : Prop where
  uses : file.Uses s.path.wal.file attempts syncs
  failed : ¬ WritableFile.Passed attempts syncs → s.attempted ≠ s.written
  passed : WritableFile.Passed attempts syncs →
    s.attempted = s.written ∨ ∃ r, s.attempted = s.written ++ [r] ∧ Oversized s.path.memtable r
  word : s.path.lastSequence ≤ maxUInt64
  older : ∀ x ∈ s.path.memtable.entries, x.sequence ≤ s.path.lastSequence

theorem scripted_start (o : FormatOptions) (file : WritableFile) :
    (start o file).Scripted file [] [] where
  uses := .refl file
  failed := fun h => absurd ⟨by simp, by simp⟩ h
  passed := fun _ => Or.inl rfl
  word := Nat.zero_le _
  older := by intro x hx; cases hx

theorem Scripted.refused {file : WritableFile} {attempts : List WriteAttempt}
    {syncs : List Status} (h : s.Scripted file attempts syncs) {status : Status}
    (hstatus : status.isOk = false) (mode : SyncMode) :
    Scripted file ⟨s.path, s.returned ++ [⟨mode, status, none⟩]⟩ attempts syncs := by
  have hattempted := attempted_refused s s.path mode status
  have hwritten : written ⟨s.path, s.returned ++ [⟨mode, status, none⟩]⟩ = s.written :=
    written_failed s s.path hstatus
  refine ⟨h.uses, ?_, ?_, h.word, h.older⟩
  · rw [hattempted, hwritten]
    exact h.failed
  · rw [hattempted, hwritten]
    exact h.passed

/-- A call that consumes a number before anything has failed. -/
theorem Scripted.attempt {file : WritableFile} {attempts : List WriteAttempt}
    {syncs : List Status} (h : s.Scripted file attempts syncs) (hsame : s.attempted = s.written)
    (hwal : s.path.wal.options = s.path.options) {q : WritePath} {status : Status} {c : Call}
    (hc : s.path.Accepts c) (ha : s.path.Attempted q status c t) :
    ∃ attempts' syncs', Scripted file
      ⟨q, s.returned ++ [⟨c.mode, status, some (c.record (s.path.lastSequence + 1))⟩]⟩
      attempts' syncs' := by
  set r := c.record (s.path.lastSequence + 1) with hr
  have hpassed : WritableFile.Passed attempts syncs := by
    by_contra hno
    exact h.failed hno hsame
  obtain ⟨as, xs, huses, hok⟩ := ha.isOk_iff hc hwal h.word h.older
  have hattempted : Trace.attempted ⟨q, s.returned ++ [⟨c.mode, status, some r⟩]⟩ =
      s.attempted ++ [r] := attempted_append _ _ _
  have hword : q.lastSequence ≤ maxUInt64 := by
    have hle := h.word
    have hne := hc.room
    rw [ha.lastSequence]
    omega
  refine ⟨attempts ++ as, syncs ++ xs, h.uses.trans huses, ?_, ?_, hword, ?_⟩
  · intro hno
    have hstatus : status.isOk = false := by
      by_contra hyes
      exact hno (WritableFile.passed_append.mpr ⟨hpassed, (hok.mp (by simpa using hyes)).1⟩)
    rw [hattempted, written_failed s q hstatus, hsame]
    simp
  · intro hall
    rw [hattempted, written_append, hsame]
    cases hstatus : status.isOk with
    | true => exact Or.inl rfl
    | false =>
      refine Or.inr ⟨r, by simp, ?_⟩
      show Oversized q.memtable r
      rw [(ha.failure hstatus).2]
      by_contra hsize
      have hyes := hok.mpr ⟨(WritableFile.passed_append.mp hall).2, hsize⟩
      rw [hstatus] at hyes
      cases hyes
  · intro x hx
    show x.sequence ≤ q.lastSequence
    rw [ha.lastSequence]
    cases hstatus : status.isOk with
    | false =>
      have hx : x ∈ s.path.memtable.entries := by
        rw [← (ha.failure hstatus).2]
        exact hx
      exact (h.older x hx).trans (Nat.le_succ _)
    | true =>
      have happly := (ha.success hstatus).2
      have hvalid := Call.record_valid (validateWalRecord_isOk.mp hc.valid) s.path.lastSequence
      rw [MemTable.applyRecord_of_valid hvalid] at happly
      have hx : x ∈ (s.path.memtable.insert r).entries := by
        rw [← MemTable.add_ok happly]
        exact hx
      rcases MemTable.mem_insert hx with rfl | hx
      · rw [hr, c.record_sequence]
      · exact (h.older x hx).trans (Nat.le_succ _)

/-- What a run keeps. -/
structure Sound (o : FormatOptions) (file : WritableFile) (s : Trace) : Prop where
  logged : ∃ failed t, s.Logged o failed t
  scripted : ∃ attempts syncs, s.Scripted file attempts syncs

theorem Sound.step {file : WritableFile} (h : s.Sound o file) (c : Call) :
    (s.step c).Sound o file := by
  obtain ⟨⟨failed, t, hlog⟩, attempts, syncs, hscript⟩ := h
  refine ⟨hlog.step c, ?_⟩
  unfold Trace.step
  dsimp only
  rcases write_cases hlog.wal_healthy c with ⟨-, hstatus, hpath⟩ | ⟨hc, p, ha⟩
  · rw [hpath, if_pos rfl]
    exact ⟨attempts, syncs, hscript.refused hstatus c.mode⟩
  · rw [if_neg (by rw [ha.lastSequence]; omega), ha.lastSequence]
    exact hscript.attempt (hlog.attempted_eq hc.healthy) (hlog.walOptions.trans hlog.options.symm)
      hc ha

theorem Sound.run {file : WritableFile} (h : s.Sound o file) (calls : List Call) :
    (s.run calls).Sound o file := by
  induction calls generalizing s with
  | nil => exact h
  | cons c calls ih => exact ih (h.step c)

/-- Behind a failure the calls add refusals to the trace and change nothing else. -/
theorem run_failed {s : Trace} (hs : s.path.status.isOk = false) (calls : List Call) :
    ∃ later, s.run calls = ⟨s.path, s.returned ++ later⟩ ∧
      ∀ x ∈ later, x.status.isOk = false ∧ x.attempted = none := by
  induction calls generalizing s with
  | nil => exact ⟨[], by rw [List.append_nil]; rfl, by intro x hx; cases hx⟩
  | cons c calls ih =>
    obtain ⟨hstatus, hpath⟩ := write_failed hs c
    have hstep : s.step c = ⟨s.path, s.returned ++ [⟨c.mode, (s.path.write c).1, none⟩]⟩ := by
      unfold Trace.step
      dsimp only
      rw [hpath, if_pos rfl]
    obtain ⟨later, hrun, hlater⟩ := ih (s := s.step c) (by rwa [hstep])
    rw [hstep] at hrun
    refine ⟨⟨c.mode, (s.path.write c).1, none⟩ :: later, ?_, fun x hx => ?_⟩
    · show (s.step c).run calls = _
      rw [hstep, hrun, List.append_assoc]
      rfl
    · rcases List.mem_cons.mp hx with rfl | hx
      · exact ⟨hstatus, rfl⟩
      · exact hlater x hx

/-- A call that nothing speaks against is attempted, and its outcome is that of the file. -/
theorem Sound.accepts {file : WritableFile} (h : s.Sound o file) {c : Call}
    (hvalid : (validateWalRecord o (c.record 1)).isOk = true)
    (hmode : c.mode = .sync ∨ c.mode = .async) (hsame : s.attempted = s.written)
    (hroom : s.attempted.length ≠ maxUInt64) :
    s.step c = ⟨(s.path.write c).2, s.returned ++
        [⟨c.mode, (s.path.write c).1, some (c.record (s.attempted.length + 1))⟩]⟩ ∧
      ∃ attempts syncs, s.path.wal.file.Uses (s.step c).path.wal.file attempts syncs ∧
        ((s.path.write c).1.isOk = true ↔ WritableFile.Passed attempts syncs ∧
          ¬ Oversized s.path.memtable (c.record (s.attempted.length + 1))) := by
  obtain ⟨⟨failed, t, hlog⟩, attempts, syncs, hscript⟩ := h
  have hnil : failed = [] := by
    have hattempted := hlog.attempted
    rw [hsame] at hattempted
    exact List.append_right_eq_self.mp hattempted.symm
  have haccepts : s.path.Accepts c :=
    ⟨by rw [hlog.options]; exact hvalid, hmode, (hlog.healthy hnil).1,
      by rw [hlog.lastSequence]; exact hroom⟩
  rcases write_cases hlog.wal_healthy c with ⟨hno, -⟩ | ⟨-, p, ha⟩
  · exact absurd haccepts hno
  have hiff := ha.isOk_iff haccepts (hlog.walOptions.trans hlog.options.symm) hscript.word
    hscript.older
  rw [hlog.lastSequence] at hiff
  refine ⟨?_, hiff⟩
  unfold Trace.step
  dsimp only
  rw [if_neg (by rw [ha.lastSequence]; omega), ha.lastSequence, hlog.lastSequence]

/-- The log and the table of a write path never diverge. After any calls on a new log and
however the file behaves: the log holds the records of the writes that returned OK, with the
sequence numbers from one on, and a piece of the record of the one attempt that failed; the
table is the replay of the writes that returned OK; every cut of the log that keeps the
synced bytes is recovered to a prefix of the attempted writes with all synced ones. A call
that validation rejects changes nothing. A failed write or sync of the file fails the call
that made it, and after a failed attempt no call changes anything; as long as none has failed,
every other call is attempted, and returns OK unless a write or sync of it fails or its record
is too large. -/
theorem writePath_agrees (o : FormatOptions) (name : String) (attempts : List WriteAttempt)
    (syncs : List Status) (calls : List Call) :
    let s := (start o (.create name attempts syncs)).run calls
    s.Agrees o ∧
    (∀ c : Call, (validateWalRecord o (c.record 1)).isOk = false →
      s.path.write c = (validateWalRecord o (c.record 1), s.path)) ∧
    (∀ c : Call, (validateWalRecord o (c.record 1)).isOk = true → c.mode = .invalid →
      s.path.write c = (.invalidArgument "write sync mode is invalid", s.path)) ∧
    (∃ used covered, attempts = used ++ s.path.wal.file.attempts ∧
      syncs = covered ++ s.path.wal.file.syncs ∧
      ((∃ a ∈ used, a.passes = false) ∨ (∃ x ∈ covered, x.isOk = false) →
        s.attempted ≠ s.written) ∧
      ((∀ a ∈ used, a.passes = true) ∧ (∀ x ∈ covered, x.isOk = true) →
        s.attempted = s.written ∨
          ∃ r, s.attempted = s.written ++ [r] ∧ Oversized s.path.memtable r)) ∧
    (s.attempted ≠ s.written → ∀ more, ∃ later, s.run more = ⟨s.path, s.returned ++ later⟩ ∧
      ∀ x ∈ later, x.status.isOk = false ∧ x.attempted = none) ∧
    ∀ c : Call, (validateWalRecord o (c.record 1)).isOk = true →
      c.mode = .sync ∨ c.mode = .async → s.attempted = s.written →
      s.attempted.length ≠ maxUInt64 →
      s.step c = ⟨(s.path.write c).2, s.returned ++
          [⟨c.mode, (s.path.write c).1, some (c.record (s.attempted.length + 1))⟩]⟩ ∧
        ∃ used covered, s.path.wal.file.Uses (s.step c).path.wal.file used covered ∧
          ((s.path.write c).1.isOk = true ↔ WritableFile.Passed used covered ∧
            ¬ Oversized s.path.memtable (c.record (s.attempted.length + 1))) := by
  intro s
  have hstart : (start o (.create name attempts syncs)).Sound o (.create name attempts syncs) :=
    ⟨⟨_, _, logged_start o name attempts syncs⟩, _, _, scripted_start o _⟩
  have hsound : s.Sound o (.create name attempts syncs) := hstart.run calls
  obtain ⟨⟨failed, t, h⟩, used, covered, hscript⟩ := hsound
  have hoptions : s.path.options = o := h.options
  refine ⟨h.agrees, fun c hc => ?_, fun c hc hmode => ?_, ?_, fun hne more => run_failed ?_ more,
    fun c hc hmode hsame hroom => ?_⟩
  · have hreject := write_rejected (p := s.path) (c := c)
    rw [hoptions] at hreject
    exact hreject hc
  · refine write_invalidMode ?_ hmode
    rw [hoptions]
    exact hc
  · refine ⟨used, covered, hscript.uses.attempts_eq, hscript.uses.syncs_eq, fun hfail => ?_,
      hscript.passed⟩
    refine hscript.failed (fun hpassed => ?_)
    rcases hfail with ⟨a, ha, hno⟩ | ⟨x, hx, hno⟩
    · rw [hpassed.1 a ha] at hno
      cases hno
    · rw [hpassed.2 x hx] at hno
      cases hno
  · refine h.poisoned (fun hnil => hne ?_)
    have hattempted := h.attempted
    rwa [hnil, List.append_nil] at hattempted
  · exact (hstart.run calls).accepts hc hmode hsame hroom

end Trace

end WritePath

end MiniKV
