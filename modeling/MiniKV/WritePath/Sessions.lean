import MiniKV.WritePath
import MiniKV.Background

/-!
# The sessions of a write path

`WritePath::Open` replays the log that earlier sessions have left, cuts off an incomplete
end and goes on behind it. A session ends when its path is dropped, and it may end in a
crash that loses what was not synced. Whatever the calls of all sessions did, the path that
the next `Open` returns shows the writes that are left of the history.
-/

namespace MiniKV

open Lib

/-- `MemTable::Get` -/
def MemTable.get (o : FormatOptions) (m : MemTable) (key : Bytes) : LookupResult :=
  let result := m.lookup o key
  if result.deleted then { result with status := .notFound "key was deleted", value := [] }
  else result

theorem Record.encoding_ne_nil (r : Record) : r.encoding ≠ [] := by
  have hheader := header_le_walSize r
  have hpos : 0 < kWalHeaderSize := by decide
  rw [← List.length_pos_iff, r.encoding_length]
  omega

namespace WritePath

/-- `WritePath::Get` -/
def get (p : WritePath) (key : Bytes) : LookupResult := p.memtable.get p.options key

/-! ## Opening -/

/-- How the environment calls of an `Open` go, and those of the file that it opens. -/
structure OpenScript where
  /-- To open the log for recovery, to ask for its size and to read it. -/
  recovery : Status
  reads : List ReadAttempt
  truncate : Status
  sync : Status
  openAppend : Status
  attempts : List WriteAttempt
  syncs : List Status

/-- No environment call fails. -/
structure OpenScript.Quiet (s : OpenScript) : Prop where
  recovery : s.recovery.isOk = true
  truncate : s.truncate.isOk = true
  sync : s.sync.isOk = true
  openAppend : s.openAppend.isOk = true

/-- What an `Open` leaves behind: its status, its two outputs and the log. -/
structure OpenRun where
  status : Status
  path : Option WritePath
  result : WalRecoveryResult
  log : Volatile Bytes

/-- An `Open` that has failed. -/
def OpenRun.fail (status : Status) (log : Volatile Bytes) : OpenRun := ⟨status, none, {}, log⟩

/-- The path behind a recovered log. -/
def ofRecovered (o : FormatOptions) (file : WritableFile) (memtable : MemTable)
    (lastSequence : Nat) : WritePath where
  options := o
  wal := ⟨o, file, .ok⟩
  memtable := memtable
  lastSequence := lastSequence
  status := .ok

/-- `WritePath::Open`. The `Truncate` and the `Sync` of an incomplete end are the last calls
of `RecoverWal`; where one of them fails its outputs stay as they are. -/
def openLog (o : FormatOptions) (name : String) (log : Volatile Bytes) (s : OpenScript) :
    OpenRun :=
  if name.isEmpty then .fail (.invalidArgument "WritePath WAL path must not be empty") log
  else if !s.recovery.isOk then .fail s.recovery log
  else if fits : log.current.length ≤ maxUInt64 then
    let run := RecoveryFile.recoverWal o ⟨log.current, s.reads, fits⟩ .empty {}
    let cut := run.result.tailTruncated
    if !run.status.isOk then .fail run.status log
    else if cut && !s.truncate.isOk then .fail s.truncate log
    else if cut && !s.sync.isOk then .fail s.sync (log.set run.file.content)
    else
      let log := if cut then (log.set run.file.content).flush else log
      if !s.openAppend.isOk then .fail s.openAppend log
      else
        let file : WritableFile :=
          { name := name, content := log.current, synced := 0, attempts := s.attempts,
            syncs := s.syncs }
        ⟨.ok, some (ofRecovered o file run.memtable run.result.maxSequence), run.result, log⟩
  else .fail (.ioError ("fstat returned a negative size for '" ++ name ++ "'")) log

/-! ## Sessions -/

/-- The file in the cache after a call: the new bytes have come one by one, and all of them
are on stable storage if there was a sync. -/
def cached (p q : WritePath) (log : Volatile Bytes) : Volatile Bytes :=
  let grown := log.append (q.wal.file.content.drop p.wal.file.content.length)
  if q.wal.file.synced = p.wal.file.synced then grown else grown.flush

/-- What a call adds to the history, if a sequence number was consumed for it. -/
def labels (p q : WritePath) (status : Status) (c : Call) : List Label :=
  if q.lastSequence = p.lastSequence then []
  else if status.isOk then [.appended (c.record q.lastSequence) c.mode]
  else [.inDoubt (c.record q.lastSequence)]

/-- The log of a write path, the path while there is a session, and the history of the calls
of all sessions. -/
structure Sessions where
  log : Volatile Bytes
  path : Option WritePath
  /-- Newest first. -/
  history : List Label

inductive SessionEvent where
  | openLog (script : OpenScript)
  | call (c : Call)
  /-- The path is destroyed, or the process ends. -/
  | drop
  /-- The machine crashes and keeps the `k`-th newest state of the file. -/
  | crash (k : Nat)

namespace Sessions

/-- A log that has just been created. -/
def start : Sessions := ⟨.stable [], none, []⟩

/-- The log has one owner at a time, and calls are made on the path of a session. -/
def step (o : FormatOptions) (name : String) (s : Sessions) : SessionEvent → Sessions
  | .openLog script =>
    if s.path.isSome then s
    else
      let run := WritePath.openLog o name s.log script
      { s with log := run.log, path := run.path }
  | .call c =>
    match s.path with
    | none => s
    | some p =>
      let (status, q) := p.write c
      { log := p.cached q s.log, path := some q, history := p.labels q status c ++ s.history }
  | .drop => { s with path := none }
  | .crash k =>
    { log := .stable (s.log.survivor k), path := none, history := .crashed :: s.history }

def run (o : FormatOptions) (name : String) (s : Sessions) (es : List SessionEvent) : Sessions :=
  es.foldl (step o name) s

end Sessions

/-! ## What the sessions keep -/

/-- How the log is used: in one format, with crashes. -/
def usage (o : FormatOptions) : Usage where
  crashes := True
  single := False
  formats := fun o' => o' = o
  origin := fun H A => H = [] ∧ A = []
  writes := fun _ _ _ => True

/-- A log that holds the entries. -/
structure Holds (o : FormatOptions) (A : List Entry) (log : Volatile Bytes) : Prop where
  file : LogFile (fileFormat byteShape) (· = o) o A log
  follows : Follows (fileFormat byteShape) o 0 (recordsOf A)

/-- A path at the end of a log, before anything has failed in it. -/
structure Healthy (o : FormatOptions) (A : List Entry) (log : Volatile Bytes) (p : WritePath) :
    Prop where
  wal : p.wal.failed = false
  clean : log.current = logBytes (fileFormat byteShape) o (recordsOf A)
  lastSequence : p.lastSequence = lastOf 0 (recordsOf A)
  memtable : p.memtable = replayInto .empty (recordsOf A)

/-- A path in a session. Its table holds writes that the history may have left; after a
failure these may be fewer than the log holds. -/
structure Serves (o : FormatOptions) (s : Sessions) (A : List Entry) (p : WritePath) : Prop where
  options : p.options = o
  walOptions : p.wal.options = o
  content : p.wal.file.content = s.log.current
  synced_le : p.wal.file.synced ≤ p.wal.file.content.length
  shows : ∃ B, Admits (usage o) s.history B ∧ p.memtable = replayInto .empty (recordsOf B)
  healthy : p.status.isOk = true → p.Healthy o A s.log

/-- The log holds writes that the history may have left, and a session goes on with them. -/
structure Sound (o : FormatOptions) (s : Sessions) (A : List Entry) : Prop where
  admits : Admits (usage o) s.history A
  log : Holds o A s.log
  serves : ∀ p, s.path = some p → p.Serves o s A

section

variable {o : FormatOptions} {A : List Entry} {log : Volatile Bytes}

/-- The bytes of such a log are a log with an incomplete end. -/
theorem Holds.grammar (h : Holds o A log) :
    ∃ t, WalGrammar o log.current (recordsOf A) t ∧
      log.current = logBytes (fileFormat byteShape) o (recordsOf A) ++ t := by
  obtain ⟨t, ht, hbytes⟩ := h.file.current
  have hincomplete := ht.incomplete (fileFormat_lawful byteShape) (fun _ ho => ho)
  exact ⟨t, (walGrammar_iff byteShape).mpr ⟨hbytes, h.follows, hincomplete⟩, hbytes⟩

theorem Holds.flush (h : Holds o A log) : Holds o A log.flush := ⟨h.file.flush rfl, h.follows⟩

/-- What recovery makes of the log. -/
structure Recovers (o : FormatOptions) (A : List Entry) (log : Volatile Bytes)
    (run : RecoveryFile.Run) : Prop where
  status : run.status.isOk = true
  memtable : run.memtable = replayInto .empty (recordsOf A)
  lastSequence : run.result.maxSequence = lastOf 0 (recordsOf A)
  content : run.file.content = logBytes (fileFormat byteShape) o (recordsOf A)
  cut : Holds o A (log.set run.file.content)
  whole : run.result.tailTruncated = false →
    log.current = logBytes (fileFormat byteShape) o (recordsOf A)

theorem Holds.recovers (h : Holds o A log) (reads : List ReadAttempt)
    (fits : log.current.length ≤ maxUInt64) :
    Recovers o A log (RecoveryFile.recoverWal o ⟨log.current, reads, fits⟩ .empty {}) := by
  obtain ⟨t, hgrammar, hbytes⟩ := h.grammar
  have hreplays := RecoveryFile.recoverWal_replays (f := ⟨log.current, reads, fits⟩) hgrammar
    .empty {}
  obtain ⟨-, hfold⟩ := recoverLoop_grammar byteShape fits hgrammar
  have hcontent := hreplays.content.trans (logBytes_fileFormat byteShape hgrammar.encodes).symm
  refine ⟨?_, ?_, ?_, hcontent, ⟨?_, h.follows⟩, fun hwhole => ?_⟩
  · rw [hreplays.status]
    rfl
  · exact Except.ok.inj (hreplays.memtable.symm.trans hfold)
  · rw [hreplays.last, getLast_lastOf]
  · have htake := h.file.truncate
    rw [hbytes, List.take_left] at htake
    rw [hcontent]
    exact htake
  · rw [hreplays.truncated] at hwhole
    have ht : t = [] := by simpa using hwhole
    rw [hbytes, ht, List.append_nil]

/-- An `Open` leaves the entries of the log as they are, and the path that it returns stands
at their end. -/
theorem openLog_spec (h : Holds o A log) (name : String) (script : OpenScript) :
    Holds o A (openLog o name log script).log ∧
      ∀ p, (openLog o name log script).path = some p →
        p.options = o ∧ p.wal.options = o ∧
        p.wal.file.content = (openLog o name log script).log.current ∧
        p.wal.file.synced = 0 ∧ p.Healthy o A (openLog o name log script).log := by
  unfold openLog
  split
  · exact ⟨h, fun p hp => by cases hp⟩
  split
  · exact ⟨h, fun p hp => by cases hp⟩
  split
  case isFalse => exact ⟨h, fun p hp => by cases hp⟩
  rename_i fits
  have hrun := h.recovers script.reads fits
  set run := RecoveryFile.recoverWal o ⟨log.current, script.reads, fits⟩ .empty {}
  dsimp only
  rw [if_neg (by rw [hrun.status]; decide)]
  split
  · exact ⟨h, fun p hp => by cases hp⟩
  split
  · exact ⟨hrun.cut, fun p hp => by cases hp⟩
  have hholds : Holds o A
      (if run.result.tailTruncated then (log.set run.file.content).flush else log) := by
    split
    · exact hrun.cut.flush
    · exact h
  have hclean : (if run.result.tailTruncated then (log.set run.file.content).flush
      else log).current = logBytes (fileFormat byteShape) o (recordsOf A) := by
    split
    · exact hrun.content
    · rename_i hwhole
      exact hrun.whole (Bool.eq_false_iff.mpr hwhole)
  split
  · exact ⟨hholds, fun p hp => by cases hp⟩
  · refine ⟨hholds, fun p hp => ?_⟩
    obtain rfl := Option.some.inj hp
    exact ⟨rfl, rfl, rfl, rfl, rfl, hclean, hrun.lastSequence, hrun.memtable⟩

/-- Where no environment call fails, an `Open` returns a path. -/
theorem openLog_quiet (h : Holds o A log) {name : String} (hname : name.isEmpty = false)
    (fits : log.current.length ≤ maxUInt64) {script : OpenScript} (hquiet : script.Quiet) :
    (openLog o name log script).status = .ok ∧
      ∃ p, (openLog o name log script).path = some p := by
  have hrun := h.recovers script.reads fits
  unfold openLog
  rw [if_neg (by rw [hname]; decide), if_neg (by rw [hquiet.recovery]; decide), dif_pos fits]
  dsimp only
  rw [if_neg (by rw [hrun.status]; decide), if_neg (by rw [hquiet.truncate]; simp),
    if_neg (by rw [hquiet.sync]; simp), if_neg (by rw [hquiet.openAppend]; decide)]
  exact ⟨rfl, _, rfl⟩

/-! ## Writing -/

variable {s : Sessions} {p q : WritePath} {status : Status} {c : Call} {t : Bytes}

theorem cached_eq (hcontent : q.wal.file.content = p.wal.file.content ++ t) :
    p.cached q log = if q.wal.file.synced = p.wal.file.synced then log.append t
      else (log.append t).flush := by
  rw [cached, hcontent, List.drop_left]

theorem cached_current (hcontent : q.wal.file.content = p.wal.file.content ++ t) :
    (p.cached q log).current = log.current ++ t := by
  rw [cached_eq hcontent]
  split
  · exact Volatile.append_current _ _
  · exact Volatile.append_current _ _

theorem Holds.cached (h : Holds o A (log.append t))
    (hcontent : q.wal.file.content = p.wal.file.content ++ t) : Holds o A (p.cached q log) := by
  rw [cached_eq hcontent]
  split
  · exact h
  · exact h.flush

/-- A record with the next sequence number follows the records of the log. -/
theorem Holds.follows_snoc (h : Holds o A log) {r : Record} (hr : r.Encodes o)
    (hseq : r.sequence = lastOf 0 (recordsOf A) + 1) (durable : Bool) :
    Follows (fileFormat byteShape) o 0 (recordsOf (A ++ [⟨r, durable⟩])) := by
  rw [recordsOf_append]
  refine Follows.append.mpr ⟨h.follows, (encodable_iff byteShape).mpr hr, ?_, trivial⟩
  show lastOf 0 (recordsOf A) < r.sequence
  omega

/-- The whole record has reached the log. -/
theorem Holds.append_record (h : Holds o A log)
    (hclean : log.current = logBytes (fileFormat byteShape) o (recordsOf A)) {r : Record}
    (hr : r.Encodes o) (hseq : r.sequence = lastOf 0 (recordsOf A) + 1) :
    Holds o (A ++ [⟨r, false⟩]) (log.append r.encoding) := by
  refine ⟨?_, h.follows_snoc hr hseq false⟩
  have hfile := h.file.append_record rfl hclean ((encodable_iff byteShape).mpr hr)
  rwa [walBytes_fileFormat byteShape hr] at hfile

/-- A piece of a record has reached the log, and not the whole. -/
theorem Holds.append_piece (h : Holds o A log)
    (hclean : log.current = logBytes (fileFormat byteShape) o (recordsOf A)) {r : Record}
    (hpiece : t <+: r.encoding) (hne : t ≠ r.encoding) (hr : t ≠ [] → r.Encodes o) :
    Holds o A (log.append t) := by
  have htorn : ∀ x, x <+: t → Torn (fileFormat byteShape) (· = o) x := by
    intro x hx
    by_cases hnil : x = []
    · exact Or.inl hnil
    have hencodes : r.Encodes o := hr (fun ht => hnil (List.prefix_nil.mp (ht ▸ hx)))
    have hbytes := walBytes_fileFormat byteShape hencodes
    refine Or.inr ⟨o, r, rfl, (encodable_iff byteShape).mpr hencodes, ?_, fun heq => hne ?_⟩
    · rw [hbytes]
      exact hx.trans hpiece
    · -- a prefix of the piece is no longer than the piece
      rw [hbytes] at heq
      rw [heq] at hx
      exact hpiece.eq_of_length_le hx.length_le
  exact ⟨h.file.append_piece hclean (htorn t List.prefix_rfl) htorn, h.follows⟩

/-- A write that returns OK has put its record behind the others, on stable storage if it
was to be synced. -/
theorem Holds.written (h : Holds o A log)
    (hclean : log.current = logBytes (fileFormat byteShape) o (recordsOf A)) {r : Record}
    (hr : r.Encodes o) (hseq : r.sequence = lastOf 0 (recordsOf A) + 1)
    (hsynced : p.wal.file.synced ≤ p.wal.file.content.length) {walStatus : Status}
    {mode : SyncMode} (happ : p.wal.Appended q.wal walStatus r mode r.encoding)
    (hok : walStatus.isOk = true) :
    Holds o (A ++ [⟨r, mode = .sync⟩]) (p.cached q log) := by
  have hrecord := h.append_record hclean hr hseq
  by_cases hmode : mode = .sync
  · have hcovered := happ.covered hok hmode
    have hgrown := congrArg List.length happ.content
    rw [List.length_append] at hgrown
    have hpos := List.length_pos_iff.mpr r.encoding_ne_nil
    rw [cached_eq happ.content, if_neg (by omega), decide_eq_true hmode]
    refine ⟨hrecord.file.flush ?_, h.follows_snoc hr hseq true⟩
    rw [recordsOf_append, recordsOf_append]
    rfl
  · rw [decide_eq_false hmode]
    exact hrecord.cached happ.content

/-- A call that consumes a number. -/
theorem Sound.attempt (h : Sound o s A) (hp : s.path = some p)
    (ha : p.Attempted q status c t) :
    ∃ A', Sound o ⟨p.cached q s.log, some q, p.labels q status c ++ s.history⟩ A' := by
  have hserves := h.serves p hp
  have hhealthy := hserves.healthy ha.healthy
  obtain ⟨walStatus, himp, -, happ⟩ := ha.appended
  have hseq := c.record_sequence (p.lastSequence + 1)
  set r := c.record (p.lastSequence + 1) with hr
  rw [hhealthy.lastSequence] at hseq
  have hoptions := ha.options.trans hserves.options
  have hwalOptions := happ.options.trans hserves.walOptions
  have hcontent : q.wal.file.content = (p.cached q s.log).current := by
    rw [cached_current happ.content, happ.content, hserves.content]
  have hsynced := (happ.synced_grows hserves.synced_le).2
  have hwrites : (usage o).writes s.history r c.mode := trivial
  have hnew : q.lastSequence ≠ p.lastSequence := by
    rw [ha.lastSequence]
    omega
  cases hstatus : status.isOk with
  | true =>
    obtain ⟨rfl, hencodes, hwal⟩ := happ.whole (himp hstatus)
    rw [hserves.walOptions] at hencodes
    obtain ⟨-, happly⟩ := ha.success hstatus
    rw [hserves.options, ← hr, MemTable.applyRecord_of_valid hencodes.valid] at happly
    have hmemtable : q.memtable =
        replayInto .empty (recordsOf (A ++ [⟨r, c.mode = .sync⟩])) := by
      rw [recordsOf_append, replayInto_append, ← hhealthy.memtable]
      exact MemTable.add_ok happly
    have hlabels : p.labels q status c = [.appended r c.mode] := by
      rw [labels, if_neg hnew, if_pos hstatus, ha.lastSequence]
    have hadmits : Admits (usage o) (.appended r c.mode :: s.history)
        (A ++ [⟨r, c.mode = .sync⟩]) := h.admits.appended hwrites
    have hholds := h.log.written hhealthy.clean hencodes hseq hserves.synced_le happ
      (himp hstatus)
    rw [hlabels]
    refine ⟨_, hadmits, hholds, fun q' hq' => ?_⟩
    obtain rfl := Option.some.inj hq'
    refine ⟨hoptions, hwalOptions, hcontent, hsynced, ⟨_, hadmits, hmemtable⟩,
      fun _ => ⟨hwal, ?_, ?_, hmemtable⟩⟩
    · rw [cached_current happ.content, hhealthy.clean, recordsOf_append, logBytes_append]
      show _ = _ ++ (walBytes (fileFormat byteShape) o r ++ [])
      rw [walBytes_fileFormat byteShape hencodes, List.append_nil]
    · rw [ha.lastSequence, hhealthy.lastSequence, recordsOf_append, lastOf_append, ← hseq]
      rfl
  | false =>
    obtain ⟨hfailed, hmemtable⟩ := ha.failure hstatus
    have hlabels : p.labels q status c = [.inDoubt r] := by
      rw [labels, if_neg hnew, if_neg (by rw [hstatus]; decide), ha.lastSequence]
    have hdoubted : Admits (usage o) (.inDoubt r :: s.history) A :=
      h.admits.doubted hwrites
    have hserves' : ∀ A', q.Serves o ⟨p.cached q s.log, some q, .inDoubt r :: s.history⟩ A' := by
      intro A'
      refine ⟨hoptions, hwalOptions, hcontent, hsynced, ⟨A, hdoubted, ?_⟩, fun hok => ?_⟩
      · rw [hmemtable]
        exact hhealthy.memtable
      · rw [hfailed] at hok
        cases hok
    rw [hlabels]
    by_cases hwhole : t = r.encoding
    · -- the attempt failed behind its last byte
      have hencodes : r.Encodes o := by
        rw [← hserves.walOptions]
        exact happ.encodes (hwhole ▸ r.encoding_ne_nil)
      rw [hwhole] at happ
      have hkept : Admits (usage o) (.inDoubt r :: s.history) (A ++ [⟨r, false⟩]) :=
        h.admits.kept hwrites
      refine ⟨_, hkept,
        (h.log.append_record hhealthy.clean hencodes hseq).cached happ.content, fun q' hq' => ?_⟩
      obtain rfl := Option.some.inj hq'
      exact hserves' _
    · have hpiece : t ≠ [] → r.Encodes o := fun hne => hserves.walOptions ▸ happ.encodes hne
      refine ⟨A, hdoubted,
        (h.log.append_piece hhealthy.clean happ.piece hwhole hpiece).cached happ.content,
        fun q' hq' => ?_⟩
      obtain rfl := Option.some.inj hq'
      exact hserves' _

/-! ## Runs -/

theorem sound_start (o : FormatOptions) : Sound o .start [] where
  admits := .origin ⟨rfl, rfl⟩
  log := ⟨LogFile.stable_clean [], trivial⟩
  serves := fun p hp => by cases hp

theorem Sound.openLog (h : Sound o s A) (name : String) (script : OpenScript) :
    Sound o (s.step o name (.openLog script)) A := by
  unfold Sessions.step
  dsimp only
  split
  · exact h
  obtain ⟨hlog, hpath⟩ := openLog_spec h.log name script
  refine ⟨h.admits, hlog, fun p hp => ?_⟩
  obtain ⟨hoptions, hwalOptions, hcontent, hsynced, hhealthy⟩ := hpath p hp
  refine ⟨hoptions, hwalOptions, hcontent, ?_, ⟨A, h.admits, hhealthy.memtable⟩,
    fun _ => hhealthy⟩
  rw [hsynced]
  exact Nat.zero_le _

theorem Sound.call (h : Sound o s A) (name : String) (c : Call) :
    ∃ A', Sound o (s.step o name (.call c)) A' := by
  unfold Sessions.step
  cases hp : s.path with
  | none => exact ⟨A, h⟩
  | some p =>
    have hserves := h.serves p hp
    dsimp only
    rcases write_cases (fun hok => (hserves.healthy hok).wal) c with ⟨-, -, hsame⟩ | ⟨-, t, ha⟩
    · rw [hsame, cached_eq (List.append_nil _).symm, if_pos rfl, labels, if_pos rfl]
      refine ⟨A, h.admits, h.log, fun q hq => ?_⟩
      obtain rfl := Option.some.inj hq
      exact ⟨hserves.options, hserves.walOptions, hserves.content, hserves.synced_le,
        hserves.shows, hserves.healthy⟩
    · exact h.attempt hp ha

theorem Sound.crash (h : Sound o s A) (name : String) (k : Nat) :
    ∃ A', Sound o (s.step o name (.crash k)) A' := by
  obtain ⟨L, S, rfl, hS, hfile⟩ := h.log.file.crash (s.log.survivor_mem_states k)
  refine ⟨settled L, h.admits.crashed hS, ⟨hfile, ?_⟩, fun p hp => by cases hp⟩
  have hfollows := h.log.follows
  rw [recordsOf_append] at hfollows
  rw [recordsOf_settled]
  exact (Follows.append.mp hfollows).1

/-- Every step keeps a log that the history explains. -/
theorem Sound.step (h : Sound o s A) (name : String) (e : SessionEvent) :
    ∃ A', Sound o (s.step o name e) A' := by
  cases e with
  | openLog script => exact ⟨A, h.openLog name script⟩
  | call c => exact h.call name c
  | drop => exact ⟨A, h.admits, h.log, fun p hp => by cases hp⟩
  | crash k => exact h.crash name k

theorem Sound.run (h : Sound o s A) (name : String) (es : List SessionEvent) :
    ∃ A', Sound o (s.run o name es) A' := by
  induction es generalizing s A with
  | nil => exact ⟨A, h⟩
  | cons e es ih =>
    obtain ⟨A', h'⟩ := h.step name e
    exact ih h'

/-! ## Reads -/

/-- The path answers from the writes in order. -/
def Shows (p : WritePath) (rs : List Record) : Prop :=
  ∀ key, ValidKey p.options key → Answers (applyLog noValues rs key) (p.get key)

theorem shows_replay {rs : List Record} (h : p.memtable = replayInto .empty rs) :
    p.Shows rs := by
  intro key hkey
  have hanswers := (p.memtable.lookup_finds hkey).answers
  have hview := congrFun (overlay_replayInto .empty rs noValues) key
  rw [← h] at hview
  have hbind : overlay p.memtable.entries noValues key =
      (findKey p.memtable.entries key).bind Record.visible := by
    unfold overlay
    cases findKey p.memtable.entries key <;> rfl
  rw [← hbind, hview] at hanswers
  exact hanswers

/-- The path stands behind the writes in order: it answers from them, their sequence numbers
rise, and the next one is larger than all of them. -/
structure Resumes (p : WritePath) (rs : List Record) : Prop where
  shows : p.Shows rs
  increasing : rs.Pairwise (fun r x => r.sequence < x.sequence)
  lastSequence : ∀ r ∈ rs, r.sequence ≤ p.lastSequence

theorem Holds.resumes (h : Holds o A log) (hp : p.Healthy o A log) :
    p.Resumes (recordsOf A) := by
  refine ⟨shows_replay hp.memtable, ((follows_iff byteShape).mp h.follows).2, fun r hr => ?_⟩
  rw [hp.lastSequence]
  exact h.follows.le_lastOf.2 r hr

end

/-- After any sessions on a log, whatever their calls met and wherever a machine crash ended
one of them: a path in a session answers from writes that are left of the history, and a next
`Open` whose calls do not fail returns a path that answers from the writes that are left, in
their order, and continues behind their sequence numbers. -/
theorem sessions_recover {o : FormatOptions} {name : String} (hname : name.isEmpty = false)
    (es : List SessionEvent) {s : Sessions} (hs : s = Sessions.start.run o name es) :
    (∀ p, s.path = some p → ∃ rs, Survivors s.history rs ∧ p.options = o ∧ p.Shows rs) ∧
    ∀ script : OpenScript, script.Quiet → s.log.current.length ≤ maxUInt64 →
      (openLog o name s.log script).status = .ok ∧
      ∃ p rs, (openLog o name s.log script).path = some p ∧ Survivors s.history rs ∧
        p.options = o ∧ p.Resumes rs := by
  obtain ⟨A, h⟩ := (sound_start o).run name es
  rw [← hs] at h
  have hsurvivors : ∀ {B}, Admits (usage o) s.history B → Survivors s.history (recordsOf B) :=
    fun hB => hB.survivors (fun _ _ horigin => horigin)
  refine ⟨fun p hp => ?_, fun script hquiet fits => ?_⟩
  · have hserves := h.serves p hp
    obtain ⟨B, hB, hmemtable⟩ := hserves.shows
    exact ⟨recordsOf B, hsurvivors hB, hserves.options, shows_replay hmemtable⟩
  · obtain ⟨hok, p, hp⟩ := openLog_quiet h.log hname fits hquiet
    obtain ⟨hlog, hpath⟩ := openLog_spec h.log name script
    obtain ⟨hoptions, -, -, -, hhealthy⟩ := hpath p hp
    exact ⟨hok, p, recordsOf A, hp, hsurvivors h.admits, hoptions, hlog.resumes hhealthy⟩

/-- An `Open` whose calls succeed, for a file whose writes go as given. -/
def openWith (attempts : List WriteAttempt) : OpenScript := ⟨.ok, [], .ok, .ok, .ok, attempts, []⟩

/-- Two writes and a piece of a third, a crash that keeps the first and a piece of the second,
which was not synced, and a session behind them. -/
def tornSessions : List SessionEvent :=
  [.openLog (openWith [.short 33, .short 33, .error 9 (.ioError "no space")]),
    .call (.put [1] [2] .sync), .call (.put [3] [4] .async), .call (.put [5] [6] .sync),
    .crash 20, .openLog (openWith []), .call (.delete [7] .async), .drop]

/-- The hypotheses hold for these sessions, and the synced write is there. -/
theorem sessions_recover_tornSessions :
    ∃ p rs, (openLog ({} : Options).toFormatOptions "wal"
        (Sessions.start.run ({} : Options).toFormatOptions "wal" tornSessions).log
        (openWith [])).path = some p ∧
      p.Resumes rs ∧ ⟨[1], 1, .value, [2]⟩ ∈ rs ∧ ⟨[7], 2, .deletion, []⟩ ∈ rs := by
  have hmany : (Sessions.start.run ({} : Options).toFormatOptions "wal"
      tornSessions).log.current.length ≤ maxUInt64 := by decide +kernel
  have hhistory : (Sessions.start.run ({} : Options).toFormatOptions "wal"
      tornSessions).history = [.appended ⟨[7], 2, .deletion, []⟩ .async, .crashed,
        .inDoubt ⟨[5], 3, .value, [6]⟩, .appended ⟨[3], 2, .value, [4]⟩ .async,
        .appended ⟨[1], 1, .value, [2]⟩ .sync] := by decide +kernel
  obtain ⟨-, hopen⟩ := sessions_recover (o := ({} : Options).toFormatOptions)
    (show "wal".isEmpty = false by decide) tornSessions rfl
  obtain ⟨-, p, rs, hp, hsurvivors, -, hresumes⟩ :=
    hopen (openWith []) ⟨rfl, rfl, rfl, rfl⟩ hmany
  rw [hhistory] at hsurvivors
  exact ⟨p, rs, hp, hresumes, hsurvivors.synced _ (by decide),
    hsurvivors.uncrashed [] _ _ _ rfl (by decide)⟩

end WritePath

end MiniKV
