import MiniKV.Database

/-!
# Members that sections leave alone

What is said here of the members holds whether a section returns or fails: a flush
starts no compaction, and ends with a log or without an Immutable; a write of a
database with a worker starts none either, and where it leaves a new Immutable it
has asked for work.
-/

namespace MiniKV

open Lib

/-- What holds of the members before a section holds after it, unless the process is killed. -/
def Preserves {α : Type} (I : Database → Prop) (m : Act α) : Prop :=
  Prog.Keeps (fun s : Sys => I s.db) m

section

variable {α β : Type} {I : Database → Prop}

theorem Preserves.pure (a : α) : Preserves I (Pure.pure a : Act α) := Prog.Keeps.pure a

theorem Preserves.fail (e : Status) : Preserves I (Prog.fail e : Act α) := Prog.Keeps.fail e

theorem Preserves.ofExcept (x : Except Status α) : Preserves I (Prog.ofExcept x) :=
  Prog.Keeps.ofExcept x

theorem Preserves.bind {m : Act β} {f : β → Act α} (hm : Preserves I m)
    (hf : ∀ b, Preserves I (f b)) : Preserves I (m >>= f) := Prog.Keeps.bind hm hf

theorem Preserves.ite {c : Prop} [Decidable c] {m n : Act α} (ht : c → Preserves I m)
    (hf : ¬ c → Preserves I n) : Preserves I (if c then m else n) := Prog.Keeps.ite ht hf

theorem Preserves.attempt {m : Act α} (hm : Preserves I m) : Preserves I (Prog.attempt m) :=
  Prog.Keeps.attempt hm

theorem Preserves.attempt_bind {m : Act β} {f : Except Status β → Act α} (hm : Preserves I m)
    (hok : ∀ b, Preserves I (f (.ok b))) (herr : ∀ e, Preserves I (f (.error e))) :
    Preserves I (Prog.attempt m >>= f) := by
  apply Preserves.bind (Preserves.attempt hm)
  intro result
  cases result with
  | ok b => exact hok b
  | error e => exact herr e

theorem Preserves.io (m : Io α) : Preserves I (MiniKV.io m) :=
  Prog.Keeps.zoom m (fun _ _ h => h)

theorem Preserves.modifyDb {f : Database → Database} (h : ∀ db, I db → I (f db)) :
    Preserves I (MiniKV.modifyDb f) := Prog.Keeps.modify (fun s hs => h s.db hs)

/-- The members that a section reads are those it starts with. -/
theorem Preserves.getDb_bind {f : Database → Act α} (h : ∀ db, I db → Preserves I (f db)) :
    Preserves I (getDb >>= f) := fun s hs => h s.db hs s hs

/-- A computation that may fail, and what comes after it. -/
theorem Preserves.ofExcept_bind {x : Except Status β} {f : β → Act α}
    (h : ∀ b, x = .ok b → Preserves I (f b)) : Preserves I (Prog.ofExcept x >>= f) := by
  cases x with
  | ok b => exact h b rfl
  | error e => exact Preserves.fail e

/-- A part that is skipped under a condition, and what comes after it. -/
theorem Preserves.unless {c : Prop} [Decidable c] {m : Act Unit} {f : Unit → Act α}
    (hm : Preserves I m) (hf : Preserves I (f ())) : Preserves I (if c then f () else m >>= f) :=
  Preserves.ite (fun _ => hf) (fun _ => Preserves.bind hm (fun _ => hf))

/-! ## Flushes -/

variable {F : StorageFormat} {c : Option CompactionState}

theorem openMutableWal_keeps (hwal : ∀ db w, I db → I { db with wal := w }) :
    Preserves I openMutableWal := by
  apply Preserves.getDb_bind
  intro db _
  cases db.wal with
  | some w => exact Preserves.pure ()
  | none =>
    apply Preserves.bind (Preserves.io _)
    intro file
    apply Preserves.bind (Preserves.io _)
    intro _
    exact Preserves.modifyDb (fun db h => hwal db _ h)

theorem flushTable_keeps
    (hflush : ∀ db ts v f, (∀ imm, (f imm).memtable = imm.memtable) → I db →
      I { db with tables := ts, version := v, immutable := db.immutable.map f })
    (imm : ImmutableGeneration) : Preserves I (flushTable F imm) := by
  unfold flushTable
  cases imm.pendingTable with
  | some table => exact Preserves.pure table
  | none =>
    apply Preserves.getDb_bind
    intro db _
    apply Preserves.bind (Preserves.io _)
    intro table
    refine Preserves.bind ?_ (fun _ => Preserves.pure table)
    exact Preserves.modifyDb (fun db h => hflush db db.tables db.version _ (fun _ => rfl) h)

theorem flushVersion_keeps
    (hflush : ∀ db ts v f, (∀ imm, (f imm).memtable = imm.memtable) → I db →
      I { db with tables := ts, version := v, immutable := db.immutable.map f })
    (imm : ImmutableGeneration) : Preserves I (flushVersion F imm) := by
  apply Preserves.bind (flushTable_keeps hflush imm)
  intro table
  apply Preserves.getDb_bind
  intro db _
  apply Preserves.bind (Preserves.ofExcept _)
  intro candidate
  apply Preserves.bind (Preserves.io _)
  intro _
  exact Preserves.modifyDb (fun db h => hflush db _ _ _ (fun _ => rfl) h)

/-- A flush keeps what its parts keep; the Immutable goes once there is a log. -/
theorem continueFlush_keeps
    (hflush : ∀ db ts v f, (∀ imm, (f imm).memtable = imm.memtable) → I db →
      I { db with tables := ts, version := v, immutable := db.immutable.map f })
    (hend : Preserves I (do
      openMutableWal
      modifyDb (fun db => { db with immutable := none }))) : Preserves I (continueFlush F) := by
  apply Preserves.getDb_bind
  intro db _
  cases db.immutable with
  | none => exact Preserves.pure ()
  | some imm =>
    have hlog : Preserves I (flushWal imm) := by
      apply Preserves.bind (Preserves.io _)
      intro _
      apply Preserves.bind (Preserves.io _)
      intro _
      exact Preserves.modifyDb (fun db h => hflush db db.tables db.version _ (fun _ => rfl) h)
    apply Preserves.unless (flushVersion_keeps hflush imm)
    exact Preserves.unless hlog hend

theorem continueFlush_compaction : Preserves (fun db => db.compaction = c) (continueFlush F) := by
  apply continueFlush_keeps (fun _ _ _ _ _ h => h)
  refine Preserves.bind (openMutableWal_keeps (fun _ _ h => h)) (fun _ => ?_)
  exact Preserves.modifyDb (fun _ h => h)

theorem freezeMutable_keeps (hfreeze : ∀ db w imm g m, I db →
      I { db with wal := w, immutable := imm, mutableGeneration := g, mutableTable := m })
    (openNextWal : Bool) : Preserves I (freezeMutable openNextWal) := by
  apply Preserves.getDb_bind
  intro db _
  refine Preserves.ite (fun _ => Preserves.fail _)
    (fun _ => Preserves.ite (fun _ => Preserves.fail _) (fun _ => ?_))
  refine Preserves.bind (Preserves.modifyDb (fun db h => hfreeze db _ _ _ _ h)) (fun _ => ?_)
  refine Preserves.ite (fun _ => openMutableWal_keeps (fun db w h => ?_))
    (fun _ => Preserves.pure ())
  exact hfreeze db w db.immutable db.mutableGeneration db.mutableTable h

/-- Without a compaction there is nothing to continue. -/
theorem continueCompaction_none {db : Database} (hc : db.compaction = none) (fs : Fs) :
    continueCompaction F ⟨db, fs⟩ = (.ok (), ⟨db, fs⟩) := by
  unfold continueCompaction withCompaction
  simp [Prog.bind_apply, getDb, hc, modifyDb, Prog.modify, Pure.pure, Prog.pure]

theorem continueCompaction_idle (hnone : ∀ db, I db → db.compaction = none) :
    Preserves I (continueCompaction F) := by
  intro s hs
  rw [show s = ⟨s.db, s.fs⟩ from rfl, continueCompaction_none (hnone s.db hs)]
  exact hs

/-- A flush under the lock keeps what its parts keep. -/
theorem flushLocked_keeps (hcompaction : Preserves I (continueCompaction F))
    (hfreeze : Preserves I (freezeMutable false)) (hflush : Preserves I (continueFlush F)) :
    Preserves I (flushLocked F) := by
  apply Preserves.getDb_bind
  intro db _
  refine Preserves.ite (fun _ => Preserves.fail _) (fun _ => ?_)
  refine Preserves.bind hcompaction (fun _ => ?_)
  apply Preserves.getDb_bind
  intro db _
  cases db.immutable with
  | some imm => exact hflush
  | none =>
    refine Preserves.ite (fun _ => Preserves.pure ()) (fun _ => ?_)
    exact Preserves.bind hfreeze (fun _ => hflush)

theorem flushLocked_compaction : Preserves (fun db => db.compaction = none) (flushLocked F) :=
  flushLocked_keeps (continueCompaction_idle (fun _ h => h))
    (freezeMutable_keeps (fun _ _ _ _ _ h => h) false) continueFlush_compaction

/-- No log beside an Immutable, and no compaction: where a flush that fails leaves a database
that had no Immutable. -/
structure Database.Bare (db : Database) : Prop where
  compaction : db.compaction = none
  wal : db.immutable = none ∨ db.wal = none

/-- A flush that fails has not opened the next log. -/
theorem continueFlush_bare : Preserves Database.Bare (continueFlush F) := by
  apply continueFlush_keeps
  · intro db ts v f _ h
    refine ⟨h.compaction, h.wal.imp_left (fun himm => ?_)⟩
    show db.immutable.map f = none
    rw [himm]
    rfl
  · have hwal : Prog.Triple (fun s : Sys => s.db.Bare) openMutableWal
        (fun _ s => s.db.compaction = none) (fun _ s => s.db.Bare) (fun _ => True) := by
      refine Prog.Triple.bind (R := fun _ (s : Sys) => s.db.Bare) (fun _ hs => hs) (fun db => ?_)
      cases db.wal with
      | some w => exact Prog.Triple.pure (fun _ hs => hs.compaction)
      | none =>
        apply Prog.Triple.bind (Preserves.io _)
        intro file
        apply Prog.Triple.bind (Preserves.io _)
        intro _
        exact Prog.Triple.modify (fun _ hs => hs.compaction)
    refine Prog.Triple.bind hwal (fun _ => Prog.Triple.modify (fun s hs => ?_))
    exact ⟨hs, Or.inl rfl⟩

theorem flushLocked_bare : Preserves Database.Bare (flushLocked F) := by
  refine flushLocked_keeps (continueCompaction_idle (fun _ h => h.compaction)) ?_
    continueFlush_bare
  apply Preserves.getDb_bind
  intro db _
  refine Preserves.ite (fun _ => Preserves.fail _)
    (fun _ => Preserves.ite (fun _ => Preserves.fail _) (fun _ => ?_))
  refine Preserves.bind (Preserves.modifyDb (fun db h => ⟨h.compaction, Or.inr rfl⟩)) (fun _ => ?_)
  exact Preserves.ite (fun hno => absurd hno (by decide)) (fun _ => Preserves.pure ())

theorem flushResume_members (hstatus : ∀ db e, I db → I { db with backgroundStatus := e })
    (hflush : Preserves I (flushLocked F)) : Preserves I (flushResume F) :=
  Preserves.attempt_bind hflush (fun _ => Preserves.modifyDb (fun db h => hstatus db .ok h))
    (fun e => Preserves.fail e)

/-! ## Compactions -/

/-- A compaction changes the tables, the Version and the log, with its generation. -/
theorem continueCompaction_keeps (hI : ∀ db ts v p w g n, I db →
      I { db with tables := ts, version := v, compaction := p, wal := w, mutableGeneration := g,
                  lastCompactionStatistics := n }) : Preserves I (continueCompaction F) := by
  have hpart : ∀ f, (∀ p, Preserves I (f p)) → Preserves I (withCompaction f) := by
    intro f hf
    apply Preserves.getDb_bind
    intro db _
    cases db.compaction with
    | none => exact Preserves.pure ()
    | some p => exact hf p
  have hmodify : ∀ f, Preserves I (modifyCompaction f) := fun f => Preserves.modifyDb
    (fun db h => hI db db.tables db.version _ db.wal db.mutableGeneration _ h)
  have hwal : Preserves I openMutableWal := openMutableWal_keeps
    (fun db w h => hI db db.tables db.version db.compaction w db.mutableGeneration _ h)
  have houtputs : ∀ p, Preserves I (compactionOutputs F p) := by
    intro p
    refine Preserves.ite (fun _ => Preserves.pure ()) (fun _ => Preserves.getDb_bind ?_)
    intro db _
    exact Preserves.bind (Preserves.io _) (fun _ => hmodify _)
  have hcandidate : ∀ p, Preserves I (compactionCandidate p) := by
    intro p
    refine Preserves.ite (fun _ => Preserves.pure ()) (fun _ => Preserves.getDb_bind ?_)
    intro db _
    apply Preserves.bind (Preserves.ofExcept _)
    intro bytes
    exact Preserves.bind (Preserves.ofExcept _) (fun _ => hmodify _)
  have hversion : ∀ p, Preserves I (compactionVersion F p) := by
    intro p
    refine Preserves.ite (fun _ => Preserves.pure ()) (fun _ => Preserves.getDb_bind ?_)
    intro db _
    apply Preserves.bind (Preserves.io _)
    intro _
    refine Preserves.bind (Preserves.modifyDb (fun db h => ?_)) (fun _ => ?_)
    · exact hI db _ _ _ db.wal db.mutableGeneration db.lastCompactionStatistics h
    · refine Preserves.ite (fun _ => Preserves.pure ()) (fun _ => Preserves.modifyDb ?_)
      intro db h
      exact hI db db.tables db.version _ _ _ db.lastCompactionStatistics h
  have hcleanup : ∀ files, Preserves I (compactionCleanup files) := by
    intro files
    induction files with
    | nil => exact Preserves.pure ()
    | cons file files ih =>
      apply Preserves.bind (Preserves.io _)
      intro _
      exact Preserves.bind (hmodify _) (fun _ => ih)
  have hsync : ∀ p, Preserves I (compactionSync p) := fun p =>
    Preserves.ite (fun _ => Preserves.pure ())
      (fun _ => Preserves.bind (Preserves.io _) (fun _ => hmodify _))
  refine Preserves.bind (hpart _ houtputs) (fun _ => ?_)
  refine Preserves.bind (hpart _ hcandidate) (fun _ => ?_)
  refine Preserves.bind (hpart _ hversion) (fun _ => ?_)
  refine Preserves.bind (hpart _ (fun p => hcleanup _)) (fun _ => ?_)
  refine Preserves.bind (hpart _ hsync) (fun _ => ?_)
  refine Preserves.bind (hpart _ (fun p => ?_)) (fun _ => Preserves.modifyDb (fun db h => ?_))
  · exact Preserves.ite (fun _ => hwal) (fun _ => Preserves.pure ())
  · split
    · exact h
    · exact hI db db.tables db.version none db.wal db.mutableGeneration _ h

/-- Preparing a compaction changes nothing but the compaction and its statistics. -/
theorem prepareCompaction_keeps (hI : ∀ db p n, I db →
      I { db with compaction := p, lastCompactionStatistics := n }) {db db' : Database} (h : I db)
    (hprepare : prepareCompaction db = .ok db') : I db' := by
  unfold prepareCompaction at hprepare
  split at hprepare
  · cases hprepare
  split at hprepare
  · cases hprepare
    exact hI db db.compaction _ h
  split at hprepare
  · cases hprepare
  split at hprepare
  · cases hprepare
  split at hprepare
  · cases hprepare
  · cases hprepare
    exact hI db _ db.lastCompactionStatistics h

/-- A compaction under the lock, from its preparation on. -/
theorem prepared_keeps (hprepare : ∀ db db', I db → prepareCompaction db = .ok db' → I db')
    (hcompaction : Preserves I (continueCompaction F)) {db : Database} (h : I db) :
    Preserves I (do
      let db' ← Prog.ofExcept (prepareCompaction db)
      modifyDb (fun _ => db')
      continueCompaction F) := by
  apply Preserves.ofExcept_bind
  intro db' hdb'
  exact Preserves.bind (Preserves.modifyDb (fun _ _ => hprepare db db' h hdb'))
    (fun _ => hcompaction)

theorem compactLocked_keeps (hprepare : ∀ db db', I db → prepareCompaction db = .ok db' → I db')
    (hflush : Preserves I (flushLocked F)) (hcompaction : Preserves I (continueCompaction F)) :
    Preserves I (compactLocked F) := by
  apply Preserves.getDb_bind
  intro db _
  refine Preserves.ite (fun _ => Preserves.fail _)
    (fun _ => Preserves.ite (fun _ => hcompaction) (fun _ => ?_))
  have hrest : Preserves I (do
      let db ← getDb
      if db.immutable.isSome ∨ !db.mutableTable.isEmpty ∨ db.wal.isNone then
        Prog.fail (databaseCorruption "compaction requires an empty active WAL generation")
      else do
        let db' ← Prog.ofExcept (prepareCompaction db)
        modifyDb (fun _ => db')
        continueCompaction F) := by
    apply Preserves.getDb_bind
    intro db h
    exact Preserves.ite (fun _ => Preserves.fail _)
      (fun _ => prepared_keeps hprepare hcompaction h)
  exact Preserves.ite (fun _ => Preserves.bind hflush (fun _ => hrest)) (fun _ => hrest)

theorem compactResume_members (hstatus : ∀ db e, I db → I { db with backgroundStatus := e })
    (hcompact : Preserves I (compactLocked F)) : Preserves I (compactResume F) :=
  Preserves.attempt_bind hcompact (fun _ => Preserves.modifyDb (fun db h => hstatus db .ok h))
    (fun e => Preserves.fail e)

/-! ## Writes -/

theorem rememberFailure_members (hwal : ∀ db f, I db → I { db with wal := db.wal.map f })
    (call : Io Unit) : Preserves I (rememberFailure call) := by
  refine Preserves.attempt_bind (Preserves.io call) (fun _ => Preserves.pure ()) (fun e => ?_)
  refine Preserves.bind ?_ (fun _ => Preserves.fail e)
  exact Preserves.modifyDb (fun db h => hwal db _ h)

theorem walAppend_members (hwal : ∀ db f, I db → I { db with wal := db.wal.map f }) (w : WalWriter)
    (r : Record) (mode : SyncMode) : Preserves I (walAppend F w r mode) := by
  refine Preserves.ite (fun _ => Preserves.fail _) (fun _ => ?_)
  refine Preserves.ite (fun _ => Preserves.fail _) (fun _ => ?_)
  apply Preserves.getDb_bind
  intro db _
  apply Preserves.bind (Preserves.ofExcept _)
  intro encoded
  apply Preserves.bind (Preserves.io _)
  intro _
  apply Preserves.bind (rememberFailure_members hwal _)
  intro _
  refine Preserves.ite (fun _ => ?_) (fun _ => Preserves.io _)
  exact Preserves.bind (rememberFailure_members hwal _) (fun _ => Preserves.io _)

/-- A write up to the rotation changes the log, the Mutable, the counter and the status. -/
theorem writeFinish_members (hwal : ∀ db f, I db → I { db with wal := db.wal.map f })
    (hlast : ∀ db n, I db → I { db with lastSequence := n })
    (hmut : ∀ db m, I db → I { db with mutableTable := m })
    (hstatus : ∀ db e, I db → I { db with status := e }) (hrotate : Preserves I (writeRotate F))
    (type : ValueType) (key value : Bytes) (mode : SyncMode) :
    Preserves I (writeFinish F type key value mode) := by
  have hsticky : ∀ e, Preserves I (failSticky e : Act Unit) := by
    intro e
    refine Preserves.bind ?_ (fun _ => Preserves.fail e)
    exact Preserves.modifyDb (fun db h => hstatus db e h)
  have happly : ∀ r, Preserves I (writeApply r) := by
    intro r
    apply Preserves.getDb_bind
    intro db _
    split
    · exact Preserves.modifyDb (fun db h => hmut db _ h)
    · exact hsticky _
  apply Preserves.getDb_bind
  intro db _
  refine Preserves.ite (fun _ => Preserves.fail _) (fun _ => Preserves.ite (fun _ => Preserves.fail _)
    (fun _ => Preserves.ite (fun _ => Preserves.fail _) (fun _ => ?_)))
  cases db.wal with
  | none => exact Preserves.fail _
  | some w =>
    refine Preserves.bind (Preserves.modifyDb (fun db h => hlast db _ h)) (fun _ => ?_)
    exact Preserves.attempt_bind (walAppend_members hwal w _ mode)
      (fun _ => Preserves.bind (happly _) (fun _ => hrotate)) hsticky

theorem scheduleBackgroundWork_keeps
    (hrequested : ∀ db b, I db → I { db with backgroundWorkRequested := b }) :
    Preserves I scheduleBackgroundWork := by
  apply Preserves.modifyDb
  intro db h
  split
  · exact h
  · exact hrequested db true h

/-- A write beside an Immutable leaves the compaction, the worker and its status alone. -/
theorem writeFinish_beside_immutable {requested running : Bool} {status : Status}
    (type : ValueType) (key value : Bytes) (mode : SyncMode) :
    Preserves (fun db => db.options.backgroundMaintenance = true ∧ db.immutable.isSome = true ∧
      db.compaction = c ∧ db.backgroundWorkRequested = requested ∧
      db.backgroundWorkRunning = running ∧ db.backgroundStatus = status)
      (writeFinish F type key value mode) := by
  apply writeFinish_members (fun _ _ h => h) (fun _ _ h => h) (fun _ _ h => h) (fun _ _ h => h)
  apply Preserves.getDb_bind
  intro db hdb
  refine Preserves.ite (fun _ => Preserves.pure ()) (fun _ => Preserves.ite (fun hfore => ?_)
    (fun _ => Preserves.ite (fun _ => Preserves.pure ()) (fun hfree => absurd hdb.2.1 hfree)))
  rw [hdb.1] at hfore
  cases hfore

/-- A database with an idle worker, which has been asked for work if there is an Immutable. -/
structure Database.Asked (db : Database) : Prop where
  mode : db.options.backgroundMaintenance = true
  stop : db.stopBackground = false
  compaction : db.compaction = none
  free : db.backgroundWorkRunning = false
  asked : db.immutable = none ∨ db.backgroundWorkRequested = true

/-- A write that leaves a new Immutable has asked for work. -/
theorem writeRotate_asked : Preserves Database.Asked (writeRotate F) := by
  have hfreeze : ∀ openNextWal, Preserves (fun db => db.options.backgroundMaintenance = true ∧
      db.stopBackground = false ∧ db.compaction = none ∧ db.backgroundWorkRunning = false)
      (freezeMutable openNextWal) := freezeMutable_keeps (fun _ _ _ _ _ h => h)
  have hschedule : Prog.Triple (fun s : Sys => s.db.options.backgroundMaintenance = true ∧
      s.db.stopBackground = false ∧ s.db.compaction = none ∧ s.db.backgroundWorkRunning = false)
      scheduleBackgroundWork (fun _ s => s.db.Asked) (fun _ s => s.db.Asked) (fun _ => True) := by
    apply Prog.Triple.modify
    intro s hs
    obtain ⟨hbg, hstop, hc, hfree⟩ := hs
    dsimp only
    rw [if_neg (by simp [hbg, hstop])]
    exact ⟨hbg, hstop, hc, hfree, Or.inr rfl⟩
  apply Preserves.getDb_bind
  intro db hdb
  refine Preserves.ite (fun _ => Preserves.pure ()) (fun _ => Preserves.ite (fun hfore => ?_)
    (fun _ => Preserves.ite (fun _ => Preserves.pure ()) (fun _ => ?_)))
  · rw [hdb.mode] at hfore
    cases hfore
  · refine Prog.Triple.pre ?_ (fun s (hs : s.db.Asked) =>
      And.intro hs.mode (And.intro hs.stop (And.intro hs.compaction hs.free)))
    apply Prog.Triple.attempt_bind (hfreeze true)
    · intro _
      exact hschedule
    · intro e
      exact Prog.Triple.bind (Prog.Triple.modify (fun _ h => h)) (fun _ => hschedule)

theorem writeFinish_asked (type : ValueType) (key value : Bytes) (mode : SyncMode) :
    Preserves Database.Asked (writeFinish F type key value mode) :=
  writeFinish_members (fun _ _ h => ⟨h.mode, h.stop, h.compaction, h.free, h.asked⟩)
    (fun _ _ h => ⟨h.mode, h.stop, h.compaction, h.free, h.asked⟩)
    (fun _ _ h => ⟨h.mode, h.stop, h.compaction, h.free, h.asked⟩)
    (fun _ _ h => ⟨h.mode, h.stop, h.compaction, h.free, h.asked⟩) writeRotate_asked
    type key value mode

/-- A write that is refused changes nothing. -/
theorem writeFinish_refused {db : Database} (h : db.isRunning = false ∨
      (db.options.backgroundMaintenance = true ∧ db.backgroundStatus.isOk = false) ∨ db.wal = none)
    (type : ValueType) (key value : Bytes) (mode : SyncMode) (fs : Fs) :
    ∃ e, writeFinish F type key value mode ⟨db, fs⟩ = (.error e, ⟨db, fs⟩) := by
  unfold writeFinish
  rw [Prog.bind_of_ok (show getDb ⟨db, fs⟩ = (.ok db, ⟨db, fs⟩) from rfl)]
  by_cases hrun : db.isRunning = true
  · rw [if_neg (by simp [hrun])]
    by_cases hbad : db.options.backgroundMaintenance = true ∧ db.backgroundStatus.isOk = false
    · rw [if_pos (by simp [hbad])]
      exact ⟨_, rfl⟩
    · have hwal : db.wal = none := by
        rcases h with h | h | h
        · rw [hrun] at h
          cases h
        · exact absurd h hbad
        · exact h
      rw [if_neg (by simpa using hbad), hwal]
      split
      · exact ⟨_, rfl⟩
      · exact ⟨_, rfl⟩
  · rw [if_pos (by simpa using hrun)]
    exact ⟨_, rfl⟩

end

end MiniKV
