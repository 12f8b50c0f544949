import MiniKV.Progress

/-!
# The sizes of the MemTables

A write waits while the Mutable is full and the Immutable is not yet flushed, and without a
worker a full Mutable is flushed before the next write. So whatever the threads do and
whatever calls fail, the Mutable exceeds its limit by at most one record, and the Immutable by
at most two.
-/

namespace MiniKV

open Lib

/-- What the largest record that `Add` accepts adds to the size of a MemTable. -/
def FormatOptions.largestRecord (o : FormatOptions) : Nat :=
  kRecordMetadataSize + o.maxKeySize + o.maxValueSize

/-- The MemTables of a database, with the options that it was opened with. -/
structure Database.Bounded (o : Options) (cap : Nat) (db : Database) : Prop where
  options : db.options = o
  mutableTable : db.mutableTable.approximateDataSize ≤ cap
  immutable : ∀ imm, db.immutable = some imm →
    imm.memtable.approximateDataSize ≤ cap + o.largestRecord

theorem MemTable.size_of_isEmpty {m : MemTable} (h : m.isEmpty = true) :
    m.approximateDataSize = 0 := by
  rw [m.size_eq, MemTable.isEmpty_iff.mp h]
  rfl

/-- What a record adds to a MemTable. -/
theorem MemTable.applyRecord_size {o : FormatOptions} {m m' : MemTable} {r : Record}
    (h : m.applyRecord o r = .ok m') :
    m'.approximateDataSize ≤ m.approximateDataSize + o.largestRecord ∧ m'.isEmpty = false := by
  have hadd : ∀ x : Record, m.add o x = .ok m' →
      m'.approximateDataSize ≤ m.approximateDataSize + o.largestRecord ∧ m'.isEmpty = false := by
    intro x hx
    have hvalid : (MemTable.validate o x.key x.value).isOk = true := by
      unfold MemTable.add at hx
      obtain ⟨-, hx⟩ := ite_error_eq_ok.mp hx
      obtain ⟨hvalid, -⟩ := ite_error_eq_ok.mp hx
      simpa using hvalid
    obtain ⟨-, hkey, hvalue⟩ := MemTable.validate_isOk.mp hvalid
    have hinsert := MemTable.add_ok hx
    have hsize := m.size_insert_le x
    have hpayload : x.payloadSize = kRecordMetadataSize + x.key.length + x.value.length := rfl
    rw [hinsert]
    constructor
    · unfold FormatOptions.largestRecord
      omega
    · exact Bool.eq_false_iff.mpr (fun hno => m.insert_ne_nil x (MemTable.isEmpty_iff.mp hno))
  unfold MemTable.applyRecord at h
  split at h
  · exact hadd r h
  · exact hadd _ h

/-! ## Sections -/

/-- Where the members lead when a section returns, and when it fails. -/
def Brings {α : Type} (P : Database → Prop) (m : Act α) (Q : Database → Prop)
    (E : Database → Prop) : Prop :=
  Prog.Triple (fun s : Sys => P s.db) m (fun _ s => Q s.db) (fun _ s => E s.db) (fun _ => True)

section

variable {α β : Type} {P Q E R : Database → Prop}

theorem Preserves.brings {m : Act α} (h : Preserves P m) : Brings P m P P := h

theorem Brings.pure {a : α} (h : ∀ db, P db → Q db) : Brings P (Pure.pure a : Act α) Q E :=
  Prog.Triple.pure (fun s hs => h s.db hs)

theorem Brings.fail {e : Status} (h : ∀ db, P db → E db) : Brings P (Prog.fail e : Act α) Q E :=
  Prog.Triple.fail (fun s hs => h s.db hs)

theorem Brings.bind {m : Act β} {f : β → Act α} (hm : Brings P m R E)
    (hf : ∀ b, Brings R (f b) Q E) : Brings P (m >>= f) Q E := Prog.Triple.bind hm hf

theorem Brings.ite {c : Prop} [Decidable c] {m n : Act α} (ht : c → Brings P m Q E)
    (hf : ¬ c → Brings P n Q E) : Brings P (if c then m else n) Q E := Prog.Triple.ite ht hf

theorem Brings.modifyDb {f : Database → Database} (h : ∀ db, P db → Q (f db)) :
    Brings P (MiniKV.modifyDb f) Q E := Prog.Triple.modify (fun s hs => h s.db hs)

theorem Brings.attempt_bind {m : Act β} {f : Except Status β → Act α} {S : Database → Prop}
    (hm : Brings P m R S) (hok : ∀ b, Brings R (f (.ok b)) Q E)
    (herr : ∀ e, Brings S (f (.error e)) Q E) : Brings P (Prog.attempt m >>= f) Q E :=
  Prog.Triple.attempt_bind hm hok herr

theorem Brings.conseq {P' Q' E' : Database → Prop} {m : Act α} (h : Brings P' m Q' E')
    (hp : ∀ db, P db → P' db) (hq : ∀ db, Q' db → Q db) (he : ∀ db, E' db → E db) :
    Brings P m Q E :=
  Prog.Triple.conseq h (fun s hs => hp s.db hs) (fun _ s hs => hq s.db hs)
    (fun _ s hs => he s.db hs) (fun _ _ => trivial)

theorem Brings.and {Q' E' : Database → Prop} {m : Act α} (h : Brings P m Q E)
    (h' : Brings P m Q' E') : Brings P m (fun db => Q db ∧ Q' db) (fun db => E db ∧ E' db) :=
  Prog.Triple.conseq (Prog.Triple.and h h') (fun _ hs => ⟨hs, hs⟩) (fun _ _ hs => hs)
    (fun _ _ hs => hs) (fun _ _ => trivial)

/-- A section that reads the members goes on from the members that it has read. -/
theorem Brings.getDb_bind {f : Database → Act α}
    (h : ∀ db, P db → Brings (fun d => d = db) (f db) Q E) : Brings P (getDb >>= f) Q E :=
  fun s hs => h s.db hs s rfl

theorem Brings.from {db : Database} {m : Act α} (h : Brings P m Q E) (hdb : P db) :
    Brings (fun d => d = db) m Q E :=
  h.conseq (fun _ hd => hd ▸ hdb) (fun _ hd => hd) (fun _ hd => hd)

/-- A section that is run to its end. -/
theorem Brings.runs {m : Act Unit} (h : Brings P m Q E) {db : Database} (hdb : P db)
    {S : Fs → Prop} :
    Prog.Triple S (runSection db m)
      (fun r _ => (r.1 = .ok () ∧ Q r.2) ∨ ∃ e, r.1 = .error e ∧ E r.2) (fun _ _ => True)
      (fun _ => True) := by
  intro fs _
  have hm := h ⟨db, fs⟩ hdb
  unfold runSection
  match hrun : m ⟨db, fs⟩ with
  | (.ok (), s) =>
    rw [hrun] at hm
    exact Or.inl ⟨rfl, hm⟩
  | (.error e, s) =>
    rw [hrun] at hm
    exact Or.inr ⟨e, rfl, hm⟩
  | (.killed, s) => trivial

end

/-! ## Maintenance -/

section

variable {F : StorageFormat} {o : Options} {cap : Nat}

theorem openMutableWal_bounded : Preserves (Database.Bounded o cap) openMutableWal :=
  openMutableWal_keeps (fun _ _ h => ⟨h.options, h.mutableTable, h.immutable⟩)

theorem continueFlush_bounded : Preserves (Database.Bounded o cap) (continueFlush F) := by
  apply continueFlush_keeps
  · intro db ts v f hf h
    refine ⟨h.options, h.mutableTable, fun imm himm => ?_⟩
    obtain ⟨old, hold, rfl⟩ := Option.map_eq_some_iff.mp himm
    rw [hf]
    exact h.immutable old hold
  · refine Preserves.bind openMutableWal_bounded (fun _ => Preserves.modifyDb (fun db h => ?_))
    exact ⟨h.options, h.mutableTable, fun imm himm => by cases himm⟩

theorem continueCompaction_bounded :
    Preserves (Database.Bounded o cap) (continueCompaction F) :=
  continueCompaction_keeps (fun _ _ _ _ _ _ _ h => ⟨h.options, h.mutableTable, h.immutable⟩)

/-- A frozen Mutable is within the bound of an Immutable. -/
theorem freezeMutable_bounded (openNextWal : Bool) :
    Preserves (Database.Bounded o cap) (freezeMutable openNextWal) := by
  apply Preserves.getDb_bind
  intro db _
  refine Preserves.ite (fun _ => Preserves.fail _)
    (fun _ => Preserves.ite (fun _ => Preserves.fail _) (fun _ => ?_))
  refine Preserves.bind (Preserves.modifyDb (fun db h => ?_)) (fun _ => ?_)
  · refine ⟨h.options, Nat.zero_le _, fun imm himm => ?_⟩
    cases himm
    exact h.mutableTable.trans (Nat.le_add_right _ _)
  · exact Preserves.ite (fun _ => openMutableWal_bounded) (fun _ => Preserves.pure ())

theorem flushLocked_bounded : Preserves (Database.Bounded o cap) (flushLocked F) :=
  flushLocked_keeps continueCompaction_bounded (freezeMutable_bounded false) continueFlush_bounded

theorem prepareCompaction_bounded {db db' : Database} (h : db.Bounded o cap)
    (hprepare : prepareCompaction db = .ok db') : db'.Bounded o cap :=
  prepareCompaction_keeps (I := Database.Bounded o cap)
    (fun _ _ _ h => ⟨h.options, h.mutableTable, h.immutable⟩) h hprepare

theorem compactLocked_bounded : Preserves (Database.Bounded o cap) (compactLocked F) :=
  compactLocked_keeps (fun _ _ => prepareCompaction_bounded) flushLocked_bounded
    continueCompaction_bounded

theorem flushResume_bounded : Preserves (Database.Bounded o cap) (flushResume F) :=
  flushResume_members (fun _ _ h => ⟨h.options, h.mutableTable, h.immutable⟩) flushLocked_bounded

theorem compactResume_bounded : Preserves (Database.Bounded o cap) (compactResume F) :=
  compactResume_members (fun _ _ h => ⟨h.options, h.mutableTable, h.immutable⟩)
    compactLocked_bounded

theorem closeFinish_bounded : Preserves (Database.Bounded o cap) (closeFinish F) := by
  have hflush : Preserves (Database.Bounded o cap) (closeFlush F) := by
    refine Preserves.bind continueCompaction_bounded (fun _ => ?_)
    refine Preserves.bind continueFlush_bounded (fun _ => Preserves.getDb_bind (fun db _ => ?_))
    exact Preserves.ite (fun _ => Preserves.pure ())
      (fun _ => Preserves.bind (freezeMutable_bounded false) (fun _ => continueFlush_bounded))
  refine Preserves.bind (Preserves.attempt hflush) (fun result => ?_)
  refine Preserves.bind (Preserves.modifyDb (fun _ h => ?_)) (fun _ => ?_)
  · exact ⟨h.options, h.mutableTable, h.immutable⟩
  · exact Preserves.ite (fun _ => Preserves.pure ()) (fun _ => Preserves.fail _)

theorem backgroundWork_bounded : Preserves (Database.Bounded o cap) (backgroundWork F) := by
  refine Preserves.bind continueFlush_bounded (fun _ => Preserves.getDb_bind (fun db h => ?_))
  exact Preserves.ite
    (fun _ => prepared_keeps (fun _ _ => prepareCompaction_bounded) continueCompaction_bounded h)
    (fun _ => Preserves.pure ())

theorem backgroundPublished_bounded (generation : Nat) (result : Except Status SSTableReader) :
    Preserves (Database.Bounded o cap) (backgroundPublished F generation result) := by
  refine Preserves.bind (Preserves.ofExcept _) (fun table => Preserves.getDb_bind (fun db _ => ?_))
  refine Preserves.ite (fun _ => Preserves.fail _) (fun _ => ?_)
  refine Preserves.bind (Preserves.modifyDb (fun db h => ?_)) (fun _ => backgroundWork_bounded)
  refine ⟨h.options, h.mutableTable, fun imm himm => ?_⟩
  obtain ⟨old, hold, rfl⟩ := Option.map_eq_some_iff.mp himm
  exact h.immutable old hold

theorem backgroundFinish_bounded {work : Act Unit}
    (hwork : Preserves (Database.Bounded o cap) work) :
    Preserves (Database.Bounded o cap) (backgroundFinish work) := by
  refine Preserves.bind (Preserves.attempt hwork) (fun result => Preserves.modifyDb (fun _ h => ?_))
  exact ⟨h.options, h.mutableTable, h.immutable⟩

/-! ## Entering a write -/

/-- A flush that returns has no Immutable left. -/
theorem continueFlush_none : Brings (fun _ => True) (continueFlush F)
    (fun db => db.immutable = none) (fun _ => True) := by
  have hany : ∀ {m : Act Unit}, Brings (fun _ => True) m (fun _ => True) (fun _ => True) :=
    Prog.Triple.any _
  apply Brings.getDb_bind
  intro db _
  cases himm : db.immutable with
  | none => exact Brings.pure (fun d hd => hd ▸ himm)
  | some imm =>
    have hend : Brings (fun _ => True) (do
        openMutableWal
        modifyDb (fun db => { db with immutable := none }))
        (fun db => db.immutable = none) (fun _ => True) :=
      hany.bind (fun _ => Brings.modifyDb (fun _ _ => rfl))
    have hwal : Brings (fun _ => True) (do
        if imm.walRemovedAndSynced then Pure.pure () else flushWal imm
        openMutableWal
        modifyDb (fun db => { db with immutable := none }))
        (fun db => db.immutable = none) (fun _ => True) :=
      Brings.ite (fun _ => hend) (fun _ => hany.bind (fun _ => hend))
    refine Brings.conseq ?_ (fun _ _ => trivial) (fun _ h => h) (fun _ h => h)
    exact Brings.ite (fun _ => hwal) (fun _ => hany.bind (fun _ => hwal))

/-- A flush of a database without an Immutable leaves an empty Mutable. -/
theorem flushLocked_empties : Brings (fun db => db.immutable = none) (flushLocked F)
    (fun db => db.mutableTable.isEmpty = true) (fun _ => True) := by
  have hflush : Brings (fun db => db.mutableTable.isEmpty = true) (continueFlush F)
      (fun db => db.mutableTable.isEmpty = true) (fun _ => True) := by
    have hkeep : Preserves (fun db => db.mutableTable.isEmpty = true) (continueFlush F) := by
      apply continueFlush_keeps (fun _ _ _ _ _ h => h)
      exact Preserves.bind (openMutableWal_keeps (fun _ _ h => h))
        (fun _ => Preserves.modifyDb (fun _ h => h))
    exact hkeep.brings.conseq (fun _ h => h) (fun _ h => h) (fun _ _ => trivial)
  have hfreeze : Brings (fun _ => True) (freezeMutable false)
      (fun db => db.mutableTable.isEmpty = true) (fun _ => True) := by
    apply Brings.getDb_bind
    intro db _
    refine Brings.ite (fun _ => Brings.fail (fun _ _ => trivial))
      (fun _ => Brings.ite (fun _ => Brings.fail (fun _ _ => trivial)) (fun _ => ?_))
    refine Brings.bind (R := fun db => db.mutableTable.isEmpty = true)
      (Brings.modifyDb (fun _ _ => rfl)) (fun _ => ?_)
    exact Brings.ite (fun hno => absurd hno (by decide)) (fun _ => Brings.pure (fun _ h => h))
  have hcompaction : Preserves (fun db => db.immutable = none) (continueCompaction F) :=
    continueCompaction_keeps (fun _ _ _ _ _ _ _ h => h)
  apply Brings.getDb_bind
  intro db hdb
  refine Brings.ite (fun _ => Brings.fail (fun _ _ => trivial)) (fun _ => ?_)
  refine Brings.from (P := fun db => db.immutable = none) ?_ hdb
  refine Brings.bind (R := fun db => db.immutable = none)
    (hcompaction.brings.conseq (fun _ h => h) (fun _ h => h) (fun _ _ => trivial)) (fun _ => ?_)
  apply Brings.getDb_bind
  intro db hdb
  rw [hdb]
  refine Brings.ite (fun hempty => Brings.pure (fun d hd => hd ▸ hempty)) (fun _ => ?_)
  exact Brings.from (P := fun _ => True) (hfreeze.bind (fun _ => hflush)) trivial

/-- A write may go on: one more record will not take the Mutable over the bound, or the
Mutable will be frozen with it. -/
def Database.Spare (o : Options) (cap : Nat) (db : Database) : Prop :=
  db.mutableTable.approximateDataSize + o.largestRecord ≤ cap ∨
    (o.backgroundMaintenance = true ∧ db.immutable = none ∧ db.mutableGeneration < maxUInt64)

/-- What the start of a write leaves: with a worker nothing has changed, and without one there
is room. -/
structure Database.Entered (o : Options) (cap : Nat) (db : Database) : Prop where
  bounded : db.Bounded o cap
  numbered : o.backgroundMaintenance = true → db.mutableGeneration < maxUInt64
  room : o.backgroundMaintenance = false →
    db.mutableTable.approximateDataSize + o.largestRecord ≤ cap

theorem writeEnter_bounded (hcap : o.memtableSizeLimit + o.largestRecord ≤ cap)
    (mode : SyncMode) :
    Brings (fun db => db.Bounded o cap ∧ db.mutableGeneration < maxUInt64) (writeEnter F mode)
      (Database.Entered o cap) (Database.Bounded o cap) := by
  apply Brings.getDb_bind
  intro db hdb
  obtain ⟨hdb, hgen⟩ := hdb
  refine Brings.ite (fun _ => Brings.fail (fun d hd => hd ▸ hdb)) (fun _ => ?_)
  refine Brings.ite (fun _ => Brings.fail (fun d hd => hd ▸ hdb)) (fun _ => ?_)
  refine Brings.ite (fun _ => Brings.fail (fun d hd => hd ▸ hdb)) (fun _ => ?_)
  refine Brings.ite (fun hbg => Brings.pure (fun d hd => ?_)) (fun hbg => ?_)
  · rw [hdb.options] at hbg
    exact hd ▸ ⟨hdb, fun _ => hgen, fun hno => by rw [hbg] at hno; cases hno⟩
  rw [hdb.options] at hbg
  have hentered : ∀ d : Database, d.Bounded o cap →
      d.mutableTable.approximateDataSize + o.largestRecord ≤ cap → d.Entered o cap :=
    fun d hd hroom => ⟨hd, fun hyes => absurd hyes hbg, fun _ => hroom⟩
  have hempty : ∀ d : Database, d.mutableTable.isEmpty = true →
      d.mutableTable.approximateDataSize + o.largestRecord ≤ cap := by
    intro d hd
    rw [MemTable.size_of_isEmpty hd]
    omega
  refine Brings.from (P := Database.Bounded o cap) ?_ hdb
  refine Brings.bind continueCompaction_bounded.brings (fun _ => ?_)
  have hflush : Brings (Database.Bounded o cap) (continueFlush F)
      (fun db => db.Bounded o cap ∧ db.immutable = none) (Database.Bounded o cap) := by
    refine (continueFlush_bounded.brings.and (continueFlush_none.conseq (fun _ _ => trivial)
      (fun _ h => h) (fun _ h => h))).conseq (fun _ h => h) (fun _ h => h) (fun _ h => h.1)
  refine hflush.bind (fun _ => Brings.getDb_bind ?_)
  intro d hd
  refine Brings.ite (fun _ => ?_) (fun hsmall => Brings.pure (fun d' hd' => ?_))
  · -- the Mutable was full, and has been flushed
    have hfull : Brings (fun e => e = d) (flushLocked F) (Database.Bounded o cap)
        (Database.Bounded o cap) := flushLocked_bounded.brings.from hd.1
    refine (hfull.and (flushLocked_empties.from hd.2)).conseq (fun _ h => h) (fun d' hd' => ?_)
      (fun _ h => h.1)
    exact hentered d' hd'.1 (hempty d' hd'.2)
  · rw [hd']
    refine hentered d hd.1 ?_
    by_cases hnil : d.mutableTable.isEmpty = true
    · exact hempty d hnil
    · have hlt : ¬ d.options.memtableSizeLimit ≤ d.mutableTable.approximateDataSize :=
        fun hle => hsmall ⟨by simpa using hnil, hle⟩
      rw [hd.1.options] at hlt
      omega

/-! ## The end of a write -/

/-- A log to append to, and room for the record. -/
structure Database.Opening (o : Options) (cap : Nat) (db : Database) : Prop where
  bounded : db.Bounded o cap
  wal : db.wal.isSome = true
  spare : db.Spare o cap

/-- The record has come into the Mutable. -/
structure Database.Loaded (o : Options) (cap : Nat) (db : Database) : Prop where
  options : db.options = o
  immutable : ∀ imm, db.immutable = some imm →
    imm.memtable.approximateDataSize ≤ cap + o.largestRecord
  wal : db.wal.isSome = true
  filled : db.mutableTable.isEmpty = false
  size : db.mutableTable.approximateDataSize ≤ cap ∨
    (o.backgroundMaintenance = true ∧ db.immutable = none ∧ db.mutableGeneration < maxUInt64 ∧
      db.mutableTable.approximateDataSize ≤ cap + o.largestRecord)

theorem Database.Loaded.bounded {db : Database} (h : db.Loaded o cap)
    (hsize : db.mutableTable.approximateDataSize ≤ cap) : db.Bounded o cap :=
  ⟨h.options, hsize, h.immutable⟩

theorem writeApply_loaded (r : Record) : Brings (Database.Opening o cap) (writeApply r)
    (Database.Loaded o cap) (Database.Bounded o cap) := by
  apply Brings.getDb_bind
  intro db hdb
  split
  · rename_i m hm
    rw [show db.format = o.toFormatOptions by rw [Database.format, hdb.bounded.options]] at hm
    obtain ⟨hsize, hfilled⟩ := MemTable.applyRecord_size hm
    refine Brings.modifyDb (fun d hd => ?_)
    rw [hd]
    refine ⟨hdb.bounded.options, hdb.bounded.immutable, hdb.wal, hfilled, ?_⟩
    have hold := hdb.bounded.mutableTable
    rcases hdb.spare with hroom | ⟨hbg, himm, hgen⟩
    · exact Or.inl (hsize.trans hroom)
    · exact Or.inr ⟨hbg, himm, hgen, hsize.trans (Nat.add_le_add_right hold _)⟩
  · refine Brings.bind (Brings.modifyDb (fun d hd => ?_)) (fun _ => Brings.fail (fun _ h => h))
    rw [hd]
    exact ⟨hdb.bounded.options, hdb.bounded.mutableTable, hdb.bounded.immutable⟩

/-- A Mutable that is over the bound is frozen, even if the next log cannot be opened. -/
theorem freezeMutable_loaded : Brings (Database.Loaded o cap) (freezeMutable true)
    (Database.Bounded o cap) (Database.Bounded o cap) := by
  apply Brings.getDb_bind
  intro db hdb
  have hsize : db.mutableTable.approximateDataSize ≤ cap + o.largestRecord := by
    rcases hdb.size with hsize | ⟨-, -, -, hsize⟩
    · omega
    · exact hsize
  refine Brings.ite (fun hno => Brings.fail (fun d hd => ?_)) (fun _ => ?_)
  · rw [hd]
    rcases hdb.size with hsize | ⟨-, himm, -, -⟩
    · exact hdb.bounded hsize
    · simp [himm, hdb.filled, Option.isNone_iff_eq_none, Option.isSome_iff_ne_none.mp hdb.wal] at hno
  refine Brings.ite (fun hlast => Brings.fail (fun d hd => ?_)) (fun _ => ?_)
  · rw [hd]
    rcases hdb.size with hsize | ⟨-, -, hgen, -⟩
    · exact hdb.bounded hsize
    · omega
  refine Brings.bind (R := Database.Bounded o cap) (Brings.modifyDb (fun d hd => ?_)) (fun _ => ?_)
  · rw [hd]
    refine ⟨hdb.options, Nat.zero_le _, fun imm himm => ?_⟩
    cases himm
    exact hsize
  · exact Brings.ite (fun _ => openMutableWal_bounded.brings) (fun _ => Brings.pure (fun _ h => h))

theorem writeRotate_bounded (hcap : o.memtableSizeLimit + o.largestRecord ≤ cap) :
    Brings (Database.Loaded o cap) (writeRotate F) (Database.Bounded o cap)
      (Database.Bounded o cap) := by
  have hschedule : Preserves (Database.Bounded o cap) scheduleBackgroundWork :=
    scheduleBackgroundWork_keeps (fun _ _ h => ⟨h.options, h.mutableTable, h.immutable⟩)
  apply Brings.getDb_bind
  intro db hdb
  refine Brings.ite (fun hsmall => Brings.pure (fun d hd => ?_)) (fun _ => ?_)
  · rw [hdb.options] at hsmall
    rw [hd]
    exact hdb.bounded (by omega)
  refine Brings.ite (fun hfore => ?_) (fun _ => ?_)
  · refine flushLocked_bounded.brings.from ?_
    rw [hdb.options] at hfore
    rcases hdb.size with hsize | ⟨hbg, -, -, -⟩
    · exact hdb.bounded hsize
    · simp [hbg] at hfore
  refine Brings.ite (fun hsome => Brings.pure (fun d hd => ?_)) (fun _ => ?_)
  · rw [hd]
    rcases hdb.size with hsize | ⟨-, himm, -, -⟩
    · exact hdb.bounded hsize
    · simp [himm] at hsome
  refine Brings.attempt_bind (freezeMutable_loaded.from hdb) (fun _ => hschedule.brings)
    (fun e => Brings.bind (Brings.modifyDb (fun _ h => ?_)) (fun _ => hschedule.brings))
  exact ⟨h.options, h.mutableTable, h.immutable⟩

/-- A write that no longer waits. One that is refused changes nothing. -/
theorem writeFinish_bounded (hcap : o.memtableSizeLimit + o.largestRecord ≤ cap)
    (type : ValueType) (key value : Bytes) (mode : SyncMode) :
    Brings (fun db => db.Bounded o cap ∧ (db.isRunning = true →
        (o.backgroundMaintenance = true → db.backgroundStatus.isOk = true) → db.Spare o cap))
      (writeFinish F type key value mode) (Database.Bounded o cap) (Database.Bounded o cap) := by
  have hsticky : ∀ e, Brings (Database.Bounded o cap) (failSticky e : Act Unit)
      (Database.Bounded o cap) (Database.Bounded o cap) := fun e =>
    Brings.bind (Brings.modifyDb (fun _ h => ⟨h.options, h.mutableTable, h.immutable⟩))
      (fun _ => Brings.fail (fun _ h => h))
  have hopening : ∀ {db : Database} {w n}, db.Opening o cap → w.isSome = true →
      Database.Opening o cap { db with wal := w, lastSequence := n } :=
    fun h hw => ⟨⟨h.bounded.options, h.bounded.mutableTable, h.bounded.immutable⟩, hw, h.spare⟩
  apply Brings.getDb_bind
  intro db hdb
  obtain ⟨hdb, hspare⟩ := hdb
  refine Brings.ite (fun _ => Brings.fail (fun d hd => hd ▸ hdb)) (fun hrun => ?_)
  refine Brings.ite (fun _ => Brings.fail (fun d hd => hd ▸ hdb)) (fun hok => ?_)
  refine Brings.ite (fun _ => Brings.fail (fun d hd => hd ▸ hdb)) (fun _ => ?_)
  cases hwal : db.wal with
  | none => exact Brings.fail (fun d hd => hd ▸ hdb)
  | some w =>
    rw [hdb.options] at hok
    have hopen : db.Opening o cap :=
      ⟨hdb, by rw [hwal]; rfl, hspare (by simpa using hrun) (by simpa using hok)⟩
    refine Brings.bind (R := Database.Opening o cap) (Brings.modifyDb (fun d hd => ?_)) (fun _ => ?_)
    · rw [hd]
      exact hopening hopen hopen.wal
    have happend : Preserves (Database.Opening o cap) (walAppend F w
        { key := key, sequence := db.lastSequence + 1, type := type, value := value } mode) := by
      apply walAppend_members
      intro d f h
      exact hopening h (by rw [Option.isSome_map]; exact h.wal)
    refine Brings.attempt_bind happend.brings (fun _ => ?_) (fun e => ?_)
    · exact Brings.bind (writeApply_loaded _) (fun _ => writeRotate_bounded hcap)
    · exact (hsticky e).conseq (fun _ h => h.bounded) (fun _ h => h) (fun _ h => h)

end

/-! ## Instances -/

def Parked.isWrite : Parked → Bool
  | .write _ _ _ _ => true
  | _ => false

/-- The MemTables of an open database; only a database with a worker lets a write wait. -/
structure Instance.Bounded (o : Options) (cap : Nat) (inst : Instance) : Prop where
  db : inst.db.Bounded o cap
  waiting : ∀ p ∈ inst.parked, p.isWrite = true → o.backgroundMaintenance = true

namespace Instance

variable {F : StorageFormat} {o : Options} {cap : Nat} {q : Prop} {R : Store → Prop}
  {inst : Instance}

theorem Bounded.park (h : inst.Bounded o cap) {p : Parked}
    (hp : p.isWrite = true → o.backgroundMaintenance = true) : (inst.park p).Bounded o cap := by
  refine ⟨h.db, fun p' hmem => ?_⟩
  rcases List.mem_append.mp hmem with hmem | hmem
  · exact h.waiting p' hmem
  · rw [List.mem_singleton.mp hmem]
    exact hp

theorem Bounded.unpark (h : inst.Bounded o cap) (position : Nat) :
    (inst.unpark position).Bounded o cap :=
  ⟨h.db, fun p hmem => h.waiting p (List.mem_of_mem_eraseIdx hmem)⟩

/-- A section that ends a call. -/
theorem Bounded.complete (h : inst.Bounded o cap) {m : Act Unit}
    (hm : Preserves (Database.Bounded o cap) m) :
    Leads q R (inst.complete m) (Instance.Bounded o cap) :=
  hm.leads h.db (fun _ hd => ⟨hd, h.waiting⟩)

theorem Bounded.writeTurn (h : inst.Bounded o cap)
    (hcap : o.memtableSizeLimit + o.largestRecord ≤ cap) (hentered : inst.db.Entered o cap)
    (type : ValueType) (key value : Bytes) (mode : SyncMode) :
    Leads q R (inst.writeTurn F type key value mode) (Instance.Bounded o cap) := by
  have hoptions := h.db.options
  refine Leads.ite (fun hblocked => ?_) (fun hfree => ?_)
  · simp only [writeBlocked, hoptions, decide_eq_true_eq] at hblocked
    exact Leads.pure (h.park (fun _ => hblocked.1))
  · have hspare : inst.db.isRunning = true →
        (o.backgroundMaintenance = true → inst.db.backgroundStatus.isOk = true) →
        inst.db.Spare o cap := by
      intro hrun hok
      by_cases hbg : o.backgroundMaintenance = true
      · cases himm : inst.db.immutable with
        | none => exact Or.inr ⟨hbg, himm, hentered.numbered hbg⟩
        | some imm =>
          simp only [writeBlocked, hoptions, himm, hbg, hok hbg, hrun, Option.isSome_some,
            true_and, and_true, decide_eq_true_eq] at hfree
          exact Or.inl (by omega)
      · exact Or.inl (hentered.room (by simpa using hbg))
    refine Prog.Triple.bind ((writeFinish_bounded hcap type key value mode).runs ⟨h.db, hspare⟩)
      (fun r => Prog.Triple.pure (fun fs hr => ?_))
    rcases hr with ⟨-, hr⟩ | ⟨e, -, hr⟩
    · exact ⟨hr, h.waiting⟩
    · exact ⟨hr, h.waiting⟩

theorem Bounded.write (h : inst.Bounded o cap)
    (hcap : o.memtableSizeLimit + o.largestRecord ≤ cap)
    (hgen : inst.db.mutableGeneration < maxUInt64) (type : ValueType) (key value : Bytes)
    (mode : SyncMode) : Leads q R (inst.write F type key value mode) (Instance.Bounded o cap) := by
  refine Leads.ite (fun _ => Leads.pure h) (fun _ => ?_)
  refine Prog.Triple.bind ((writeEnter_bounded hcap mode).runs ⟨h.db, hgen⟩) (fun r => ?_)
  obtain ⟨entered, d⟩ := r
  cases entered with
  | error e =>
    refine Prog.Triple.pure (fun fs hr => ?_)
    rcases hr with ⟨hno, -⟩ | ⟨e', -, hd⟩
    · cases hno
    · exact ⟨hd, h.waiting⟩
  | ok u =>
    intro fs hr
    rcases hr with ⟨-, hd⟩ | ⟨e, hno, -⟩
    · have hturning : Instance.Bounded o cap { inst with db := d } := ⟨hd.bounded, h.waiting⟩
      have hturn := hturning.writeTurn (F := F) (q := False) (R := fun _ => True) hcap hd type key
        value mode
      exact hturn fs ⟨False.elim, trivial⟩
    · cases hno

theorem Bounded.call (h : inst.Bounded o cap)
    (hcap : o.memtableSizeLimit + o.largestRecord ≤ cap)
    (hgen : inst.db.mutableGeneration < maxUInt64) (c : Call) :
    Leads q R (inst.call F c) (Instance.Bounded o cap) := by
  have hpark : ∀ p : Parked, p.isWrite = false →
      Leads q R (pure (none, inst.park p)) (Instance.Bounded o cap) := fun p hp =>
    Leads.pure (h.park (fun hw => by rw [hp] at hw; cases hw))
  cases c with
  | put key value mode => exact h.write hcap hgen .value key value mode
  | delete key mode => exact h.write hcap hgen .deletion key [] mode
  | flush =>
    exact Leads.ite (fun _ => Leads.pure h) (fun _ => Leads.ite (fun _ => hpark .flush rfl)
      (fun _ => h.complete flushResume_bounded))
  | compact =>
    exact Leads.ite (fun _ => Leads.pure h) (fun _ => Leads.ite (fun _ => hpark .compact rfl)
      (fun _ => h.complete compactResume_bounded))
  | waitForBackgroundWork =>
    exact Leads.ite (fun _ => Leads.pure h) (fun _ =>
      Leads.ite (fun _ => hpark .waitForBackgroundWork rfl) (fun _ => Leads.pure h))
  | close =>
    unfold Instance.call
    dsimp only
    cases inst.db.state with
    | closed => exact Leads.pure h
    | closing => exact hpark .closeWait rfl
    | running =>
      have hbegin : Preserves (Database.Bounded o cap) closeBegin :=
        Preserves.modifyDb (fun _ h => ⟨h.options, h.mutableTable, h.immutable⟩)
      refine Prog.Triple.bind (hbegin.brings.runs h.db) (fun r => Prog.Triple.pure (fun fs hr => ?_))
      have hd : r.2.Bounded o cap := by
        rcases hr with ⟨-, hd⟩ | ⟨e, -, hd⟩
        · exact hd
        · exact hd
      have hclosing : Instance.Bounded o cap { inst with db := r.2 } := ⟨hd, h.waiting⟩
      exact hclosing.park (fun hw => by cases hw)

theorem Bounded.resume (h : inst.Bounded o cap)
    (hcap : o.memtableSizeLimit + o.largestRecord ≤ cap)
    (hgen : inst.db.mutableGeneration < maxUInt64) (position : Nat) :
    Leads q R (inst.resume F position) (Instance.Bounded o cap) := by
  unfold Instance.resume
  cases hp : inst.parked[position]? with
  | none => exact Leads.pure h
  | some p =>
    have hmem := List.mem_of_getElem? hp
    have hrest := h.unpark position
    cases p with
    | write type key value mode =>
      have hbg := h.waiting _ hmem rfl
      refine hrest.writeTurn hcap ⟨hrest.db, fun _ => hgen, fun hno => ?_⟩ type key value mode
      rw [hbg] at hno
      cases hno
    | flush =>
      exact Leads.ite (fun _ => Leads.pure h) (fun _ => hrest.complete flushResume_bounded)
    | compact =>
      exact Leads.ite (fun _ => Leads.pure h) (fun _ => hrest.complete compactResume_bounded)
    | waitForBackgroundWork =>
      exact Leads.ite (fun _ => Leads.pure h) (fun _ => Leads.pure hrest)
    | closeJoin =>
      dsimp only
      cases inst.worker with
      | absent => exact hrest.complete closeFinish_bounded
      | idle => exact Leads.pure h
      | publishing g m stage => exact Leads.pure h
    | closeWait => exact Leads.ite (fun _ => Leads.pure hrest) (fun _ => Leads.pure h)

theorem Bounded.workerStep (h : inst.Bounded o cap) :
    Leads q R (inst.workerStep F) (Instance.Bounded o cap) := by
  have hfinish : ∀ {i : Instance} {work : Act Unit}, i.Bounded o cap →
      Preserves (Database.Bounded o cap) work →
      Leads q R (workerFinish i work) (Instance.Bounded o cap) := by
    intro i work hi hwork
    refine Prog.Triple.bind ((backgroundFinish_bounded hwork).brings.runs hi.db)
      (fun r => Prog.Triple.pure (fun fs hr => ?_))
    rcases hr with ⟨-, hd⟩ | ⟨e, -, hd⟩
    · exact ⟨hd, hi.waiting⟩
    · exact ⟨hd, hi.waiting⟩
  unfold Instance.workerStep
  cases inst.worker with
  | absent => exact Leads.pure h
  | idle =>
    refine Leads.ite (fun _ => Leads.pure ⟨h.db, h.waiting⟩)
      (fun _ => Leads.ite (fun _ => Leads.pure h) (fun _ => ?_))
    dsimp only
    have hbusy : Database.Bounded o cap { inst.db with
        backgroundWorkRequested := false, backgroundWorkRunning := true } :=
      ⟨h.db.options, h.db.mutableTable, h.db.immutable⟩
    split
    · refine Leads.ite (fun _ => Leads.pure ⟨hbusy, h.waiting⟩) (fun _ => ?_)
      exact hfinish ⟨hbusy, h.waiting⟩ backgroundWork_bounded
    · exact hfinish ⟨hbusy, h.waiting⟩ backgroundWork_bounded
  | publishing g m stage =>
    have hpublish : Leads q R
        (do
          let stage ← publishStep F inst.db.format g m stage
          pure (none, { inst with worker := .publishing g m stage }))
        (Instance.Bounded o cap) :=
      Prog.Triple.bind (Prog.Triple.any _)
        (fun _ => Prog.Triple.pure (fun _ _ => ⟨h.db, h.waiting⟩))
    cases stage with
    | done result => exact hfinish h (backgroundPublished_bounded g result)
    | start => exact hpublish
    | write file encoded => exact hpublish
    | sync file => exact hpublish
    | rename => exact hpublish
    | syncDirectory => exact hpublish
    | openReader => exact hpublish
    | cleanup e => exact hpublish

/-- Every step keeps the bound, as long as the generations are not exhausted. -/
theorem Bounded.step (h : inst.Bounded o cap)
    (hcap : o.memtableSizeLimit + o.largestRecord ≤ cap)
    (hgen : inst.db.mutableGeneration < maxUInt64) (a : Action) :
    Leads q R (inst.step F a) (Instance.Bounded o cap) := by
  cases a with
  | call c => exact h.call hcap hgen c
  | resume position => exact h.resume hcap hgen position
  | worker => exact h.workerStep

end Instance

/-! ## Runs -/

/-- A database is open, and has a generation left for the next log. -/
def World.numbered (w : World) : Bool :=
  w.current.any (fun inst => decide (inst.db.mutableGeneration < maxUInt64))

/-- From any state of an open database, with any format: whatever the threads do and whatever
calls fail, as long as the generations are not exhausted, the Mutable stays within a bound that
leaves room for one record beyond the limit, and the Immutable within one record more. -/
theorem memory_bounded {F : StorageFormat} {w : World} {inst inst' : Instance} {cap : Nat}
    {steps : List WorldEvent} (hc : w.current = some inst)
    (hcap : inst.db.options.memtableSizeLimit + inst.db.options.largestRecord ≤ cap)
    (hstart : inst.Bounded inst.db.options cap)
    (hsteps : w.along F (fun w _ => w.numbered) steps = true)
    (hc' : (w.run F steps).current = some inst') :
    inst'.db.options = inst.db.options ∧ inst'.db.mutableTable.approximateDataSize ≤ cap ∧
      ∀ imm, inst'.db.immutable = some imm →
        imm.memtable.approximateDataSize ≤ cap + inst.db.options.largestRecord := by
  suffices h : ∀ inst', (w.run F steps).current = some inst' →
      inst'.Bounded inst.db.options cap by
    obtain ⟨hdb, -⟩ := h inst' hc'
    exact ⟨hdb.options, hdb.mutableTable, hdb.immutable⟩
  refine World.Along.keeps (Φ := fun w => ∀ i, w.current = some i →
    i.Bounded inst.db.options cap) (fun w e hnumbered hw i' hi' => ?_)
    (World.along_iff.mp hsteps) (fun i hi => ?_)
  · obtain ⟨i, hi, hgen⟩ := (Option.any_eq_true _ _).mp hnumbered
    rcases World.step_current hi hi' with ⟨rfl, -⟩ | ⟨a, script, ret, fs, -, hstep, -⟩
    · exact hw i' hi
    · have hlead := (hw i hi).step (F := F) (q := False) (R := fun _ => True) hcap
        (of_decide_eq_true hgen) a { store := w.store, script := script } ⟨False.elim, trivial⟩
      rw [hstep] at hlead
      exact hlead
  · rw [hc] at hi
    exact Option.some.inj hi ▸ hstart

/-- A database with a worker that freezes its Mutable with every record. -/
def tightWorker : List WorldEvent :=
  [.openDatabase { maxKeySize := 1, maxValueSize := 1, backgroundMaintenance := true,
                   memtableSizeLimit := 1 } []]

/-- Three writes, of which the last waits until the worker has flushed the first and then comes
to the second. -/
def tightSteps : List WorldEvent :=
  [.act (.call (.put [1] [7] .sync)) [], .act (.call (.put [2] [8] .sync)) [],
    .act (.call (.put [3] [9] .sync)) []] ++ roundOfWorker ++ [.act (.resume 0) []]

/-- The hypotheses hold for that run, which ends with two records in the Immutable. -/
theorem memory_bounded_tightWorker : ∃ inst' imm,
    ((World.empty.run (fileFormat byteShape) tightWorker).run (fileFormat byteShape)
      tightSteps).current = some inst' ∧ inst'.db.mutableTable.approximateDataSize ≤ 12 ∧
    inst'.db.immutable = some imm ∧ imm.memtable.approximateDataSize = 22 ∧
    imm.memtable.approximateDataSize ≤ 12 + 11 := by
  have hsizes : ((World.empty.run (fileFormat byteShape) tightWorker).current.map (fun i =>
      (i.db.options.memtableSizeLimit, i.db.options.largestRecord,
        i.db.mutableTable.approximateDataSize, i.db.immutable.isSome, i.parked))) =
      some (1, 11, 0, false, []) := by decide +kernel
  obtain ⟨inst, hc, hinst⟩ := Option.map_eq_some_iff.mp hsizes
  simp only [Prod.mk.injEq] at hinst
  obtain ⟨hlimit, hlargest, hmutable, himm, hparked⟩ := hinst
  have hnone : inst.db.immutable = none := by simpa using himm
  have hend : (((World.empty.run (fileFormat byteShape) tightWorker).run (fileFormat byteShape)
      tightSteps).current.bind (fun i => i.db.immutable.map (fun imm => (i, imm)))).map
        (fun p => p.2.memtable.approximateDataSize) = some 22 := by decide +kernel
  obtain ⟨p, hp, hsize⟩ := Option.map_eq_some_iff.mp hend
  obtain ⟨inst', hc', hp⟩ := Option.bind_eq_some_iff.mp hp
  obtain ⟨imm, himm', rfl⟩ := Option.map_eq_some_iff.mp hp
  have hcap : inst.db.options.memtableSizeLimit + inst.db.options.largestRecord ≤ 12 := by
    rw [hlimit, hlargest]
  have hbound := memory_bounded hc hcap
    ⟨⟨rfl, by rw [hmutable]; exact Nat.zero_le _, fun i hi => by rw [hnone] at hi; cases hi⟩,
      fun q hq => by rw [hparked] at hq; cases hq⟩ (by decide +kernel) hc'
  refine ⟨inst', imm, hc', hbound.2.1, himm', hsize, ?_⟩
  have himmutable := hbound.2.2 imm himm'
  rwa [hlargest] at himmutable

end MiniKV
