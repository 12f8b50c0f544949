import MiniKV.Sections.Compact

/-!
# Flush, Compact and Close under the lock

The sections that put the parts together. What they leave on a return says how
far the work is done; an error leaves a database that holds the same writes.
-/

namespace MiniKV

open Lib

section

variable {F : StorageFormat} {ρ : Regime} {σ : Scene} {db : Database} {st : Store} {q : Prop}

/-! ## `FreezeMutable` -/

/-- The members once the Mutable is frozen and no log is open. -/
def Database.frozen (db : Database) : Database :=
  { db with
    wal := none
    immutable := some (.new db.mutableGeneration db.mutableTable)
    mutableGeneration := db.mutableGeneration + 1
    mutableTable := .empty }

/-- Where there are writes in the Mutable, no compaction waits. -/
theorem ContentsInv.published_of_mutable {x : Contents} (h : ContentsInv ρ x) (hpl : ρ.planned)
    (hne : x.mutableTable.entries ≠ []) :
    ∀ c, x.compaction = some c → c.versionPublished = true := by
  intro c hc
  by_contra hun
  exact hne ((h.pending c hc (by simpa using hun)).planned hpl).2.2

theorem Inv.freeze (h : Inv F ρ σ db st) (hord : ρ.ordered) (himm : db.immutable = none)
    (hne : db.mutableTable.entries ≠ []) (hw : db.wal ≠ none)
    (hroom : db.mutableGeneration ≠ maxUInt64) : Inv F ρ σ db.frozen st := by
  refine h.setMembers (h.scene_of rfl (Contents.view_freeze (x := db.contents) himm) rfl rfl) rfl
    (h.contents.freeze hord hne) (fun _ => ⟨0, Nat.zero_le _, fun _ => rfl, Nat.zero_le _⟩)
    (fun w hw => (by cases hw)) (fun hd δ hδ => ?_) (fun ht => (h.traced ht).current)
  obtain ⟨T, I, D, M, X, hs⟩ := h.stored hd δ hδ
  obtain ⟨w, hw⟩ := Option.ne_none_iff_exists'.mp hw
  rw [hw] at hs
  exact ⟨T, M, X, [], [], hs.freeze himm hne
    (h.contents.published_of_mutable (ρ.durable_imp hd).2 hne) hroom⟩

theorem Database.Tidy.frozen (h : db.Tidy ρ) (hw : db.wal ≠ none) : db.frozen.Tidy ρ := by
  refine ⟨fun hpl c hc hadv => ?_, fun _ _ => Or.inl (by simp [Database.frozen]), fun _ _ => rfl,
    fun w hw => (by cases hw), h.published, h.removable⟩
  exact absurd (h.advanced hpl c hc hadv).2.1 hw

theorem freezeMutable_acts (hord : ρ.ordered) (himm : db.immutable = none)
    (hne : db.mutableTable.entries ≠ []) (hw : db.wal ≠ none) :
    Acts q (Remains F σ.format ρ) (At db (Steady F ρ σ db)) (freezeMutable false)
      (fun _ d st => Steady F ρ σ d st ∧ d = db.frozen) (Failed F ρ σ q) := by
  refine Acts.getDb_bind (Acts.ite (fun hno => ?_) (fun _ => Acts.ite (fun hgen => ?_)
    (fun hgen => ?_)))
  · exfalso
    rcases hno with h | h | h
    · rw [himm] at h
      cases h
    · exact hne (MemTable.isEmpty_iff.mp h)
    · exact hw (Option.isNone_iff_eq_none.mp h)
  · exact Acts.fail (fun st h => ⟨h, fun _ => Or.inr (.generation hgen rfl)⟩)
  · refine Acts.modifyDb_bind (Acts.ite (fun h => (by cases h)) (fun _ => Acts.pure (fun st h => ?_)))
    exact ⟨⟨h.inv.freeze hord himm hne hw hgen, h.tidy.frozen hw⟩, rfl⟩

/-! ## `FlushLocked` -/

theorem Steady.state_eq (h : Steady F ρ σ db st) : db.state = σ.control.state := by
  rw [← h.inv.scene]
  rfl

theorem Steady.status_eq (h : Steady F ρ σ db st) : db.status = σ.control.status := by
  rw [← h.inv.scene]
  rfl

theorem Steady.options_eq (h : Steady F ρ σ db st) : db.options = σ.options := by
  rw [← h.inv.scene]
  rfl

/-- An open database with nothing pending has a log. -/
theorem Steady.wal_ne (h : Steady F ρ σ db st) (hopen : σ.control.state ≠ .closed)
    (himm : db.immutable = none) (hc : db.compaction = none) : db.wal ≠ none := by
  intro hw
  rcases h.tidy.detached (by rw [h.state_eq]; exact hopen) hw with h | ⟨c, hc', -⟩
  · exact h himm
  · rw [hc] at hc'
    cases hc'

/-- The Mutable becomes a table. -/
theorem freezeFlush_acts (hF : F.Lawful) (hord : ρ.ordered) (himm : db.immutable = none)
    (hne : db.mutableTable.entries ≠ []) (hw : db.wal ≠ none) :
    Acts q (Remains F σ.format ρ) (At db (Steady F ρ σ db))
      (do
        freezeMutable false
        continueFlush F)
      (fun _ d st => Steady F ρ σ d st ∧ d.immutable = none ∧ d.mutableTable.entries = [] ∧
        d.compaction = db.compaction) (Failed F ρ σ q) := by
  refine Acts.bind (freezeMutable_acts hord himm hne hw) (fun _ => Acts.fix (fun d => ?_))
  refine Acts.know (fun _ h => h.2) (fun hd => ?_)
  subst hd
  refine Acts.weaken _ ?_ (fun st h => h.1)
  refine (continueFlush_acts hF hord).conseq (fun _ _ h => h) ?_ (fun _ _ _ h => h)
  rintro _ d st ⟨h, hdone⟩
  obtain ⟨ts, v, w, rfl⟩ := hdone.others
  exact ⟨h, rfl, rfl, rfl⟩

/-- What is left when `FlushLocked` returns: it writes one MemTable. -/
structure FlushedLocked (db d : Database) : Prop where
  compaction : d.compaction = none
  immutable : d.immutable = none
  emptied : db.immutable = none → d.mutableTable.entries = []
  kept : db.immutable ≠ none → d.mutableTable = db.mutableTable

theorem flushLocked_acts (hF : F.Lawful) (hord : ρ.ordered) (hopen : σ.control.state ≠ .closed)
    (hok : σ.control.status.isOk = true) :
    Acts q (Remains F σ.format ρ) (At db (Steady F ρ σ db)) (flushLocked F)
      (fun _ d st => Steady F ρ σ d st ∧ FlushedLocked db d) (Failed F ρ σ q) := by
  refine Acts.know (fun _ h => h.status_eq) (fun hstatus => ?_)
  refine Acts.getDb_bind (Acts.ite (fun hbad => ?_) (fun _ => ?_))
  · rw [hstatus, hok] at hbad
    cases hbad
  refine Acts.bind (continueCompaction_acts hF) (fun _ => Acts.fix (fun d => ?_))
  refine Acts.know (fun _ h => h.2) (fun hdone => ?_)
  refine Acts.weaken _ ?_ (fun st h => h.1)
  refine Acts.getDb_bind ?_
  cases himm : d.immutable with
  | some imm =>
    refine (continueFlush_acts hF hord).conseq (fun _ _ h => h) ?_ (fun _ _ _ h => h)
    rintro _ d' st ⟨h, hflush⟩
    obtain ⟨ts, v, w, rfl⟩ := hflush.others
    refine ⟨h, hdone.compaction, rfl, fun hno => ?_, fun _ => hdone.mutableTable_eq⟩
    rw [← hdone.immutable_eq, himm] at hno
    cases hno
  | none =>
    have hnone : db.immutable = none := hdone.immutable_eq.symm.trans himm
    refine Acts.ite (fun hempty => ?_) (fun hne => ?_)
    · refine Acts.pure (fun st h => ⟨h, hdone.compaction, himm, fun _ => ?_, ?_⟩)
      · exact MemTable.isEmpty_iff.mp hempty
      · exact fun hne => absurd hnone hne
    · refine Acts.know (fun _ h => h.wal_ne hopen himm hdone.compaction) (fun hw => ?_)
      refine (freezeFlush_acts hF hord himm (fun he => hne (MemTable.isEmpty_iff.mpr he)) hw).conseq
        (fun _ _ h => h) ?_ (fun _ _ _ h => h)
      rintro _ d' st ⟨h, h1, h2, h3⟩
      exact ⟨h, h3.trans hdone.compaction, h1, fun _ => h2, fun hne => absurd hnone hne⟩

/-! ## `CompactLocked` -/

/-- A compaction is planned on aligned tables, or there is nothing to do. -/
theorem prepareCompaction_steady {db' : Database} (h : Steady F ρ σ db st)
    (himm : db.immutable = none) (hmut : db.mutableTable.entries = []) (hw : db.wal ≠ none)
    (hok : prepareCompaction db = .ok db') : Steady F ρ σ db' st := by
  obtain ⟨hnone, hlen⟩ := prepareCompaction_ready hok
  have hinv := h.inv.contents.tablesInv (h.inv.contents.aligned_of_length hlen)
  rcases prepareCompaction_ok hinv hok with ⟨-, rfl⟩ | ⟨c, hp, rfl⟩
  · exact ⟨⟨h.inv.scene, h.inv.contents, h.inv.wf, h.inv.manifests, h.inv.size, h.inv.wal,
      h.inv.linked, h.inv.stored, h.inv.traced⟩, ⟨h.tidy.advanced, h.tidy.detached, h.tidy.solo,
      h.tidy.writer, h.tidy.published, h.tidy.removable⟩⟩
  · refine ⟨h.inv.plan hnone hlen himm hmut hp, ?_⟩
    constructor
    case advanced =>
      intro _ d hd hadv
      rw [← Option.some.inj hd, hp.advanced] at hadv
      cases hadv
    case detached => exact fun _ hno => absurd hno hw
    case solo => exact fun _ hne => absurd himm hne
    case writer => exact h.tidy.writer
    case published =>
      intro d hd hpub
      rw [← Option.some.inj hd, hp.versionPublished] at hpub
      cases hpub
    case removable =>
      intro d hd f hf
      rw [← Option.some.inj hd, hp.paths] at hf
      obtain ⟨n, -, rfl⟩ := List.mem_map.mp hf
      simp

/-- The database has a MemTable in each place, so that one flush does not empty it. -/
def Crowded (db : Database) (e : Status) : Prop :=
  db.compaction = none ∧ db.immutable ≠ none ∧ db.mutableTable.entries ≠ [] ∧
    e = databaseCorruption "compaction requires an empty active WAL generation"

/-- What is left when `CompactLocked` returns. -/
structure CompactedLocked (ρ : Regime) (db d : Database) : Prop where
  compaction : d.compaction = none
  continued : db.compaction ≠ none → CompactDone ρ db d
  immutable : db.compaction = none → d.immutable = none
  emptied : db.compaction = none → d.mutableTable.entries = []
  levelZero : ρ.planned → db.compaction = none → d.version.levelZero = []

/-- After the plan there is no table on level zero. -/
theorem CompactDone.levelZero {db' d : Database} (hpl : ρ.planned)
    (hinv : TablesInv db.format db.version db.tables) (hok : prepareCompaction db = .ok db')
    (h : CompactDone ρ db' d) : d.version.levelZero = [] := by
  rcases prepareCompaction_ok hinv hok with ⟨hzero, rfl⟩ | ⟨c, hp, rfl⟩
  · rw [h.idle (prepareCompaction_ready hok).1]
    exact hzero
  · obtain ⟨outputs, hw, happly, -⟩ := h.replaced hpl c rfl hp.versionPublished
    have hid := (Version.apply_eq_ok.mp happly).1.id_ne
    rw [hw.apply_eq hinv hid] at happly
    rw [← Except.ok.inj happly]
    exact hw.levelZero_eq hinv

/-- The part of `CompactLocked` that starts from empty MemTables. -/
def compactStart (F : StorageFormat) : Act Unit := do
  let db ← getDb
  if db.immutable.isSome ∨ !db.mutableTable.isEmpty ∨ db.wal.isNone then
    Prog.fail (databaseCorruption "compaction requires an empty active WAL generation")
  else do
    let db' ← Prog.ofExcept (prepareCompaction db)
    modifyDb (fun _ => db')
    continueCompaction F

theorem compactStart_acts (hF : F.Lawful) (hopen : σ.control.state ≠ .closed)
    (himm : db.immutable = none) (hnone : db.compaction = none)
    (hmut : db.mutableTable.entries = []) :
    Acts q (Remains F σ.format ρ) (At db (Steady F ρ σ db)) (compactStart F)
      (fun _ d st => Steady F ρ σ d st ∧ d.compaction = none ∧ d.immutable = none ∧
        d.mutableTable.entries = [] ∧ (ρ.planned → d.version.levelZero = []))
      (fun e d st => Steady F ρ σ d st ∧
        (σ.options.compactionOutputSizeLimit ≤ maxUInt64 → Cause F ρ q d.contents e)) := by
  refine Acts.know (fun _ h => h.wal_ne hopen himm hnone) (fun hw => ?_)
  refine Acts.know (fun _ h => h.inv.contents) (fun hcontents => ?_)
  refine Acts.know (fun _ h => h.options_eq) (fun hopt => ?_)
  refine Acts.getDb_bind (Acts.ite (fun hno => ?_) (fun _ => ?_))
  · exfalso
    rcases hno with h | h | h
    · rw [himm] at h
      cases h
    · rw [MemTable.isEmpty_iff.mpr hmut] at h
      cases h
    · exact hw (Option.isNone_iff_eq_none.mp h)
  refine Acts.ofExcept_bind (fun db' hok => ?_) (fun e he st h => ⟨h, fun hlimit hpl => ?_⟩)
  · have hinv := hcontents.tablesInv (hcontents.aligned_of_length (prepareCompaction_ready hok).2)
    have hsame : db'.immutable = db.immutable ∧ db'.mutableTable = db.mutableTable := by
      rcases prepareCompaction_ok hinv hok with ⟨-, rfl⟩ | ⟨c, -, rfl⟩
      · exact ⟨rfl, rfl⟩
      · exact ⟨rfl, rfl⟩
    refine Acts.modifyDb_bind (Acts.weaken _ ?_
      (fun st h => prepareCompaction_steady h himm hmut hw hok))
    refine (continueCompaction_acts hF).conseq (fun _ _ h => h) ?_
      (fun _ _ _ h => ⟨h.1, fun _ => h.2⟩)
    rintro _ d st ⟨h, hdone⟩
    have hzero := fun hpl => hdone.levelZero hpl hinv hok
    obtain ⟨ts, v, g, w, stats, rfl⟩ := hdone.others
    refine ⟨h, rfl, hsame.1.trans himm, ?_, hzero⟩
    rw [← hmut, ← hsame.2]
  · have hinv := hcontents.tablesInv (hcontents.planned hpl).aligned
    rcases prepareCompaction_error hinv hnone hcontents.accepted (hopt ▸ hlimit) he with
      ⟨he, -⟩ | he
    · exact Or.inr (.bytes he)
    · exact Or.inr (.numbers he)

theorem compactLocked_acts (hF : F.Lawful) (hord : ρ.ordered) (hopen : σ.control.state ≠ .closed)
    (hok : σ.control.status.isOk = true) :
    Acts q (Remains F σ.format ρ) (At db (Steady F ρ σ db)) (compactLocked F)
      (fun _ d st => Steady F ρ σ d st ∧ CompactedLocked ρ db d)
      (fun e d st => Steady F ρ σ d st ∧
        ((σ.options.compactionOutputSizeLimit ≤ maxUInt64 → Cause F ρ q d.contents e) ∨
          Crowded db e)) := by
  refine Acts.know (fun _ h => h.status_eq) (fun hstatus => ?_)
  refine Acts.getDb_bind (Acts.ite (fun hbad => ?_) (fun _ => Acts.ite (fun hsome => ?_)
    (fun hnone => ?_)))
  · rw [hstatus, hok] at hbad
    cases hbad
  · have hne : db.compaction ≠ none := Option.isSome_iff_ne_none.mp hsome
    refine (continueCompaction_acts hF).conseq (fun _ _ h => h) ?_
      (fun _ _ _ h => ⟨h.1, Or.inl (fun _ => h.2)⟩)
    rintro _ d st ⟨h, hdone⟩
    exact ⟨h, hdone.compaction, fun _ => hdone, fun hno => absurd hno hne,
      fun hno => absurd hno hne, fun _ hno => absurd hno hne⟩
  have hnone : db.compaction = none := by simpa using hnone
  refine Acts.when (S := fun d st => Steady F ρ σ d st ∧ d.compaction = none ∧ d.immutable = none ∧
    (d.mutableTable.entries = [] ∨ db.immutable ≠ none ∧ db.mutableTable.entries ≠ [])) (fun _ => ?_)
    (fun hno => ?_) (Acts.fix (fun d => ?_))
  · refine (flushLocked_acts hF hord hopen hok).conseq (fun _ _ h => h) ?_
      (fun _ _ _ h => ⟨h.1, Or.inl (fun _ => h.2)⟩)
    rintro _ d st ⟨h, hdone⟩
    refine ⟨h, hdone.compaction, hdone.immutable, ?_⟩
    by_cases himm : db.immutable = none
    · exact Or.inl (hdone.emptied himm)
    · rw [hdone.kept himm]
      by_cases hmut : db.mutableTable.entries = []
      · exact Or.inl hmut
      · exact Or.inr ⟨himm, hmut⟩
  · rintro d st ⟨rfl, h⟩
    refine ⟨h, hnone, ?_, Or.inl ?_⟩
    · by_contra hne
      exact hno (Or.inl (Option.isSome_iff_ne_none.mpr hne))
    · by_contra hne
      exact hno (Or.inr (by simpa [MemTable.isEmpty] using hne))
  · refine Acts.know (fun _ h => h.2) (fun hknown => ?_)
    obtain ⟨hc, himm, hmut⟩ := hknown
    refine Acts.weaken _ ?_ (fun st h => h.1)
    by_cases hempty : d.mutableTable.entries = []
    · refine (compactStart_acts hF hopen himm hc hempty).conseq (fun _ _ h => h) ?_
        (fun _ _ _ h => ⟨h.1, Or.inl h.2⟩)
      rintro _ d' st ⟨h, h1, h2, h3, h4⟩
      exact ⟨h, h1, fun hne => absurd hnone hne, fun _ => h2, fun _ => h3, fun hpl _ => h4 hpl⟩
    · -- one flush was not enough
      have hcrowd := hmut.resolve_left hempty
      refine Acts.getDb_bind (Acts.ite (fun _ => ?_) (fun hno => ?_))
      · exact Acts.fail (fun st h => ⟨h, Or.inr ⟨hnone, hcrowd.1, hcrowd.2, rfl⟩⟩)
      · exact absurd (Or.inr (Or.inl (by simpa [MemTable.isEmpty] using hempty))) hno

/-! ## The start of a write -/

/-- A write is turned away before it does anything. -/
inductive Denied (σ : Scene) (mode : SyncMode) (e : Status) : Prop
  | closed (h : σ.control.state ≠ .running) (status : e = .closed "database is not running")
  | sticky (h : σ.control.status.isOk = false) (status : e = σ.control.status)
  | mode (h : mode ≠ .sync ∧ mode ≠ .async)
      (status : e = .invalidArgument "write sync mode is invalid")

/-- What a write finds when it has waited for nothing: in foreground mode, nothing is
pending. -/
structure Entered (σ : Scene) (db d : Database) : Prop where
  running : σ.control.state = .running
  status : σ.control.status.isOk = true
  background : σ.options.backgroundMaintenance = true → d = db
  foreground : σ.options.backgroundMaintenance = false → d.compaction = none ∧ d.immutable = none

theorem writeEnter_acts (hF : F.Lawful) (hord : ρ.ordered) (mode : SyncMode) :
    Acts q (Remains F σ.format ρ) (At db (Steady F ρ σ db)) (writeEnter F mode)
      (fun _ d st => Steady F ρ σ d st ∧ Entered σ db d)
      (fun e d st => Steady F ρ σ d st ∧ (Cause F ρ q d.contents e ∨ Denied σ mode e)) := by
  refine Acts.know (fun _ h => h.state_eq) (fun hstate => ?_)
  refine Acts.know (fun _ h => h.status_eq) (fun hstatus => ?_)
  refine Acts.know (fun _ h => h.options_eq) (fun hopt => ?_)
  refine Acts.getDb_bind (Acts.ite (fun hno => ?_) (fun hrun => Acts.ite (fun hno => ?_)
    (fun hok => Acts.ite (fun hno => ?_) (fun _ => Acts.ite (fun hbg => ?_) (fun hbg => ?_)))))
  · refine Acts.fail (fun st h => ⟨h, Or.inr (.closed ?_ rfl)⟩)
    rw [← hstate]
    simpa [Database.isRunning] using hno
  · refine Acts.fail (fun st h => ⟨h, Or.inr (.sticky ?_ hstatus)⟩)
    rw [← hstatus]
    simpa using hno
  · exact Acts.fail (fun st h => ⟨h, Or.inr (.mode hno rfl)⟩)
  all_goals
    have hrun : σ.control.state = .running := by
      rw [← hstate]
      simpa [Database.isRunning] using hrun
    have hok : σ.control.status.isOk = true := by
      rw [← hstatus]
      simpa using hok
    rw [hopt] at hbg
  · refine Acts.pure (fun st h => ⟨h, hrun, hok, fun _ => rfl, fun hno => ?_⟩)
    rw [hbg] at hno
    cases hno
  · have hopen : σ.control.state ≠ .closed := by
      rw [hrun]
      decide
    refine Acts.bind ((continueCompaction_acts hF).errors (fun _ _ _ h => ⟨h.1, Or.inl h.2⟩))
      (fun _ => Acts.fix (fun d => ?_))
    refine Acts.know (fun _ h => h.2) (fun hdone => Acts.weaken _ ?_ (fun st h => h.1))
    refine Acts.bind ((continueFlush_acts hF hord).errors (fun _ _ _ h => ⟨h.1, Or.inl h.2⟩))
      (fun _ => Acts.fix (fun d' => ?_))
    refine Acts.know (fun _ h => h.2) (fun hflush => Acts.weaken _ ?_ (fun st h => h.1))
    have hc : d'.compaction = none := by
      obtain ⟨ts, v, w, rfl⟩ := hflush.others
      exact hdone.compaction
    refine Acts.getDb_bind (Acts.ite (fun _ => ?_) (fun _ => ?_))
    · refine (flushLocked_acts hF hord hopen hok).conseq (fun _ _ h => h) ?_
        (fun _ _ _ h => ⟨h.1, Or.inl h.2⟩)
      rintro _ d'' st ⟨h, hlocked⟩
      exact ⟨h, hrun, hok, fun hyes => absurd hyes hbg, fun _ => ⟨hlocked.compaction,
        hlocked.immutable⟩⟩
    · exact Acts.pure (fun st h => ⟨h, hrun, hok, fun hyes => absurd hyes hbg,
        fun _ => ⟨hc, hflush.immutable⟩⟩)

/-! ## `Close` -/

theorem closeFlush_acts (hF : F.Lawful) (hord : ρ.ordered) (hopen : σ.control.state ≠ .closed) :
    Acts q (Remains F σ.format ρ) (At db (Steady F ρ σ db)) (closeFlush F)
      (fun _ d st => Steady F ρ σ d st ∧ d.compaction = none ∧ d.immutable = none ∧
        d.mutableTable.entries = []) (Failed F ρ σ q) := by
  refine Acts.bind (continueCompaction_acts hF) (fun _ => Acts.fix (fun d => ?_))
  refine Acts.know (fun _ h => h.2) (fun hdone => Acts.weaken _ ?_ (fun st h => h.1))
  refine Acts.bind (continueFlush_acts hF hord) (fun _ => Acts.fix (fun d' => ?_))
  refine Acts.know (fun _ h => h.2) (fun hflush => Acts.weaken _ ?_ (fun st h => h.1))
  have hc : d'.compaction = none := by
    obtain ⟨ts, v, w, rfl⟩ := hflush.others
    exact hdone.compaction
  refine Acts.getDb_bind (Acts.ite (fun hempty => ?_) (fun hne => ?_))
  · exact Acts.pure (fun st h => ⟨h, hc, hflush.immutable, MemTable.isEmpty_iff.mp hempty⟩)
  · refine Acts.know (fun _ h => h.wal_ne hopen hflush.immutable hc) (fun hw => ?_)
    refine (freezeFlush_acts hF hord hflush.immutable
      (fun he => hne (MemTable.isEmpty_iff.mpr he)) hw).conseq (fun _ _ h => h) ?_
      (fun _ _ _ h => h)
    rintro _ d'' st ⟨h, h1, h2, h3⟩
    exact ⟨h, h3.trans hc, h1, h2⟩

/-- What `Close` makes of the members, whatever its result. -/
def Database.ended (db : Database) (status : Status) : Database :=
  { db with
    wal := none
    closeStatus := status
    state := .closed
    backgroundWorkRequested := false
    backgroundWorkRunning := false }

/-- What a closed database has left behind. -/
structure Ended (F : StorageFormat) (ρ : Regime) (σ : Scene) (d : Database) (st : Store) : Prop where
  remains : Remains F σ.format ρ st
  closed : d.state = .closed
  contents : ContentsInv ρ d.contents
  view : d.contents.view = σ.view

theorem Steady.ended (h : Steady F ρ σ db st) (status : Status) :
    Ended F ρ σ (db.ended status) st := by
  refine ⟨h.inv.remains, rfl, h.inv.contents, ?_⟩
  rw [← h.inv.scene]
  rfl

theorem closeFinish_acts (hF : F.Lawful) (hord : ρ.ordered) (hopen : σ.control.state ≠ .closed) :
    Acts q (Remains F σ.format ρ) (At db (Steady F ρ σ db)) (closeFinish F)
      (fun _ d st => Ended F ρ σ d st ∧ ((d.immutable = none ∧ d.mutableTable.entries = []) ∨
        ∃ e, e.isOk = true ∧ Cause F ρ q d.contents e))
      (fun e d st => Ended F ρ σ d st ∧ Cause F ρ q d.contents e) := by
  refine Acts.attempt_bind (closeFlush_acts hF hord hopen) (fun _ => Acts.fix (fun d => ?_))
    (fun e => Acts.fix (fun d => ?_))
  · refine Acts.modifyDb_bind (Acts.ite (fun _ => ?_) (fun hno => absurd rfl hno))
    exact Acts.pure (fun st h => ⟨h.1.ended _, Or.inl h.2.2⟩)
  · refine Acts.modifyDb_bind (Acts.ite (fun hok => ?_) (fun _ => ?_))
    · exact Acts.pure (fun st h => ⟨h.1.ended _, Or.inr ⟨e, hok, h.2⟩⟩)
    · exact Acts.fail (fun st h => ⟨h.1.ended _, h.2⟩)

end

end MiniKV
