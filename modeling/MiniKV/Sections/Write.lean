import MiniKV.Sections.Append

/-!
# The end of a write

`Database::Write` from where it no longer waits: the append, the change of the
Mutable, and the flush or the freezing of a Mutable that has become full.
-/

namespace MiniKV

open Lib

section

variable {F : StorageFormat} {ρ : Regime} {σ : Scene} {db : Database} {st : Store} {q : Prop}
  {w : WalWriter} {r : Record} {e : Status} {mode : SyncMode}

/-! ## Members that hold no data -/

/-- The scene with another control. -/
def Scene.under (σ : Scene) (k : Control) : Scene := { σ with control := k }

/-- The scene with a sticky error. -/
def Scene.stuck (σ : Scene) (e : Status) : Scene := σ.under { σ.control with status := e }

theorem Inv.control_eq (h : Inv F ρ σ db st) : db.control = σ.control := by
  rw [← h.scene]
  rfl

theorem Inv.setControl (h : Inv F ρ σ db st) {d : Database} (hc : d.contents = db.contents)
    (hw : d.wal = db.wal) : Inv F ρ (σ.under d.control) d st := by
  have hopt : d.options = db.options := congrArg Contents.options hc
  have hlast : d.lastSequence = db.lastSequence := congrArg Contents.lastSequence hc
  have hver : d.version = db.version := congrArg Contents.version hc
  have hgen : d.mutableGeneration = db.mutableGeneration := congrArg Contents.mutableGeneration hc
  refine h.setMembers ?_ hopt (hc ▸ h.contents) (fun hord => ?_) (fun w hw' => ⟨hgen, w, ?_, rfl⟩)
    (fun hd => ?_) (fun ht => ?_)
  · rw [← h.scene]
    unfold sceneOf Scene.under
    rw [hopt, hc, hlast]
  · rw [hc, hw]
    exact h.size hord
  · rw [← hw]
    exact hw'
  · rw [hc, hw]
    exact h.stored hd
  · rw [hver]
    exact (h.traced ht).current

theorem Database.Tidy.setControl (h : db.Tidy ρ) {d : Database} (hc : d.contents = db.contents)
    (hw : d.wal = db.wal) (hs : d.state ≠ .closed → db.state ≠ .closed) : d.Tidy ρ := by
  have himm : d.immutable = db.immutable := congrArg Contents.immutable hc
  have hcomp : d.compaction = db.compaction := congrArg Contents.compaction hc
  constructor
  case advanced =>
    rw [hcomp, hw, himm]
    exact h.advanced
  case detached =>
    rw [hcomp, hw, himm]
    exact fun hne => h.detached (hs hne)
  case solo =>
    rw [hw, himm]
    exact h.solo
  case writer =>
    rw [hw]
    exact h.writer
  case published =>
    rw [hcomp]
    exact h.published
  case removable =>
    rw [hcomp]
    exact h.removable

theorem Steady.setControl (h : Steady F ρ σ db st) {d : Database} (hc : d.contents = db.contents)
    (hw : d.wal = db.wal) (hs : d.state ≠ .closed → db.state ≠ .closed) :
    Steady F ρ (σ.under d.control) d st :=
  ⟨h.inv.setControl hc hw, h.tidy.setControl hc hw hs⟩

theorem Steady.stuck (h : Steady F ρ σ db st) (e : Status) :
    Steady F ρ (σ.stuck e) { db with status := e } st := by
  have hs := h.setControl (d := { db with status := e }) rfl rfl id
  have hk : ({ db with status := e } : Database).control = { σ.control with status := e } := by
    rw [← h.inv.control_eq]
    rfl
  rw [hk] at hs
  exact hs

/-! ## The Mutable takes the record -/

/-- The record is in the log and in the Mutable. -/
def Wrote (F : StorageFormat) (ρ : Regime) (σ : Scene) (db : Database) (r : Record)
    (mode : SyncMode) (st : Store) : Prop :=
  Steady F ρ (σ.wrote r mode) (db.wrote r) st ∧
    (ρ.Closes mode → ρ.durable → SealedLog F ρ (db.wrote r) st)

theorem Database.Tidy.wrote (h : db.Tidy ρ) (r : Record) : (db.wrote r).Tidy ρ :=
  ⟨h.advanced, h.detached, h.solo, h.writer, h.published, h.removable⟩

/-- The Mutable takes every record that is in the log. -/
theorem writeApply_acts {E : Status → Database → Store → Prop} {d : Database} (hord : ρ.ordered)
    (hinv : ContentsInv ρ db.contents) (htidy : db.Tidy ρ)
    (hseq : r.sequence = db.lastSequence + 1) :
    Acts q (Remains F σ.format ρ) (At d (Committed F ρ σ db r mode d)) (writeApply r)
      (fun _ => At (db.wrote r) (Wrote F ρ σ db r mode)) E := by
  refine Acts.know (fun _ h => h.members) (fun hd => ?_)
  subst hd
  refine Acts.know (fun _ h => h.valid) (fun hvalid => Acts.know (fun _ h => h.room hord)
    (fun hroom => ?_))
  have hadd : db.mutableTable.applyRecord db.format r = .ok (db.mutableTable.insert r) := by
    rw [MemTable.applyRecord_of_valid hvalid]
    refine MemTable.add_eq_ok hvalid (fun x hx _ => ?_) hroom
    have hle : x.sequence ≤ db.lastSequence := (hinv.order hord).last x hx
    rw [hseq]
    omega
  refine Acts.getDb_bind ?_
  dsimp only [Database.format] at hadd ⊢
  rw [hadd]
  exact Acts.modifyDb (fun st h => ⟨rfl, ⟨h.inv, htidy.wrote r⟩, h.sealed⟩)

/-! ## Freezing a full Mutable -/

/-- A write of the record makes the worker's Immutable of the Mutable. -/
structure Database.Freezes (db : Database) (r : Record) : Prop where
  background : db.options.backgroundMaintenance = true
  immutable : db.immutable = none
  full : db.options.memtableSizeLimit ≤ (db.mutableTable.insert r).approximateDataSize

theorem SealedLog.freeze (h : SealedLog F ρ db st) (hinv : ContentsInv ρ db.contents)
    (hd : ρ.durable) (himm : db.immutable = none) (hne : db.mutableTable.entries ≠ [])
    (hw : db.wal ≠ none) (hroom : db.mutableGeneration ≠ maxUInt64) :
    Everywhere (StoredSealed F ρ db.frozen.contents st.history) st := by
  intro δ hδ
  obtain ⟨T, I, D, M, hs, hseals⟩ := h δ hδ
  obtain ⟨w, hw⟩ := Option.ne_none_iff_exists'.mp hw
  rw [hw] at hs
  exact ⟨T, M, [], [], hs.freeze himm hne (hinv.published_of_mutable (ρ.durable_imp hd).2 hne) hroom,
    hseals⟩

/-- A Mutable with a log may be frozen. -/
theorem Database.freezable (himm : db.immutable = none) (hne : db.mutableTable.entries ≠ [])
    (hw : db.wal ≠ none) :
    ¬ (db.immutable.isSome = true ∨ db.mutableTable.isEmpty = true ∨ db.wal.isNone = true) := by
  rintro (h | h | h)
  · rw [himm] at h
    cases h
  · exact hne (MemTable.isEmpty_iff.mp h)
  · exact hw (Option.isNone_iff_eq_none.mp h)

/-- `FreezeMutable` with the next log. -/
theorem freezeOpen_acts (hord : ρ.ordered) (hns : ¬ ρ.single) (himm : db.immutable = none)
    (hne : db.mutableTable.entries ≠ []) (hw : db.wal ≠ none) :
    Acts q (Remains F σ.format ρ)
      (At db (fun st => Steady F ρ σ db st ∧ (ρ.durable → SealedLog F ρ db st)))
      (freezeMutable true) (fun _ => Steady F ρ σ) (Failed F ρ σ q) := by
  refine Acts.know (fun _ h => h.1.tidy) (fun htidy => ?_)
  refine Acts.getDb_bind (Acts.ite (fun hno => ?_) (fun _ => Acts.ite (fun hgen => ?_)
    (fun hgen => ?_)))
  · exact absurd hno (db.freezable himm hne hw)
  · exact Acts.fail (fun st h => ⟨h.1, fun _ => Or.inr (.generation hgen rfl)⟩)
  refine Acts.modifyDb_bind (Acts.ite (fun _ => ?_) (fun h => absurd rfl h))
  refine Acts.weaken _ (openMutableWal_acts.conseq (fun _ _ h => h) ?_ ?_) (fun st h => ?_)
  · rintro _ d st ⟨h, w, rfl, hstatus⟩
    refine ⟨h, fun hpl c hc hadv => ?_, fun _ hno => (by cases hno), fun hs => absurd hs hns,
      fun w' hw' => ?_, htidy.published, htidy.removable⟩
    · exact absurd (htidy.advanced hpl c hc hadv).2.1 hw
    · rw [← Option.some.inj hw']
      exact Or.inl (hstatus.resolve_left (fun hno => by cases hno))
  · rintro e d st ⟨rfl, h, hfault⟩
    exact ⟨⟨h, htidy.frozen hw⟩, fun _ => Or.inl hfault⟩
  · exact ⟨h.1.inv.freeze hord himm hne hw hgen,
      fun _ hd => (h.2 hd).freeze h.1.inv.contents hd himm hne hw hgen⟩

/-- What a write may change beside the data. -/
structure Rotated (σ : Scene) (d : Database) : Prop where
  foreground : σ.options.backgroundMaintenance = false → d.control = σ.control
  control : d.control = { σ.control with
    backgroundStatus := d.backgroundStatus
    backgroundWorkRequested := d.backgroundWorkRequested }

theorem scheduleBackgroundWork_acts {E : Status → Database → Store → Prop}
    (hbg : σ.options.backgroundMaintenance = true) :
    Acts q (Remains F σ.format ρ)
      (fun d st => Steady F ρ (σ.under d.control) d st ∧ Rotated σ d) scheduleBackgroundWork
      (fun _ d st => Steady F ρ (σ.under d.control) d st ∧ Rotated σ d) E := by
  refine Acts.fix (fun d => Acts.modifyDb (fun st ⟨h, hr⟩ => ?_))
  split
  · exact ⟨h, hr⟩
  · refine ⟨h.setControl rfl rfl id, fun hno => ?_, ?_⟩
    · rw [hbg] at hno
      cases hno
    · show { d.control with backgroundWorkRequested := true } = _
      rw [hr.control]

theorem writeRotate_acts (hF : F.Lawful) (hord : ρ.ordered) (hopen : σ.control.state ≠ .closed)
    (hfg : σ.options.backgroundMaintenance = false → σ.control.status.isOk = true)
    (hbg : σ.options.backgroundMaintenance = true → ¬ ρ.single) (hw : db.wal ≠ none)
    (hne : db.mutableTable.entries ≠ [])
    (hseal : σ.options.backgroundMaintenance = true → db.immutable = none →
      db.options.memtableSizeLimit ≤ db.mutableTable.approximateDataSize → ρ.durable →
      ρ.Closes mode) :
    Acts q (Remains F σ.format ρ)
      (At db (fun st => Steady F ρ σ db st ∧ (ρ.Closes mode → ρ.durable → SealedLog F ρ db st)))
      (writeRotate F)
      (fun _ d st => Steady F ρ (σ.under d.control) d st ∧ Rotated σ d) (Failed F ρ σ q) := by
  refine Acts.know (fun _ h => h.1.options_eq) (fun hopt => ?_)
  refine Acts.know (fun _ h => h.1.inv.control_eq) (fun hcontrol => ?_)
  have hsame : ∀ d st, Steady F ρ σ d st → Steady F ρ (σ.under d.control) d st ∧ Rotated σ d := by
    intro d st h
    have hk := h.inv.control_eq
    refine ⟨?_, fun _ => hk, ?_⟩
    · rw [hk]
      exact h
    · rw [hk, ← hk]
      rfl
  refine Acts.getDb_bind (Acts.ite (fun _ => ?_) (fun hfull => Acts.ite (fun hfore => ?_)
    (fun hback => Acts.ite (fun _ => ?_) (fun himm => ?_))))
  · exact Acts.pure (fun st h => hsame _ _ h.1)
  · rw [hopt] at hfore
    refine Acts.weaken _ ((flushLocked_acts hF hord hopen (hfg (by simpa using hfore))).conseq
      (fun _ _ h => h) (fun _ d st h => hsame d st h.1) (fun _ _ _ h => h)) (fun st h => h.1)
  · exact Acts.pure (fun st h => hsame _ _ h.1)
  · have hbg' : σ.options.backgroundMaintenance = true := by
      rw [← hopt]
      simpa using hback
    have himm' : db.immutable = none := by simpa using himm
    refine Acts.bind (S := fun _ => Steady F ρ σ) (Acts.attempt (Acts.weaken _
      ((freezeOpen_acts hord (hbg hbg') himm' hne hw).errors (fun _ _ _ h => h.1))
      (fun st h => ⟨h.1, fun hd => h.2 (hseal hbg' himm' (by omega) hd) hd⟩))) (fun result => ?_)
    cases result with
    | ok u => exact (scheduleBackgroundWork_acts hbg').pre (fun d st h => hsame d st h)
    | error e =>
      refine Acts.fix (fun d => Acts.modifyDb_bind ?_)
      refine (scheduleBackgroundWork_acts hbg').pre ?_
      rintro d' st ⟨rfl, h⟩
      have hk := h.inv.control_eq
      refine ⟨h.setControl rfl rfl id, fun hno => ?_, ?_⟩
      · rw [hbg'] at hno
        cases hno
      · rw [← hk]
        rfl

/-! ## `Write` -/

/-- Why a write is turned away after its wait. -/
inductive WriteDenied (σ : Scene) (db : Database) (e : Status) : Prop
  | closed (h : σ.control.state ≠ .running) (status : e = .closed "database is not running")
  | background (h : σ.options.backgroundMaintenance = true)
      (bad : σ.control.backgroundStatus.isOk = false) (status : e = σ.control.backgroundStatus)
  | sequence (h : σ.lastSequence = maxUInt64)
      (status : e = .invalidArgument "sequence number space is exhausted")
  | detached (h : db.wal = none) (status : e = .ioError "database has no active WAL")

/-- How a write fails. -/
inductive WriteFailed (F : StorageFormat) (ρ : Regime) (σ : Scene) (q : Prop) (db : Database)
    (r : Record) (mode : SyncMode) (e : Status) (d : Database) (st : Store) : Prop
  | denied (members : d = db) (steady : Steady F ρ σ d st) (status : WriteDenied σ db e)
  | spoiled (steady : Steady F ρ (σ.raise.stuck e) d st) {w : WalWriter} (h : db.wal = some w)
      (bad : w.status.isOk = false) (status : e = w.status)
  | refused (steady : Steady F ρ (σ.raise.stuck e) d st)
      (status : AppendRefused F db.format r e)
  | doubt (steady : Steady F ρ ((σ.doubt r).stuck e) d st) (status : e.code = .ioError)
  | rotated (steady : Steady F ρ (σ.wrote r mode) d st) (cause : Cause F ρ q d.contents e)

theorem Database.Tidy.doubt (h : db.Tidy ρ) (hw : db.wal = some w) (he : e.Outer) :
    (db.doubt w e).Tidy ρ := by
  have hne : db.wal ≠ none := by
    rw [hw]
    simp
  refine ⟨fun hpl c hc hadv => ?_, fun _ hno => (by cases hno), fun hs himm => ?_,
    fun w' hw' => ?_, h.published, h.removable⟩
  · exact absurd (h.advanced hpl c hc hadv).2.1 hne
  · exact absurd (h.solo hs himm) hne
  · rw [← Option.some.inj hw']
    exact Or.inr he

/-- A failed append leaves a sticky error. -/
theorem AppendFailed.failed {d : Database} (h : AppendFailed F ρ σ db w r e d st)
    (hw : db.wal = some w) (htidy : db.Tidy ρ) :
    WriteFailed F ρ σ q db r mode e { d with status := e } st := by
  have hraise : ({ db with lastSequence := db.lastSequence + 1 } : Database).Tidy ρ :=
    ⟨htidy.advanced, htidy.detached, htidy.solo, htidy.writer, htidy.published, htidy.removable⟩
  cases h with
  | spoiled hd hinv hbad he =>
    subst hd
    exact .spoiled (Steady.stuck ⟨hinv, hraise⟩ e) hw hbad he
  | refused hd hinv he =>
    subst hd
    exact .refused (Steady.stuck ⟨hinv, hraise⟩ e) he
  | doubt hd hinv he =>
    subst hd
    exact .doubt (Steady.stuck ⟨hinv, htidy.doubt hw (Or.inr he)⟩ e) he

theorem writeFinish_acts {type : ValueType} {key value : Bytes} (hF : F.Lawful)
    (hord : ρ.ordered) (hr : r = ⟨key, db.lastSequence + 1, type, value⟩)
    (hwrite : ρ.writes σ.history r mode)
    (hpl : ρ.planned → ∀ c, db.compaction = some c → c.versionPublished = true)
    (hfg : σ.options.backgroundMaintenance = false → σ.control.status.isOk = true)
    (hbg : σ.options.backgroundMaintenance = true → ¬ ρ.single)
    (hseal : db.Freezes r → ρ.durable → ρ.Closes mode) :
    Acts q (Remains F σ.format ρ) (At db (Steady F ρ σ db)) (writeFinish F type key value mode)
      (fun _ d st => Steady F ρ ((σ.wrote r mode).under d.control) d st ∧ Rotated (σ.wrote r mode) d)
      (WriteFailed F ρ σ q db r mode) := by
  refine Acts.know (fun _ h => h.options_eq) (fun hopt => Acts.know (fun _ h => h.inv.control_eq)
    (fun hcontrol => ?_))
  refine Acts.know (fun _ h => h.inv.contents) (fun hinv => Acts.know (fun _ h => h.tidy)
    (fun htidy => ?_))
  have hstate : db.state = σ.control.state := congrArg Control.state hcontrol
  have hback : db.backgroundStatus = σ.control.backgroundStatus :=
    congrArg Control.backgroundStatus hcontrol
  refine Acts.getDb_bind (Acts.ite (fun hno => ?_) (fun hrun => Acts.ite (fun hno => ?_)
    (fun _ => Acts.ite (fun hno => ?_) (fun hroom => ?_))))
  · refine Acts.fail (fun st h => .denied rfl h (.closed ?_ rfl))
    rw [← hstate]
    simpa [Database.isRunning] using hno
  · refine Acts.fail (fun st h => .denied rfl h (.background ?_ ?_ hback))
    · rw [← hopt]
      exact hno.1
    · rw [← hback]
      simpa using hno.2
  · refine Acts.fail (fun st h => .denied rfl h (.sequence ?_ rfl))
    rw [← hno, ← h.inv.scene]
    rfl
  have hopen : (σ.wrote r mode).control.state ≠ .closed := by
    show σ.control.state ≠ .closed
    have hrun : db.state = .running := by simpa [Database.isRunning] using hrun
    rw [← hstate, hrun]
    decide
  cases hw : db.wal with
  | none => exact Acts.fail (fun st h => .denied rfl h (.detached hw rfl))
  | some w =>
    have hne : (db.wrote r).wal ≠ none := by
      show db.wal ≠ none
      rw [hw]
      simp
    refine Acts.modifyDb_bind ?_
    rw [← hr]
    refine Acts.attempt_bind (Acts.weaken _ (walAppend_acts hF hw hroom (by rw [hr]) hwrite hpl)
      (fun st h => h.inv)) (fun _ => ?_) (fun e => ?_)
    · refine Acts.bind (Acts.fix (fun d => writeApply_acts hord hinv htidy (by rw [hr])))
        (fun _ => ?_)
      refine (writeRotate_acts (σ := σ.wrote r mode) hF hord hopen hfg hbg hne
        (MemTable.insert_ne_nil _ _) (fun hb himm hfull => ?_)).conseq (fun _ _ h => h)
        (fun _ _ _ h => h) (fun _ _ _ h => .rotated h.1 h.2)
      refine hseal ⟨?_, himm, hfull⟩
      rw [hopt]
      exact hb
    · refine Acts.fix (fun d => Acts.modifyDb_bind (Acts.fail (fun st h => ?_)))
      exact h.failed hw htidy

end

end MiniKV
