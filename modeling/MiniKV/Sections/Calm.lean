import MiniKV.Sections.Threads

/-!
# A worker that no `Compact` disturbs

Where nobody calls `Compact`, only the worker starts compactions. One that it
cannot finish leaves its error in the status of the worker, and that stops all
writes until a `Flush` has ended the compaction. An Immutable beside a log is
always one that the worker has been asked to flush, is flushing, or has failed on.
-/

namespace MiniKV

open Lib

/-- The members of a database whose worker is not disturbed. -/
structure Database.Calm (db : Database) : Prop where
  /-- A compaction is pending only after an error, and no work has been asked for. -/
  settled : db.compaction = none ∨
    (db.backgroundStatus.isOk = false ∧ db.backgroundWorkRequested = false)
  busy : db.backgroundWorkRunning = true →
    db.compaction = none ∧ db.backgroundWorkRequested = false
  /-- The flush of the Immutable is asked for, under way, or has failed. -/
  attended : db.immutable ≠ none → db.wal ≠ none → db.backgroundWorkRequested = true ∨
    db.backgroundWorkRunning = true ∨ db.backgroundStatus.isOk = false

/-- A write is synced, and nobody calls `Compact`. -/
def Call.Calm : Call → Prop
  | .put _ _ mode => mode = .sync
  | .delete _ mode => mode = .sync
  | .compact => False
  | _ => True

instance : DecidablePred Call.Calm
  | .put _ _ mode => inferInstanceAs (Decidable (mode = .sync))
  | .delete _ mode => inferInstanceAs (Decidable (mode = .sync))
  | .compact => inferInstanceAs (Decidable False)
  | .flush => inferInstanceAs (Decidable True)
  | .waitForBackgroundWork => inferInstanceAs (Decidable True)
  | .close => inferInstanceAs (Decidable True)

def Action.Calm : Action → Prop
  | .call c => c.Calm
  | _ => True

instance : DecidablePred Action.Calm
  | .call c => inferInstanceAs (Decidable c.Calm)
  | .resume _ => inferInstanceAs (Decidable True)
  | .worker => inferInstanceAs (Decidable True)

/-- So it is with the calls that wait. -/
def Parked.Calm : Parked → Prop
  | .write _ _ _ mode => mode = .sync
  | .compact => False
  | _ => True

structure Instance.Calm (inst : Instance) : Prop where
  parked : ∀ p ∈ inst.parked, p.Calm
  memtable : inst.db.options.memtableSizeLimit ≠ 0
  limit : inst.db.options.compactionOutputSizeLimit ≤ maxUInt64
  members : inst.db.options.backgroundMaintenance = true → inst.db.Calm

/-- The worker of a running database is at work, or has been asked to. -/
def Database.unrested (db : Database) : Bool :=
  db.options.backgroundMaintenance && db.isRunning &&
    (db.backgroundWorkRequested || db.backgroundWorkRunning)

/-- How many steps of the worker are left until it has ended a round, at most. -/
def Worker.ahead : Worker → Nat
  | .absent => 0
  | .idle => 8
  | .publishing _ _ stage => stage.remaining + 1

/-- From a store with a property, a step leaves an instance with another one. -/
def Leads (q : Prop) (R : Store → Prop) (m : Io (Returned × Instance)) (P : Instance → Prop) :
    Prop :=
  Prog.Triple (fun fs : Fs => Quiet q fs ∧ R fs.store) m (fun r _ => P r.2) (fun _ _ => True)
    (fun _ => True)

section

variable {F : StorageFormat} {ρ : Regime} {q : Prop} {σ : Scene} {inst : Instance} {db d : Database}
  {st : Store} {R : Store → Prop} {P : Instance → Prop}

/-! ## Rules -/

theorem Leads.pure {ret : Returned} {inst' : Instance} (h : P inst') :
    Leads q R (Pure.pure (ret, inst')) P := Prog.Triple.pure (fun _ _ => h)

theorem Leads.ite {c : Prop} [Decidable c] {m n : Io (Returned × Instance)}
    (ht : c → Leads q R m P) (hf : ¬ c → Leads q R n P) : Leads q R (if c then m else n) P :=
  Prog.Triple.ite ht hf

theorem Leads.know {φ : Prop} {m : Io (Returned × Instance)} (hφ : ∀ st, R st → φ)
    (h : φ → Leads q R m P) : Leads q R m P := fun fs hs => h (hφ _ hs.2) fs hs

theorem Turn.leads {m : Io (Returned × Instance)} {Q : Returned × Instance → Store → Prop}
    {K : Store → Prop} (h : Turn q R m Q K) (hP : ∀ r st, Q r st → P r.2) : Leads q R m P :=
  Prog.Triple.conseq h (fun _ hs => hs) (fun r _ hs => hP r _ hs.2) (fun _ _ _ => trivial)
    (fun _ _ => trivial)

/-- A section that ends a call and keeps what holds of the members. -/
theorem Preserves.leads {m : Act Unit} {I : Database → Prop} (h : Preserves I m) (hI : I inst.db)
    (hP : ∀ d, I d → P { inst with db := d }) : Leads q R (inst.complete m) P := by
  intro fs _
  have hm := h ⟨inst.db, fs⟩ hI
  unfold Instance.complete
  rw [Prog.bind_apply]
  unfold runSection
  match hrun : m ⟨inst.db, fs⟩ with
  | (.ok (), s) =>
    rw [hrun] at hm
    exact hP s.db hm
  | (.error e, s) =>
    rw [hrun] at hm
    exact hP s.db hm
  | (.killed, s) => trivial

theorem Leads.and {m : Io (Returned × Instance)} {P' : Instance → Prop} (h : Leads q R m P)
    (h' : Leads q R m P') : Leads q R m (fun i => P i ∧ P' i) :=
  Prog.Triple.conseq (Prog.Triple.and h h') (fun _ hs => ⟨hs, hs⟩) (fun _ _ hs => hs)
    (fun _ _ _ => trivial) (fun _ _ => trivial)

theorem Leads.conseq {m : Io (Returned × Instance)} {S : Store → Prop} {P' : Instance → Prop}
    (h : Leads q S m P') (hr : ∀ st, R st → S st) (hp : ∀ i, P' i → P i) : Leads q R m P :=
  Prog.Triple.conseq h (fun _ hs => ⟨hs.1, hr _ hs.2⟩) (fun _ _ hs => hp _ hs)
    (fun _ _ _ => trivial) (fun _ _ => trivial)

/-- A section that ends a call leaves the calls that wait and the worker alone. -/
theorem Leads.complete {m : Act Unit} (h : ∀ d, P { inst with db := d }) :
    Leads q R (inst.complete m) P :=
  Prog.Triple.bind (Prog.Triple.any _) (fun r => Prog.Triple.pure (fun _ _ => h r.2))

/-! ## Writes -/

/-- A write of a database with a worker. -/
theorem Database.Calm.writeFinish (h : inst.db.Calm)
    (hbg : inst.db.options.backgroundMaintenance = true)
    (hstop : inst.db.isRunning = true → inst.db.stopBackground = false)
    (hbusy : inst.db.backgroundWorkRunning = true → inst.db.immutable ≠ none)
    (type : ValueType) (key value : Bytes) (mode : SyncMode) :
    Leads q R (inst.complete (MiniKV.writeFinish F type key value mode)) (fun i => i.db.Calm) := by
  by_cases hrefused : inst.db.isRunning = false ∨
      (inst.db.options.backgroundMaintenance = true ∧ inst.db.backgroundStatus.isOk = false) ∨
      inst.db.wal = none
  · intro fs _
    obtain ⟨e, he⟩ := Instance.complete_refused (F := F) hrefused type key value mode fs
    rw [he]
    exact h
  · -- the status of the worker is OK, so no compaction is pending
    simp only [not_or, not_and, hbg, forall_const, Bool.not_eq_false] at hrefused
    obtain ⟨hrun, hok, hwal⟩ := hrefused
    have hnone : inst.db.compaction = none := by
      rcases h.settled with hnone | ⟨hbad, -⟩
      · exact hnone
      · rw [hok] at hbad
        cases hbad
    cases himm : inst.db.immutable with
    | some imm =>
      have hsome : inst.db.immutable.isSome = true := by rw [himm]; rfl
      apply Preserves.leads (writeFinish_beside_immutable type key value mode)
        ⟨hbg, hsome, hnone, rfl, rfl, rfl⟩
      intro d hd
      obtain ⟨-, -, hc, hreq, hrunning, hstatus⟩ := hd
      refine ⟨Or.inl hc, fun hyes => ⟨hc, ?_⟩, fun _ _ => ?_⟩
      · show d.backgroundWorkRequested = false
        rw [hreq]
        exact (h.busy (hrunning ▸ hyes)).2
      · show d.backgroundWorkRequested = true ∨ d.backgroundWorkRunning = true ∨
          d.backgroundStatus.isOk = false
        rw [hreq, hrunning, hstatus]
        exact h.attended (by rw [himm]; simp) hwal
    | none =>
      have hfree : inst.db.backgroundWorkRunning = false := by
        by_contra hno
        exact hbusy (by simpa using hno) himm
      apply Preserves.leads (writeFinish_asked type key value mode)
        ⟨hbg, hstop hrun, hnone, hfree, Or.inl himm⟩
      intro d hd
      refine ⟨Or.inl hd.compaction, fun hyes => ?_, fun hne _ => ?_⟩
      · have hno : d.backgroundWorkRunning = false := hd.free
        rw [show d.backgroundWorkRunning = true from hyes] at hno
        cases hno
      · exact Or.inl (hd.asked.resolve_left hne)

/-! ## Flushes -/

/-- What a flush leaves of the members: it has done its work, or the status of the worker and the
request are as before. -/
theorem flushResume_leads (hF : F.Lawful) (hord : ρ.ordered)
    (hfree : inst.db.backgroundWorkRunning = false) :
    Leads q (fun st => inst.Joint F ρ q st ∧ sceneOf inst.db st = σ)
      (inst.complete (flushResume F)) (fun i =>
        (i.db.compaction = none ∧ i.db.immutable = none ∧ i.db.backgroundWorkRunning = false) ∨
          i.db.control = inst.db.control) := by
  refine Leads.know (φ := σ.control.state ≠ .closed ∧ inst.db.control = σ.control) ?_ ?_
  · intro st h
    obtain ⟨h, rfl⟩ := h
    exact ⟨h.state, rfl⟩
  · intro hknown
    obtain ⟨hopen, hcontrol⟩ := hknown
    have hacts : Acts q _ (At inst.db _) _ _ _ := flushResume_keeps (ρ := ρ) hF hord hopen
    have hturn := hacts.finishes
    refine Leads.conseq (hturn.leads (fun r st hr => ?_)) (fun st h => h.1.of_scene h.2)
      (fun _ h => h)
    obtain ⟨d, hinst, hcase⟩ := hr
    rw [hinst]
    rcases hcase with ⟨-, d', hd', hflushed, rfl⟩ | ⟨e, -, hd, -⟩
    · have hrunning : d'.backgroundWorkRunning = inst.db.backgroundWorkRunning :=
        congrArg Control.backgroundWorkRunning (hd'.inv.control_eq.trans hcontrol.symm)
      exact Or.inl ⟨hflushed.compaction, hflushed.immutable, hrunning.trans hfree⟩
    · exact Or.inr (hd.inv.control_eq.trans hcontrol.symm)

theorem Database.Calm.flush (h : inst.db.Calm) (hF : F.Lawful) (hord : ρ.ordered)
    (hfree : inst.db.backgroundWorkRunning = false) :
    Leads q (fun st => inst.Joint F ρ q st ∧ sceneOf inst.db st = σ)
      (inst.complete (flushResume F)) (fun i => i.db.Calm) := by
  have hmembers : ∀ {I : Database → Prop}, Preserves I (flushResume F) →
      Leads q (fun st => inst.Joint F ρ q st ∧ sceneOf inst.db st = σ)
        (inst.complete (flushResume F)) (fun i => I inst.db → I i.db) := by
    intro I hI
    by_cases hdb : I inst.db
    · exact hI.leads hdb (fun _ hd _ => hd)
    · exact (flushResume_leads hF hord hfree).conseq (fun _ hs => hs) (fun _ _ hno => absurd hno hdb)
  have hnone := hmembers (flushResume_members (fun _ _ h => h) flushLocked_compaction)
  have hbare := hmembers
    (flushResume_members (fun _ _ h => ⟨h.compaction, h.wal⟩) flushLocked_bare)
  refine ((flushResume_leads hF hord hfree).and (hnone.and hbare)).conseq (fun _ hs => hs) ?_
  intro i hi
  obtain ⟨hdone | hcontrol, hnone, hbare⟩ := hi
  · obtain ⟨hc, himm, hrunning⟩ := hdone
    refine ⟨Or.inl hc, fun hyes => ?_, fun hne => absurd himm hne⟩
    rw [hrunning] at hyes
    cases hyes
  · have hstatus : i.db.backgroundStatus = inst.db.backgroundStatus :=
      congrArg Control.backgroundStatus hcontrol
    have hrequested : i.db.backgroundWorkRequested = inst.db.backgroundWorkRequested :=
      congrArg Control.backgroundWorkRequested hcontrol
    have hrunning : i.db.backgroundWorkRunning = inst.db.backgroundWorkRunning :=
      congrArg Control.backgroundWorkRunning hcontrol
    constructor
    case settled =>
      rw [hstatus, hrequested]
      exact h.settled.imp_left hnone
    case busy =>
      rw [hrunning, hfree]
      intro hno
      cases hno
    case attended =>
      intro himm hwal
      rw [hstatus, hrequested, hrunning]
      by_contra hno
      simp only [not_or, Bool.not_eq_true, Bool.not_eq_false] at hno
      obtain ⟨hreq, hrun, hok⟩ := hno
      -- nothing was asked for, so there was no Immutable beside a log, and there is none now
      have hempty : inst.db.compaction = none := by
        rcases h.settled with hc | ⟨hbad, -⟩
        · exact hc
        · rw [hok] at hbad
          cases hbad
      have hbefore : inst.db.immutable = none ∨ inst.db.wal = none := by
        by_contra hboth
        simp only [not_or] at hboth
        rcases h.attended hboth.1 hboth.2 with hyes | hyes | hyes
        · rw [hreq] at hyes
          cases hyes
        · rw [hrun] at hyes
          cases hyes
        · rw [hok] at hyes
          cases hyes
      rcases (hbare ⟨hempty, hbefore⟩).wal with hno | hno
      · exact himm hno
      · exact hwal hno

/-! ## The worker -/

/-- A round of the worker that began without a compaction ends without one or with an error, and
nothing has been asked for meanwhile. -/
theorem Steady.calm_round (hplain : F.Plain) (hplan : ρ.planned)
    (hlimit : σ.options.compactionOutputSizeLimit ≤ maxUInt64) (hd : Steady F ρ σ d st)
    (hnone : db.compaction = none) (hrequested : σ.control.backgroundWorkRequested = false)
    {status : Status} (h : (status = .ok ∧ WorkDone db d) ∨ WorkFailed F ρ σ q db status d) :
    Database.Calm { d with backgroundStatus := status, backgroundWorkRunning := false } ∧
      d.backgroundWorkRequested = false := by
  have hreq : d.backgroundWorkRequested = false :=
    (congrArg Control.backgroundWorkRequested hd.inv.control_eq).trans hrequested
  refine ⟨?_, hreq⟩
  rcases h with ⟨-, hdone⟩ | hfailed
  · exact ⟨Or.inl (hdone.compaction hnone), fun hno => Bool.noConfusion hno,
      fun hne => absurd hdone.immutable hne⟩
  · have hbad : status.isOk = false := by
      rcases hfailed hlimit with hcause | hne
      · rcases hcause.outer hplain hplan hd.inv.contents with hcode | hcode
        · simp [Status.isOk, hcode]
        · simp [Status.isOk, hcode]
      · exact absurd hnone hne
    exact ⟨Or.inr ⟨hbad, hreq⟩, fun hno => Bool.noConfusion hno,
      fun _ _ => Or.inr (Or.inr hbad)⟩

/-- Work is asked for only where no compaction is pending. -/
theorem Database.Calm.compaction_none (h : db.Calm) (hreq : db.backgroundWorkRequested = true) :
    db.compaction = none := by
  rcases h.settled with hnone | ⟨-, hno⟩
  · exact hnone
  · rw [hreq] at hno
    cases hno

/-- A write waits only beside a log. -/
theorem Steady.wal_of_blocked (h : Steady F ρ σ db st) (hd : ρ.durable)
    (hlimit : db.options.memtableSizeLimit ≠ 0) (hb : writeBlocked db = true) : db.wal ≠ none := by
  intro hwal
  obtain ⟨T, I, D, M, X, hstored⟩ := (h.inv.stored hd).current
  have hreplay : db.mutableTable = replayInto .empty (recordsOf M) := hstored.mutable
  rw [(hstored.detached hwal).1] at hreplay
  simp only [writeBlocked, decide_eq_true_eq] at hb
  have hsize := hb.2.2.1
  rw [hreplay] at hsize
  exact hlimit (Nat.le_zero.mp hsize)

/-- Every call of `PublishTable` brings the worker closer to the end. -/
theorem publishStep_remaining {o : FormatOptions} {g : Nat} {m : MemTable} {stage : PublishStage}
    (hstage : ∀ result, stage ≠ .done result) {A : Fs → Prop} :
    Prog.Triple A (publishStep F o g m stage)
      (fun stage' _ => stage'.remaining < stage.remaining) (fun _ _ => True) (fun _ => True) := by
  cases stage with
  | start =>
    refine Prog.Triple.ite (fun _ => Prog.Triple.pure (fun _ _ => by simp)) (fun _ => ?_)
    split
    · exact Prog.Triple.pure (fun _ _ => by simp)
    · refine Prog.Triple.bind (Prog.Triple.any _) (fun result => ?_)
      cases result with
      | error e => exact Prog.Triple.pure (fun _ _ => by simp)
      | ok file => exact Prog.Triple.pure (fun _ _ => by simp)
  | write file encoded =>
    refine Prog.Triple.bind (Prog.Triple.any _) (fun result => ?_)
    cases result with
    | error e => exact Prog.Triple.pure (fun _ _ => by simp)
    | ok u => exact Prog.Triple.pure (fun _ _ => by simp)
  | sync file =>
    refine Prog.Triple.bind (Prog.Triple.any _) (fun result => ?_)
    cases result with
    | error e => exact Prog.Triple.pure (fun _ _ => by simp)
    | ok u => exact Prog.Triple.pure (fun _ _ => by simp)
  | rename =>
    refine Prog.Triple.bind (Prog.Triple.any _) (fun result => ?_)
    cases result with
    | error e => exact Prog.Triple.pure (fun _ _ => by simp)
    | ok u => exact Prog.Triple.pure (fun _ _ => by simp)
  | syncDirectory =>
    refine Prog.Triple.bind (Prog.Triple.any _) (fun result => ?_)
    cases result with
    | error e => exact Prog.Triple.pure (fun _ _ => by simp)
    | ok u => exact Prog.Triple.pure (fun _ _ => by simp)
  | openReader =>
    exact Prog.Triple.bind (Prog.Triple.any _) (fun _ => Prog.Triple.pure (fun _ _ => by simp))
  | cleanup e =>
    exact Prog.Triple.bind (Prog.Triple.any _) (fun _ => Prog.Triple.pure (fun _ _ => by simp))
  | done result => exact absurd rfl (hstage result)

end

namespace Instance

section

variable {F : StorageFormat} {ρ : Regime} {q calm : Prop} {σ : Scene} {inst : Instance}
  {R : Store → Prop} {P : Instance → Prop}

/-- A step of the worker keeps the members calm, and brings it closer to its rest. -/
def Serves (inst i : Instance) : Prop :=
  i.db.Calm ∧
    (inst.db.unrested = true → i.db.unrested = true → i.worker.ahead < inst.worker.ahead)

theorem serves_of_rested {d : Database} {status : Status}
    (h : Database.Calm { d with backgroundStatus := status, backgroundWorkRunning := false } ∧
      d.backgroundWorkRequested = false) :
    inst.Serves { inst with
      db := { d with backgroundStatus := status, backgroundWorkRunning := false }
      worker := .idle } := by
  refine ⟨h.1, fun _ hb => ?_⟩
  simp [Database.unrested, h.2] at hb

/-- A round without an unlocked part. -/
theorem Calm.round (h : inst.Calm) (hF : F.Lawful) (hplain : F.Plain) (hd : ρ.durable)
    (hbg : inst.db.options.backgroundMaintenance = true)
    (hreq : inst.db.backgroundWorkRequested = true) :
    Leads q (fun st => inst.Joint F ρ q st ∧ sceneOf inst.db st = σ)
      (workerFinish { inst with db := begun inst.db } (backgroundWork F)) inst.Serves := by
  have hnone : (begun inst.db).compaction = none := (h.members hbg).compaction_none hreq
  refine Leads.know (φ := inst.db.state ≠ .closed ∧ inst.db.options = σ.options) ?_ ?_
  · intro st hst
    obtain ⟨hj, rfl⟩ := hst
    exact ⟨hj.state, rfl⟩
  · intro hknown
    obtain ⟨hstate, hopt⟩ := hknown
    have hwork : Acts q _ (At (begun inst.db) _) _ _ _ :=
      backgroundWork_acts (ρ := ρ) (σ := σ.under (begun inst.db).control) hF
        (ρ.durable_imp hd).1 hstate
    have hturn : Turn q _ (workerFinish { inst with db := begun inst.db } _) _ _ :=
      workerFinish_turn hwork
    refine Leads.conseq (hturn.leads (fun r st hr => ?_))
      (fun st hst => (hst.1.of_scene hst.2).setControl rfl rfl id) (fun _ hi => hi)
    obtain ⟨d, status, hs, hcase, rfl⟩ := hr
    have hlimit : (σ.under (begun inst.db).control).options.compactionOutputSizeLimit ≤
        maxUInt64 := by
      show σ.options.compactionOutputSizeLimit ≤ maxUInt64
      rw [← hopt]
      exact h.limit
    exact serves_of_rested (hs.calm_round hplain (ρ.durable_imp hd).2 hlimit hnone rfl hcase)

/-- A round that has published its table. -/
theorem Calm.published (h : inst.Calm) (hF : F.Lawful) (hplain : F.Plain) (hd : ρ.durable)
    {g : Nat} {m : MemTable} {result : Except Status SSTableReader}
    (hw : inst.worker = .publishing g m (.done result)) :
    Leads q (fun st => inst.Joint F ρ q st ∧ sceneOf inst.db st = σ)
      (inst.workerFinish (backgroundPublished F g result)) inst.Serves := by
  intro fs hs
  obtain ⟨hq, hj, hσ⟩ := hs
  have hopen : σ.control.state ≠ .closed := hσ ▸ hj.state
  have hworker := hj.worker
  rw [hw] at hworker
  cases hworker with
  | @publishing imm stage busy bg himm hun hnone hstage =>
    obtain ⟨hc, hreq⟩ := (h.members bg).busy busy
    have hwork := backgroundPublished_acts (q := q) hF (ρ.durable_imp hd).1 hopen himm hun hnone
      result
    refine (workerFinish_turn hwork).leads (fun r st hr => ?_) fs ⟨hq, hj.of_scene hσ, hstage⟩
    obtain ⟨d, status, hs, hcase, rfl⟩ := hr
    subst hσ
    exact serves_of_rested (hs.calm_round hplain (ρ.durable_imp hd).2 h.limit hc hreq hcase)

/-- A running database has not stopped its worker. -/
theorem Joint.not_stopped {st : Store} (h : inst.Joint F ρ q st)
    (hrun : inst.db.isRunning = true) : inst.db.stopBackground = false := by
  by_contra hstop
  have hclosing := h.stop.mp (by simpa using hstop)
  simp [Database.isRunning, hclosing] at hrun

/-- A write that waits has a worker that is at work or has been asked to. -/
theorem Calm.unrested_of_blocked (h : inst.Calm) {st : Store} (hj : inst.Joint F ρ q st)
    (hd : ρ.durable) (hb : writeBlocked inst.db = true) : inst.db.unrested = true := by
  have hwal := hj.steady.wal_of_blocked hd h.memtable hb
  simp only [writeBlocked, decide_eq_true_eq] at hb
  obtain ⟨hbg, himm, -, hok, hrun⟩ := hb
  rcases (h.members hbg).attended (Option.isSome_iff_ne_none.mp himm) hwal with hreq | hbusy | hbad
  · simp [Database.unrested, hbg, hrun, hreq]
  · simp [Database.unrested, hbg, hrun, hbusy]
  · rw [hok] at hbad
    cases hbad

theorem Calm.workerStep (h : inst.Calm) (hF : F.Lawful) (hplain : F.Plain) (hd : ρ.durable)
    (hbg : inst.db.options.backgroundMaintenance = true) :
    Leads q (fun st => inst.Joint F ρ q st ∧ sceneOf inst.db st = σ) (inst.workerStep F)
      inst.Serves := by
  have hcalm := h.members hbg
  refine Leads.know (fun st hst => Exists.intro st hst.1) (fun hknown => ?_)
  obtain ⟨st, hj⟩ := hknown
  have hworker := hj.worker
  unfold Instance.workerStep
  cases hw : inst.worker with
  | absent =>
    rw [hw] at hworker
    cases hworker with
    | absent _ left =>
      refine Leads.pure ⟨hcalm, fun hb => ?_⟩
      simp only [Database.unrested, Bool.and_eq_true] at hb
      rw [hj.not_stopped hb.1.2] at left
      cases left hbg
  | idle =>
    rw [hw] at hworker
    cases hworker with
    | idle free mode =>
      refine Leads.ite (fun _ => ?_) (fun _ => Leads.ite (fun hreq => ?_) (fun hreq => ?_))
      · refine Leads.pure ⟨hcalm, fun _ _ => ?_⟩
        rw [hw]
        exact Nat.zero_lt_succ 7
      · refine Leads.pure ⟨hcalm, fun hb => ?_⟩
        have hreq : inst.db.backgroundWorkRequested = false := by simpa using hreq
        simp [Database.unrested, hreq, free] at hb
      · have hreq : inst.db.backgroundWorkRequested = true := by simpa using hreq
        have hnone := hcalm.compaction_none hreq
        dsimp only
        split
        case h_2 himm => exact h.round hF hplain hd hbg hreq
        case h_1 imm himm =>
          refine Leads.ite (fun _ => ?_) (fun _ => h.round hF hplain hd hbg hreq)
          refine Leads.pure ⟨⟨Or.inl hnone, fun _ => ⟨hnone, rfl⟩, fun _ _ => Or.inr (Or.inl rfl)⟩,
            fun _ _ => ?_⟩
          rw [hw]
          exact Nat.lt_succ_self 7
  | publishing g m stage =>
    have hpublish : (∀ result, stage ≠ .done result) →
        Leads q (fun st => inst.Joint F ρ q st ∧ sceneOf inst.db st = σ)
          (do
            let stage ← publishStep F inst.db.format g m stage
            pure (none, { inst with worker := .publishing g m stage })) inst.Serves := by
      intro hstage
      apply Prog.Triple.bind (publishStep_remaining hstage)
      intro stage'
      refine Prog.Triple.pure (fun fs hlt => ⟨hcalm, fun _ _ => ?_⟩)
      rw [hw]
      exact Nat.succ_lt_succ hlt
    cases stage with
    | done result => exact h.published hF hplain hd hw
    | start => exact hpublish (by simp)
    | write file encoded => exact hpublish (by simp)
    | sync file => exact hpublish (by simp)
    | rename => exact hpublish (by simp)
    | syncDirectory => exact hpublish (by simp)
    | openReader => exact hpublish (by simp)
    | cleanup e => exact hpublish (by simp)

/-! ## The calls -/

/-- What a write that has entered leaves of the calls that wait. -/
theorem writeTurn_leads {type : ValueType} {key value : Bytes} {mode : SyncMode}
    (hpark : P (inst.park (.write type key value mode))) (hend : ∀ d, P { inst with db := d }) :
    Leads q R (inst.writeTurn F type key value mode) P :=
  Leads.ite (fun _ => Leads.pure hpark) (fun _ => Leads.complete hend)

theorem write_leads {type : ValueType} {key value : Bytes} {mode : SyncMode}
    (hpark : ∀ d, P ({ inst with db := d }.park (.write type key value mode)))
    (hend : ∀ d, P { inst with db := d }) :
    Leads q R (inst.write F type key value mode) P := by
  refine Leads.ite (fun _ => Leads.pure (hend inst.db)) (fun _ => ?_)
  apply Prog.Triple.bind (R := fun _ fs => Quiet False fs ∧ True)
    (Prog.Triple.post (Prog.Triple.any _) (fun _ _ _ => ⟨False.elim, trivial⟩))
  intro r
  obtain ⟨entered, d⟩ := r
  cases entered with
  | error e => exact Prog.Triple.pure (fun _ _ => hend d)
  | ok u => exact writeTurn_leads (q := False) (R := fun _ => True) (hpark d) hend

/-- A call leaves the worker alone, and where it is calm so are the calls that wait after it. -/
def Waits (inst : Instance) (calm : Prop) (i : Instance) : Prop :=
  i.worker = inst.worker ∧ ∀ p ∈ i.parked, p ∈ inst.parked ∨ (calm → p.Calm)

theorem waits_park (p : Parked) (hp : calm → p.Calm) (d : Database) :
    inst.Waits calm ({ inst with db := d }.park p) := by
  refine ⟨rfl, fun p' hmem => ?_⟩
  rcases List.mem_append.mp hmem with hmem | hmem
  · exact Or.inl hmem
  · rw [List.mem_singleton.mp hmem]
    exact Or.inr hp

theorem waits_self (d : Database) : inst.Waits calm { inst with db := d } :=
  ⟨rfl, fun _ hmem => Or.inl hmem⟩

theorem waits_unpark (position : Nat) (d : Database) :
    inst.Waits calm { inst.unpark position with db := d } :=
  ⟨rfl, fun _ hmem => Or.inl (List.mem_of_mem_eraseIdx hmem)⟩

theorem call_waits (c : Call) : Leads q R (inst.call F c) (inst.Waits c.Calm) := by
  cases c with
  | put key value mode => exact write_leads (waits_park (.write .value key value mode) id) waits_self
  | delete key mode => exact write_leads (waits_park (.write .deletion key [] mode) id) waits_self
  | flush =>
    refine Leads.ite (fun _ => Leads.pure (waits_self inst.db)) (fun _ => Leads.ite (fun _ => ?_)
      (fun _ => Leads.complete waits_self))
    exact Leads.pure (waits_park .flush id inst.db)
  | compact =>
    refine Leads.ite (fun _ => Leads.pure (waits_self inst.db)) (fun _ => Leads.ite (fun _ => ?_)
      (fun _ => Leads.complete waits_self))
    exact Leads.pure (waits_park .compact id inst.db)
  | waitForBackgroundWork =>
    refine Leads.ite (fun _ => Leads.pure (waits_self inst.db)) (fun _ => Leads.ite (fun _ => ?_)
      (fun _ => Leads.pure (waits_self inst.db)))
    exact Leads.pure (waits_park .waitForBackgroundWork id inst.db)
  | close =>
    unfold Instance.call
    cases hstate : inst.db.state with
    | closed => exact Leads.pure (waits_self inst.db)
    | closing => exact Leads.pure (waits_park .closeWait id inst.db)
    | running =>
      exact Prog.Triple.bind (Prog.Triple.any _)
        (fun r => Prog.Triple.pure (fun _ _ => waits_park .closeJoin id r.2))

theorem resume_waits (position : Nat) :
    Leads q R (inst.resume F position) (inst.Waits True) := by
  have hsame : Leads q R (pure (none, inst)) (inst.Waits True) := Leads.pure (waits_self inst.db)
  unfold Instance.resume
  cases hp : inst.parked[position]? with
  | none => exact hsame
  | some p =>
    have hmem := List.mem_of_getElem? hp
    cases p with
    | write type key value mode =>
      refine writeTurn_leads ⟨rfl, fun p' hmem' => ?_⟩ (waits_unpark position)
      rcases List.mem_append.mp hmem' with hmem' | hmem'
      · exact Or.inl (List.mem_of_mem_eraseIdx hmem')
      · rw [List.mem_singleton.mp hmem']
        exact Or.inl hmem
    | flush => exact Leads.ite (fun _ => hsame) (fun _ => Leads.complete (waits_unpark position))
    | compact => exact Leads.ite (fun _ => hsame) (fun _ => Leads.complete (waits_unpark position))
    | waitForBackgroundWork =>
      exact Leads.ite (fun _ => hsame) (fun _ => Leads.pure (waits_unpark position inst.db))
    | closeJoin =>
      cases inst.worker with
      | absent => exact Leads.complete (waits_unpark position)
      | idle => exact hsame
      | publishing g m stage => exact hsame
    | closeWait =>
      exact Leads.ite (fun _ => Leads.pure (waits_unpark position inst.db)) (fun _ => hsame)

/-- The worker leaves the calls that wait alone. -/
theorem workerStep_parked : Leads q R (inst.workerStep F) (fun i => i.parked = inst.parked) := by
  have hfinish : ∀ (db : Database) (work : Act Unit),
      Leads q R (workerFinish { inst with db := db } work) (fun i => i.parked = inst.parked) :=
    fun db work => Prog.Triple.bind (Prog.Triple.any _) (fun _ => Prog.Triple.pure (fun _ _ => rfl))
  unfold Instance.workerStep
  cases hw : inst.worker with
  | absent => exact Leads.pure rfl
  | idle =>
    refine Leads.ite (fun _ => Leads.pure rfl) (fun _ => Leads.ite (fun _ => Leads.pure rfl)
      (fun _ => ?_))
    dsimp only
    split
    · exact Leads.ite (fun _ => Leads.pure rfl) (fun _ => hfinish _ _)
    · exact hfinish _ _
  | publishing g m stage =>
    cases stage with
    | done result => exact hfinish inst.db _
    | _ => exact Prog.Triple.bind (Prog.Triple.any _) (fun _ => Prog.Triple.pure (fun _ _ => rfl))

/-- A write, from its wait on. -/
theorem Calm.writeTurn (h : inst.db.Calm) (hbg : inst.db.options.backgroundMaintenance = true)
    (type : ValueType) (key value : Bytes) (mode : SyncMode) :
    Leads q (fun st => inst.Joint F ρ q st) (inst.writeTurn F type key value mode)
      (fun i => i.db.Calm) := by
  refine Leads.ite (fun _ => Leads.pure h) (fun _ => ?_)
  refine Leads.know (fun st hst => Exists.intro st hst) (fun hknown => ?_)
  obtain ⟨st, hj⟩ := hknown
  apply h.writeFinish hbg
  · intro hrun
    by_contra hstop
    have hclosing := hj.stop.mp (by simpa using hstop)
    simp [Database.isRunning, hclosing] at hrun
  · intro hbusy
    have hworker := hj.worker
    generalize inst.worker = worker at hworker
    cases hworker with
    | absent free =>
      rw [free] at hbusy
      cases hbusy
    | idle free =>
      rw [free] at hbusy
      cases hbusy
    | publishing _ _ himm =>
      rw [himm]
      simp

theorem Calm.write (h : inst.db.Calm) (hbg : inst.db.options.backgroundMaintenance = true)
    (type : ValueType) (key value : Bytes) (mode : SyncMode) :
    Leads q (fun st => inst.Joint F ρ q st) (inst.write F type key value mode)
      (fun i => i.db.Calm) := by
  refine Leads.ite (fun _ => Leads.pure h) (fun _ fs hs => ?_)
  obtain ⟨result, hrun, -⟩ := runSection_writeEnter (F := F) hbg mode fs
  rw [Prog.bind_of_ok hrun]
  cases result with
  | error e => exact h
  | ok u => exact Calm.writeTurn h hbg type key value mode fs hs

theorem Calm.call (h : inst.db.Calm) (hF : F.Lawful) (hord : ρ.ordered)
    (hbg : inst.db.options.backgroundMaintenance = true) {c : Call} (hc : c.Calm) :
    Leads q (fun st => inst.Joint F ρ q st ∧ sceneOf inst.db st = σ) (inst.call F c)
      (fun i => i.db.Calm) := by
  have hwrite : ∀ type key value mode,
      Leads q (fun st => inst.Joint F ρ q st ∧ sceneOf inst.db st = σ)
        (inst.write F type key value mode) (fun i => i.db.Calm) :=
    fun type key value mode =>
      (Calm.write h hbg type key value mode).conseq (fun _ hst => hst.1) (fun _ hi => hi)
  cases c with
  | put key value mode => exact hwrite _ _ _ _
  | delete key mode => exact hwrite _ _ _ _
  | flush =>
    refine Leads.ite (fun _ => Leads.pure h) (fun _ => Leads.ite (fun _ => Leads.pure h)
      (fun hfree => ?_))
    exact h.flush hF hord (by simpa using hfree)
  | compact => exact hc.elim
  | waitForBackgroundWork =>
    exact Leads.ite (fun _ => Leads.pure h) (fun _ => Leads.ite (fun _ => Leads.pure h)
      (fun _ => Leads.pure h))
  | close =>
    unfold Instance.call
    cases hstate : inst.db.state with
    | closed => exact Leads.pure h
    | closing => exact Leads.pure h
    | running =>
      intro fs _
      exact ⟨h.settled, h.busy, h.attended⟩

theorem Calm.resume (h : inst.db.Calm) (hF : F.Lawful) (hord : ρ.ordered)
    (hbg : inst.db.options.backgroundMaintenance = true) (hparked : ∀ p ∈ inst.parked, p.Calm)
    (position : Nat) :
    Leads q (fun st => inst.Joint F ρ q st ∧ sceneOf inst.db st = σ) (inst.resume F position)
      (fun i => i.db.state ≠ .closed → i.db.Calm) := by
  have hsame : Leads q (fun st => inst.Joint F ρ q st ∧ sceneOf inst.db st = σ) (pure (none, inst))
      (fun i => i.db.state ≠ .closed → i.db.Calm) := Leads.pure (fun _ => h)
  unfold Instance.resume
  cases hp : inst.parked[position]? with
  | none => exact hsame
  | some p =>
    have hmem := hparked p (List.mem_of_getElem? hp)
    cases p with
    | write type key value mode =>
      have hunparked : (inst.unpark position).db.Calm := h
      exact (Calm.writeTurn hunparked hbg type key value mode).conseq
        (fun _ hst => hst.1.unpark hp (by simp)) (fun _ hi _ => hi)
    | flush =>
      refine Leads.ite (fun _ => hsame) (fun hfree => ?_)
      have hunparked : (inst.unpark position).db.Calm := h
      have hfree : inst.db.backgroundWorkRunning = false := by simpa using hfree
      exact (hunparked.flush hF hord hfree).conseq
        (fun _ hst => ⟨hst.1.unpark hp (by simp), hst.2⟩) (fun _ hi _ => hi)
    | compact => exact hmem.elim
    | waitForBackgroundWork =>
      exact Leads.ite (fun _ => hsame) (fun _ => Leads.pure (fun _ => h))
    | closeJoin =>
      cases hw : inst.worker with
      | idle => exact hsame
      | publishing g m stage => exact hsame
      | absent =>
        -- the database is closed
        refine Leads.know (φ := σ.control.state ≠ .closed) (fun _ hst => hst.2 ▸ hst.1.state)
          (fun hopen => ?_)
        have hacts : Acts q _ (At (inst.unpark position).db _) _ _ _ :=
          closeFinish_ends (ρ := ρ) hF hord hopen
        have hturn := hacts.finishes
        refine Leads.conseq (hturn.leads (fun r st hr => ?_)) (fun _ hst => hst.1.of_scene hst.2)
          (fun _ hi => hi)
        obtain ⟨d, hinst, hcase⟩ := hr
        rw [hinst]
        intro hne
        rcases hcase with ⟨-, d', status, -, rfl, -⟩ | ⟨e, -, d', -, rfl, -⟩
        · exact absurd rfl hne
        · exact absurd rfl hne
    | closeWait => exact Leads.ite (fun _ => Leads.pure (fun _ => h)) (fun _ => hsame)

/-! ## Every step -/

/-- The writes of a calm instance keep to the protocol of the logs. -/
theorem Calm.takes (h : inst.Calm) {a : Action} (ha : a.Calm) {H : List Label}
    (hwrites : ∀ r mode, ρ.writes H r mode) (hsingle : ¬ ρ.single) {r : Record} {mode : SyncMode}
    (hc : inst.carries a = some (r, mode)) : ρ.Takes inst.db H r mode := by
  have hsync : mode = .sync := by
    cases a with
    | worker => cases hc
    | call c =>
      cases c with
      | put key value m =>
        cases hc
        exact ha
      | delete key m =>
        cases hc
        exact ha
      | _ => cases hc
    | resume position =>
      simp only [Instance.carries] at hc
      cases hp : inst.parked[position]? with
      | none =>
        rw [hp] at hc
        cases hc
      | some p =>
        have hmem := h.parked p (List.mem_of_getElem? hp)
        rw [hp] at hc
        cases p with
        | write type key value m =>
          cases hc
          exact hmem
        | _ => cases hc
  refine ⟨hwrites r mode, fun _ hbg hok c hc' => ?_, fun _ _ => ⟨fun _ => hsync, hsingle⟩⟩
  rcases (h.members hbg).settled with hnone | ⟨hbad, -⟩
  · rw [hnone] at hc'
    cases hc'
  · rw [hok] at hbad
    cases hbad

/-- What a step leaves of a calm instance, unless it closes it. A step of the worker brings it
closer to its rest, and no other step takes it farther from it. -/
def Nears (inst : Instance) (a : Action) (i : Instance) : Prop :=
  i.db.state ≠ .closed → i.Calm ∧
    (inst.db.unrested = true → i.db.unrested = true →
      i.worker.ahead + (if a = .worker then 1 else 0) ≤ inst.worker.ahead)

/-- A call, or a call that wakes up. -/
theorem Calm.nears (h : inst.Calm) {a : Action} (ha : a ≠ .worker)
    {m : Io (Returned × Instance)} (hc : calm) (hwaits : Leads q R m (inst.Waits calm))
    (hoptions : Leads q R m (fun i => i.db.state ≠ .closed → i.db.options = inst.db.options))
    (hcalm : Leads q R m (fun i => i.db.state ≠ .closed →
      inst.db.options.backgroundMaintenance = true → i.db.Calm)) :
    Leads q R m (inst.Nears a) := by
  refine (hwaits.and (hoptions.and hcalm)).conseq (fun _ hs => hs) (fun i hi hopen => ?_)
  obtain ⟨⟨hworker, hparked⟩, hopt, hmembers⟩ := hi
  have hopt := hopt hopen
  refine ⟨⟨fun p hp => ?_, ?_, ?_, fun hbg => hmembers hopen (hopt ▸ hbg)⟩, fun _ _ => ?_⟩
  · rcases hparked p hp with hold | hnew
    · exact h.parked p hold
    · exact hnew hc
  · rw [hopt]
    exact h.memtable
  · rw [hopt]
    exact h.limit
  · rw [hworker, if_neg ha]
    exact Nat.le_refl _

theorem Calm.step (h : inst.Calm) (hF : F.Lawful) (hP : F.Portable) (hplain : F.Plain)
    (hd : ρ.durable) {a : Action} (ha : a.Calm)
    (htakes : ∀ r mode, inst.carries a = some (r, mode) → ρ.Takes inst.db σ.history r mode) :
    Leads q (fun st => inst.Joint F ρ q st ∧ sceneOf inst.db st = σ) (inst.step F a)
      (inst.Nears a) := by
  have hord := (ρ.durable_imp hd).1
  have hoptions : Leads q (fun st => inst.Joint F ρ q st ∧ sceneOf inst.db st = σ) (inst.step F a)
      (fun i => i.db.state ≠ .closed → i.db.options = inst.db.options) := by
    refine Leads.know (φ := σ.options = inst.db.options)
      (fun st hst => (congrArg Scene.options hst.2).symm) (fun hσ => ?_)
    refine (Joint.step hF hP hord a htakes).leads (fun r st hr hopen => ?_)
    cases hr with
    | on _ evolves => exact evolves.options_eq.trans hσ
    | closed _ _ ended => exact absurd (congrArg Database.state ended) hopen
  -- without a worker nothing is asked of the members
  have hforeground : inst.db.options.backgroundMaintenance = false → ∀ m,
      Leads q (fun st => inst.Joint F ρ q st ∧ sceneOf inst.db st = σ) m
        (fun i => i.db.state ≠ .closed → inst.db.options.backgroundMaintenance = true →
          i.db.Calm) := by
    intro hfg m
    refine Prog.Triple.post (Prog.Triple.any m) (fun r _ _ _ hbg => ?_)
    rw [hfg] at hbg
    cases hbg
  cases a with
  | call c =>
    refine h.nears (by simp) ha (call_waits c) hoptions ?_
    cases hbg : inst.db.options.backgroundMaintenance with
    | false => exact hbg ▸ hforeground hbg _
    | true =>
      exact (Calm.call (h.members hbg) hF hord hbg ha).conseq (fun _ hs => hs) (fun _ hi _ _ => hi)
  | resume position =>
    refine h.nears (by simp) trivial (resume_waits position) hoptions ?_
    cases hbg : inst.db.options.backgroundMaintenance with
    | false => exact hbg ▸ hforeground hbg _
    | true =>
      exact (Calm.resume (h.members hbg) hF hord hbg h.parked position).conseq (fun _ hs => hs)
        (fun _ hi hopen _ => hi hopen)
  | worker =>
    have hserves : Leads q (fun st => inst.Joint F ρ q st ∧ sceneOf inst.db st = σ)
        (inst.workerStep F) (fun i => inst.db.options.backgroundMaintenance = true →
          inst.Serves i) := by
      cases hbg : inst.db.options.backgroundMaintenance with
      | true =>
        exact (h.workerStep hF hplain hd hbg).conseq (fun _ hs => hs) (fun _ hi _ => hi)
      | false =>
        refine Prog.Triple.post (Prog.Triple.any _) (fun r _ _ hno => ?_)
        cases hno
    refine (workerStep_parked.and (hoptions.and hserves)).conseq (fun _ hs => hs)
      (fun i hi hopen => ?_)
    obtain ⟨hparked, hopt, hserved⟩ := hi
    have hopt := hopt hopen
    refine ⟨⟨?_, ?_, ?_, fun hbg => (hserved (hopt ▸ hbg)).1⟩, fun hb hb' => ?_⟩
    · rw [hparked]
      exact h.parked
    · rw [hopt]
      exact h.memtable
    · rw [hopt]
      exact h.limit
    · rw [if_pos rfl]
      have hbg : inst.db.options.backgroundMaintenance = true := by
        simp only [Database.unrested, Bool.and_eq_true] at hb
        exact hb.1.1
      exact (hserved hbg).2 hb hb'

end

end Instance

end MiniKV
