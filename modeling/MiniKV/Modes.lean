import MiniKV.Runs
import MiniKV.Sections.Threads

/-!
# Runs of a directory in both modes

The directory may be opened with a worker or without one, in any order. `Held`
holds in every state of a run whose steps keep to the protocol of the log: no
write is made beside a compaction that waits, a log that is frozen is synced, and
no `Flush` or `Compact` wakes up in a database whose `Close` has failed.
-/

namespace MiniKV

open Lib

/-! ## Closed instances -/

/-- There is nothing left to write, as after every `Close` that returns OK. -/
def Database.Done (db : Database) : Prop :=
  db.compaction.isNone ∧ db.immutable.isNone ∧ db.mutableTable.isEmpty ∧ db.wal.isNone

instance (db : Database) : Decidable db.Done := inferInstanceAs (Decidable (_ ∧ _ ∧ _ ∧ _))

/-- A closed instance. -/
structure Instance.Rests (inst : Instance) : Prop where
  worker : inst.worker = .absent
  closed : inst.db.state = .closed
  joined : ∀ p ∈ inst.parked, p ≠ .closeJoin

/-- A `Flush` or `Compact` wakes up in a database that has something left to write. -/
def Instance.wakes (inst : Instance) : Action → Bool
  | .resume position => (decide (inst.parked[position]? = some .flush) ||
      decide (inst.parked[position]? = some .compact)) && !decide inst.db.Done
  | _ => false

/-- Two databases that differ in the status of the worker at most. -/
def Database.Same (db d : Database) : Prop := ∃ status, d = { db with backgroundStatus := status }

section

variable {F : StorageFormat} {inst : Instance}

theorem Database.Same.refl (db : Database) : db.Same db := ⟨db.backgroundStatus, rfl⟩

theorem Instance.Rests.unpark (h : inst.Rests) (position : Nat) : (inst.unpark position).Rests :=
  ⟨h.worker, h.closed, fun p hp => h.joined p (List.mem_of_mem_eraseIdx hp)⟩

theorem Instance.Rests.same {d : Database} (h : inst.Rests) (hd : inst.db.Same d) :
    Instance.Rests { inst with db := d } := by
  obtain ⟨status, rfl⟩ := hd
  exact ⟨h.worker, h.closed, h.joined⟩

/-- A `Flush` that wakes up in a database with nothing left to write. -/
theorem runSection_flushResume_done {db : Database} (h : db.Done) (fs : Fs) :
    ∃ result d, runSection db (flushResume F) fs = (.ok (result, d), fs) ∧ db.Same d := by
  obtain ⟨hc, himm, hmut, -⟩ := h
  have hc : db.compaction = none := Option.isNone_iff_eq_none.mp hc
  have himm : db.immutable = none := Option.isNone_iff_eq_none.mp himm
  by_cases hok : db.status.isOk = true
  · have hflush : flushLocked F ⟨db, fs⟩ = (.ok (), ⟨db, fs⟩) := by
      unfold flushLocked
      rw [Prog.bind_of_ok (show getDb ⟨db, fs⟩ = (.ok db, ⟨db, fs⟩) from rfl)]
      rw [if_neg (by simp [hok]), Prog.bind_of_ok (continueCompaction_none hc fs)]
      rw [Prog.bind_of_ok (show getDb ⟨db, fs⟩ = (.ok db, ⟨db, fs⟩) from rfl)]
      simp [himm, hmut, Pure.pure, Prog.pure]
    refine ⟨.ok (), { db with backgroundStatus := .ok }, ?_, .ok, rfl⟩
    unfold runSection flushResume
    simp [Prog.bind_apply, Prog.attempt, hflush, modifyDb, Prog.modify]
  · have hflush : flushLocked F ⟨db, fs⟩ = (.error db.status, ⟨db, fs⟩) := by
      unfold flushLocked
      simp [Prog.bind_apply, getDb, hok, Prog.fail]
    refine ⟨.error db.status, db, ?_, .refl db⟩
    unfold runSection flushResume
    simp [Prog.bind_apply, Prog.attempt, hflush, Prog.fail]

/-- A `Compact` that wakes up in such a database is refused. -/
theorem runSection_compactResume_done {db : Database} (h : db.Done) (fs : Fs) :
    ∃ result, runSection db (compactResume F) fs = (.ok (result, db), fs) := by
  obtain ⟨hc, himm, hmut, hwal⟩ := h
  have hc : db.compaction = none := Option.isNone_iff_eq_none.mp hc
  have himm : db.immutable = none := Option.isNone_iff_eq_none.mp himm
  have hwal : db.wal = none := Option.isNone_iff_eq_none.mp hwal
  have hfail : ∃ e, compactLocked F ⟨db, fs⟩ = (.error e, ⟨db, fs⟩) := by
    unfold compactLocked
    by_cases hok : db.status.isOk = true
    · simp [Prog.bind_apply, getDb, hok, hc, himm, hmut, hwal, Prog.fail]
    · simp [Prog.bind_apply, getDb, hok, Prog.fail]
  obtain ⟨e, hfail⟩ := hfail
  refine ⟨.error e, ?_⟩
  unfold runSection compactResume
  simp [Prog.bind_apply, Prog.attempt, hfail, Prog.fail]

theorem runSection_closed {m : Act Unit} {db : Database} (fs : Fs)
    (hm : m ⟨db, fs⟩ = (.error (.closed "database is not running"), ⟨db, fs⟩)) :
    runSection db m fs = (.ok (.error (.closed "database is not running"), db), fs) := by
  unfold runSection
  rw [hm]

/-- What a step of a closed instance leaves: no file is touched, and at most the status of the
worker is cleared. -/
def Instance.Unmoved (inst : Instance) (m : Io (Returned × Instance)) (fs : Fs) : Prop :=
  ∃ ret inst', m fs = (.ok (ret, inst'), fs) ∧ inst'.Rests ∧ inst.db.Same inst'.db

theorem Instance.Rests.unmoved (h : inst.Rests) (ret : Returned) (fs : Fs) :
    inst.Unmoved (pure (ret, inst)) fs := ⟨ret, inst, rfl, h, .refl inst.db⟩

theorem Instance.Rests.answers (h : inst.Rests) (position : Nat) (status : Status) (fs : Fs) :
    inst.Unmoved ((inst.unpark position).answer status) fs :=
  ⟨_, inst.unpark position, rfl, h.unpark position, .refl inst.db⟩

/-- A section that wakes up and leaves the files alone. -/
theorem Instance.Rests.completes (h : inst.Rests) (position : Nat) {m : Act Unit} {fs : Fs}
    (hm : ∃ result d, runSection inst.db m fs = (.ok (result, d), fs) ∧ inst.db.Same d) :
    inst.Unmoved ((inst.unpark position).complete m) fs := by
  obtain ⟨result, d, hrun, hd⟩ := hm
  exact ⟨some result, { inst.unpark position with db := d }, Prog.bind_of_ok hrun,
    (h.unpark position).same hd, hd⟩

/-- A write to a closed instance is refused. -/
theorem Instance.write_closed (hclosed : inst.db.state = .closed) (type : ValueType)
    (key value : Bytes) (mode : SyncMode) (fs : Fs) :
    ∃ e, inst.write F type key value mode fs = (.ok (some (.error e), inst), fs) := by
  have hrun : inst.db.isRunning = false := by simp [Database.isRunning, hclosed]
  unfold Instance.write
  dsimp only
  split
  case isTrue hbad =>
    exact ⟨_, by rw [Instance.answer, if_neg (by simpa using hbad)]; rfl⟩
  case isFalse =>
    have henter : runSection inst.db (writeEnter F mode) fs =
        (.ok (.error (.closed "database is not running"), inst.db), fs) := by
      apply runSection_closed
      unfold writeEnter
      simp [Prog.bind_apply, getDb, hrun, Prog.fail]
    exact ⟨_, Prog.bind_of_ok henter⟩

/-- Every call on a closed instance is answered at once, and all but `Close` are refused. -/
theorem Instance.call_closed (hclosed : inst.db.state = .closed) {c : Call} (hc : c ≠ .close)
    (fs : Fs) : ∃ e, inst.call F c fs = (.ok (some (.error e), inst), fs) := by
  have hrun : inst.db.isRunning = false := by simp [Database.isRunning, hclosed]
  unfold Instance.call
  cases c with
  | put key value mode => exact write_closed hclosed _ _ _ _ fs
  | delete key mode => exact write_closed hclosed _ _ _ _ fs
  | flush =>
    dsimp only
    rw [hrun]
    exact ⟨closedStatus, rfl⟩
  | compact =>
    dsimp only
    rw [hrun]
    exact ⟨closedStatus, rfl⟩
  | waitForBackgroundWork =>
    dsimp only
    rw [hrun]
    exact ⟨closedStatus, rfl⟩
  | close => exact absurd rfl hc

theorem Instance.Rests.call (h : inst.Rests) (c : Call) (fs : Fs) :
    inst.Unmoved (inst.call F c) fs := by
  by_cases hc : c = .close
  · rw [hc]
    unfold Instance.call
    dsimp only
    rw [h.closed]
    exact h.unmoved _ fs
  · obtain ⟨e, hcall⟩ := call_closed (F := F) h.closed hc fs
    exact ⟨_, inst, hcall, h, .refl inst.db⟩

theorem Instance.Rests.resume (h : inst.Rests) {position : Nat}
    (hw : inst.wakes (.resume position) = false) (fs : Fs) :
    inst.Unmoved (inst.resume F position) fs := by
  have hrun : inst.db.isRunning = false := by simp [Database.isRunning, h.closed]
  unfold Instance.resume
  cases hp : inst.parked[position]? with
  | none => exact h.unmoved none fs
  | some p =>
    have hmem := List.mem_of_getElem? hp
    cases p with
    | write type key value mode =>
      have hfree : writeBlocked (inst.unpark position).db = false := by
        show writeBlocked inst.db = false
        simp [writeBlocked, hrun]
      dsimp only
      unfold Instance.writeTurn
      rw [hfree]
      apply h.completes
      refine ⟨_, inst.db, runSection_closed fs ?_, .refl inst.db⟩
      unfold writeFinish
      simp [Prog.bind_apply, getDb, hrun, Prog.fail]
    | flush =>
      dsimp only
      split
      · exact h.unmoved none fs
      · have hdone : inst.db.Done := by simpa [Instance.wakes, hp] using hw
        exact h.completes position (runSection_flushResume_done hdone fs)
    | compact =>
      dsimp only
      split
      · exact h.unmoved none fs
      · have hdone : inst.db.Done := by simpa [Instance.wakes, hp] using hw
        obtain ⟨result, hresult⟩ := runSection_compactResume_done (F := F) hdone fs
        exact h.completes position ⟨result, inst.db, hresult, .refl inst.db⟩
    | waitForBackgroundWork =>
      dsimp only
      split
      · exact h.unmoved none fs
      · exact h.answers position _ fs
    | closeJoin => exact absurd rfl (h.joined _ hmem)
    | closeWait =>
      dsimp only
      rw [if_pos h.closed]
      exact h.answers position _ fs

/-- A closed instance touches no file, unless a call wakes up that has something to write. -/
theorem Instance.Rests.step (h : inst.Rests) {a : Action} (hw : inst.wakes a = false) (fs : Fs) :
    inst.Unmoved (inst.step F a) fs := by
  cases a with
  | call c => exact h.call c fs
  | resume position => exact h.resume hw fs
  | worker =>
    unfold Instance.step Instance.workerStep
    rw [h.worker]
    exact h.unmoved none fs

end

/-! ## Runs that keep to the protocol -/

/-- A step that keeps to the protocol of the logs. -/
def Regime.Allows (ρ : Regime) (w : World) : WorldEvent → Prop
  | .openDatabase o _ =>
    ρ.formats o.toFormatOptions ∧ (o.backgroundMaintenance = true → ¬ ρ.single)
  | .act a _ => ∀ inst, w.current = some inst →
    ∀ r mode, inst.carries a = some (r, mode) → ρ.Takes inst.db w.store.history r mode
  | .actClosed position a _ => ∀ inst, w.closed[position]? = some inst → inst.wakes a = false
  | .crash _ _ => ρ.crashes
  | _ => True

/-- Every step of a run satisfies a condition in the state it is taken in. -/
def World.Along (F : StorageFormat) (P : World → WorldEvent → Prop) :
    World → List WorldEvent → Prop
  | _, [] => True
  | w, e :: es => P w e ∧ World.Along F P (w.step F e) es

/-- What holds in every state of such a run. -/
structure Held (F : StorageFormat) (ρ : Regime) (w : World) : Prop where
  kept : w.current = none → Kept F ρ.toUsage w.store
  joint : ∀ inst, w.current = some inst → inst.Joint F ρ False w.store
  closed : ∀ inst ∈ w.closed, inst.Rests

section

variable {F : StorageFormat} {ρ : Regime} {w : World} {inst : Instance}

/-- What every step keeps holds after a run. -/
theorem World.Along.keeps {Φ : World → Prop} {P : World → WorldEvent → Prop}
    (hstep : ∀ w e, P w e → Φ w → Φ (w.step F e)) {es : List WorldEvent}
    (hes : World.Along F P w es) (h : Φ w) : Φ (w.run F es) := by
  induction es generalizing w with
  | nil => exact h
  | cons e es ih => exact ih hes.2 (hstep w e hes.1 h)

theorem Held.idle (hk : Kept F ρ.toUsage w.store) (hc : w.current = none)
    (hcl : ∀ inst ∈ w.closed, inst.Rests) : Held F ρ w := by
  refine ⟨fun _ => hk, fun inst hi => ?_, hcl⟩
  rw [hc] at hi
  cases hi

theorem Held.running (h : inst.Joint F ρ False w.store) (hc : w.current = some inst)
    (hcl : ∀ inst ∈ w.closed, inst.Rests) : Held F ρ w := by
  refine ⟨fun hno => ?_, fun i hi => ?_, hcl⟩
  · rw [hc] at hno
    cases hno
  · rw [hc] at hi
    rw [← Option.some.inj hi]
    exact h

theorem Held.empty {o : FormatOptions} (ho : ρ.formats o) (hρ : ρ.origin [] []) :
    Held F ρ World.empty :=
  .idle (kept_empty ho hρ) rfl (fun _ hi => absurd hi List.not_mem_nil)

theorem Held.kept' (h : Held F ρ w) (hd : ρ.durable) : Kept F ρ.toUsage w.store := by
  cases hc : w.current with
  | none => exact h.kept hc
  | some inst => exact (h.joint inst hc).steady.kept hd

/-! ## Opening -/

theorem Opened.joint {q : Prop} {H : List Label} {o₀ : FormatOptions} {o : Options} {v : Version}
    {ts : List SSTableReader} {T I M : List Entry} {db : Database} {st : Store}
    (h : Opened F ρ.toUsage H o₀ o v ts T I M db st) (hs : Steady F ρ (sceneOf db st) db st)
    (hmodes : o.backgroundMaintenance = true → ¬ ρ.single) :
    (Instance.ofDatabase db).Joint F ρ q st := by
  obtain ⟨r, i, -, -, hdb⟩ := h.members
  have hopt : db.options = o := by rw [hdb]; rfl
  have hrun : db.backgroundWorkRunning = false := by rw [hdb]; rfl
  have hstate : db.state = .running := h.state.1
  have hstop : db.stopBackground = false := by rw [hdb]; rfl
  constructor
  case steady => exact hs
  case worker =>
    show (if db.options.backgroundMaintenance then Worker.idle else Worker.absent).Attends F q db st
    cases hbg : db.options.backgroundMaintenance with
    | true => exact .idle hrun hbg
    | false =>
      refine .absent hrun (fun hyes => ?_)
      rw [hbg] at hyes
      cases hyes
  case state =>
    show db.state ≠ .closed
    rw [hstate]
    decide
  case stop =>
    show db.stopBackground = true ↔ db.state = .closing
    rw [hstop, hstate]
    decide
  case joins =>
    show 0 = if db.state = .closing then 1 else 0
    rw [hstate]
    rfl
  case writers => exact fun _ _ _ _ _ hmem => absurd hmem List.not_mem_nil
  case modes =>
    show db.options.backgroundMaintenance = true → ¬ ρ.single
    rw [hopt]
    exact hmodes

theorem Held.opens (hF : F.Lawful) (hP : F.Portable) (ht : ¬ ρ.traced) (h : Held F ρ w)
    (hc : w.current = none) {o : Options} (ho : ρ.formats o.toFormatOptions)
    (hmodes : o.backgroundMaintenance = true → ¬ ρ.single) (script : List Outcome) :
    Held F ρ (w.step F (.openDatabase o script)) := by
  have hopen := openWithEnvironment_kept (q := False) (H := w.store.history) hF hP ho
    { store := w.store, script := script } ⟨nofun, h.kept hc, rfl⟩
  unfold World.step
  rw [hc]
  dsimp only
  match hm : openWithEnvironment F o { store := w.store, script := script } with
  | (.ok (db, result), fs) =>
    rw [hm] at hopen
    obtain ⟨-, hk, hH, o₀, v, ts, T, I, M, hop⟩ := hopen
    have hs := hop.steady hF hP (fun htr => absurd htr ht) hk.wf hH
    exact .running (hop.joint hs hmodes) rfl h.closed
  | (.error e, fs) =>
    rw [hm] at hopen
    exact .idle hopen.2.1 rfl h.closed
  | (.killed, fs) =>
    rw [hm] at hopen
    exact .idle hopen.2 rfl h.closed

/-! ## Steps of instances -/

theorem Held.acts (hF : F.Lawful) (hP : F.Portable) (hd : ρ.durable) (h : Held F ρ w)
    (hc : w.current = some inst) {a : Action} {script : List Outcome}
    (hallow : ρ.Allows w (.act a script)) : Held F ρ (w.step F (.act a script)) := by
  have hj := h.joint inst hc
  have htakes := hallow inst hc
  have hknown := hj.steady.known hd
  have hstep := Instance.Joint.step (q := False) (σ := sceneOf inst.db w.store) hF hP
    (ρ.durable_imp hd).1 a htakes { store := w.store, script := script } ⟨nofun, hj, rfl⟩
  unfold World.step
  rw [hc]
  dsimp only
  match hm : inst.step F a { store := w.store, script := script } with
  | (.ok (ret, inst'), fs) =>
    rw [hm] at hstep
    dsimp only at hstep ⊢
    unfold World.settle
    cases hstep.2 with
    | on hj' _ =>
      have hopen : inst'.db.state ≠ .closed := hj'.state
      rw [if_neg hopen]
      exact .running hj' rfl h.closed
    | @closed d status hworker hs hended hparked _ =>
      have hclosed : inst'.db.state = .closed := congrArg Database.state hended
      rw [if_pos hclosed]
      refine .idle (hs.inv.remains.kept hd hknown) rfl (fun i hmem => ?_)
      rcases List.mem_append.mp hmem with hmem | hmem
      · exact h.closed i hmem
      · rw [List.mem_singleton.mp hmem]
        exact ⟨hworker, hclosed, fun p hp => (hparked p hp).1⟩
  | (.error e, fs) =>
    rw [hm] at hstep
    exact hstep.elim
  | (.killed, fs) =>
    rw [hm] at hstep
    exact .idle (Remains.kept hstep.2 hd hknown) rfl h.closed

/-- A closed instance changes nothing but itself. -/
theorem step_actClosed_rests (h : ∀ inst ∈ w.closed, inst.Rests) {position : Nat} {a : Action}
    (hw : ∀ inst, w.closed[position]? = some inst → inst.wakes a = false) (script : List Outcome) :
    ∃ closed, w.step F (.actClosed position a script) = { w with closed := closed } ∧
      ∀ inst ∈ closed, inst.Rests := by
  unfold World.step
  dsimp only
  cases hp : w.closed[position]? with
  | none => exact ⟨w.closed, rfl, h⟩
  | some inst =>
    have hi := h inst (List.mem_of_getElem? hp)
    obtain ⟨ret, inst', hrun, hi', -⟩ := hi.step (F := F) (hw inst hp)
      { store := w.store, script := script }
    dsimp only
    rw [hrun]
    refine ⟨w.closed.set position inst', rfl, fun i hmem => ?_⟩
    rcases List.mem_or_eq_of_mem_set hmem with hmem | hmem
    · exact h i hmem
    · rw [hmem]
      exact hi'

/-- One step of a run. -/
theorem Held.step (hF : F.Lawful) (hP : F.Portable) (hd : ρ.durable) (ht : ¬ ρ.traced)
    (h : Held F ρ w) {e : WorldEvent} (hallow : ρ.Allows w e) : Held F ρ (w.step F e) := by
  cases e with
  | openDatabase o script =>
    cases hc : w.current with
    | none => exact h.opens hF hP ht hc hallow.1 hallow.2 script
    | some inst =>
      have hsame : w.step F (.openDatabase o script) = w := by
        unfold World.step
        rw [hc]
      rw [hsame]
      exact h
  | act a script =>
    cases hc : w.current with
    | some inst => exact h.acts hF hP hd hc hallow
    | none =>
      have hsame : w.step F (.act a script) = w := by
        unfold World.step
        rw [hc]
      rw [hsame]
      exact h
  | actClosed position a script =>
    obtain ⟨closed, hstep, hcl⟩ := step_actClosed_rests (F := F) h.closed hallow script
    rw [hstep]
    exact ⟨h.kept, h.joint, hcl⟩
  | kill => exact .idle (h.kept' hd) rfl h.closed
  | drop position =>
    exact ⟨h.kept, h.joint, fun i hi => h.closed i (List.mem_of_mem_eraseIdx hi)⟩
  | crash directory cut =>
    exact .idle ((h.kept' hd).crash hallow directory cut) rfl
      (fun _ hi => absurd hi List.not_mem_nil)

/-- A whole run. -/
theorem Held.run (hF : F.Lawful) (hP : F.Portable) (hd : ρ.durable) (ht : ¬ ρ.traced)
    (h : Held F ρ w) {es : List WorldEvent} (hes : World.Along F ρ.Allows w es) :
    Held F ρ (w.run F es) :=
  hes.keeps (fun _ _ hallow hw => hw.step hF hP hd ht hallow) h

end

end MiniKV
